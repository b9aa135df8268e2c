import CatScript.Diagnostic
import CatScript.Text.Chars
import CatScript.Text.Line

/-!
# Diagnostics with their source line

A diagnostic is shown above the line it belongs to, with a caret below the line:

    Error: IncompatibleTypes (Expected type `int`, received `string`)
    -> main.cat
      |
    1 | var x : int = "hello"
      | --------------^

The line loses its leading spaces and the white space at its end. The gutter is one wider
than the line number and a space, and the caret is preceded by one dash for each byte
between the first shown character and the diagnostic's offset.
-/
namespace CatScript.Diagnostic

/-- The first line: the cause's name, with its tip in parentheses if it has one. -/
def headline (d : Diagnostic) : String :=
  match d.cause.tip? with
  | none => "Error: " ++ d.cause.name
  | some tip => "Error: " ++ d.cause.name ++ " (" ++ tip ++ ")"

/-- The bar that separates the gutter from the source, below a line number of `width` digits. -/
def bar (width : Nat) : String := String.ofList (List.replicate (width + 1) ' ') ++ "|"

/-- The line's text after its leading spaces, and how many those are. -/
def unindented (line : List Char) : List Char × Nat :=
  (line.dropWhile (· = ' '), (line.takeWhile (· = ' ')).length)

/-- The caret with its dashes, `column` bytes into the shown line. -/
def caret (column : Nat) : String := String.ofList (List.replicate column '-') ++ "^"

def excerpt (d : Diagnostic) (source : String) : String :=
  let place := Text.placeAt source.toList d.offset
  let number := place.number.repr
  let gutter := bar number.length
  let (shown, indent) := unindented place.text
  d.headline ++ "\n" ++
  "-> " ++ d.file ++ "\n" ++
  gutter ++ "\n" ++
  number ++ " | " ++ String.ofList (Text.trimEnd shown) ++ "\n" ++
  gutter ++ " " ++ caret (place.column - indent) ++ "\n"

end CatScript.Diagnostic
