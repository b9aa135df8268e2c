import CatScript.Text.Chars

/-!
# Lines of a source text

A text is cut after each newline. The last line has no newline, and it is empty when the
text ends in one, so every text has at least one line. An offset belongs to the first line
whose bytes reach past it; an offset at or past the end belongs to the last line.
-/
namespace CatScript.Text

/-- The lines of a text, each with its newline if it has one. -/
def lines : List Char → List (List Char)
  | [] => [[]]
  | c :: cs =>
    if c = '\n' then [c] :: lines cs
    else
      match lines cs with
      | [] => [[c]]
      | l :: ls => (c :: l) :: ls

/-- A place in a text: the line's number, counted from 1, its text with the newline, and
the byte column inside it. -/
structure Place where
  number : Nat
  text : List Char
  column : Nat
  deriving DecidableEq, Repr

/-- Walks the lines from line `number` on with `p` bytes to go. -/
def seek : List (List Char) → Nat → Nat → Place
  | [], number, p => ⟨number, [], p⟩
  | [l], number, p => ⟨number, l, p⟩
  | l :: ls, number, p => if p < bytes l then ⟨number, l, p⟩ else seek ls (number + 1) (p - bytes l)

/-- The place of a byte offset. -/
def placeAt (source : List Char) (offset : Nat) : Place :=
  seek (lines source) 1 (min offset (bytes source))

end CatScript.Text
