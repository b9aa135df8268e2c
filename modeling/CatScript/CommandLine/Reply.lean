import CatScript.Diagnostic.Excerpt

/-!
# Replies

What a command writes. The output of a program ends in a newline, and nothing is written for an
empty one. Diagnostics are followed by their number. A failure names what was being done and,
indented, why it could not be.
-/
namespace CatScript.CommandLine

/-- What a command writes and the status it ends with. -/
structure Reply where
  status : Nat
  out : String
  err : String
  deriving DecidableEq, Repr

/-- The reply to arguments that make no command. -/
def usage : Reply :=
  ⟨2, "", "usage: catscript [-m run|bytecode|transpile|check] [-e] [--disassemble] FILE\n"⟩

/-- The text with four spaces in front of each line. -/
def indented (text : String) : String :=
  "    " ++ String.ofList (text.toList.flatMap fun c => if c = '\n' then "\n    ".toList else [c])

/-- The reply to a command that failed while doing `what`. -/
def failure (what cause : String) : Reply :=
  ⟨1, "", "Error: " ++ what ++ "\n\nCaused by:\n" ++ indented cause ++ "\n"⟩

/-- The output, with a newline behind it unless it ends in one or is empty. -/
def success (output : String) : Reply :=
  match output.toList.getLast? with
  | none => ⟨0, "", ""⟩
  | some '\n' => ⟨0, output, ""⟩
  | some _ => ⟨0, output ++ "\n", ""⟩

/-- The reply to a source with diagnostics. -/
def rejection (diagnostics : List Diagnostic) (source file : String) : Reply :=
  ⟨1, "", String.join (diagnostics.map (·.excerpt source)) ++
    diagnostics.length.repr ++ " error(s) in " ++ file ++ "\n"⟩

end CatScript.CommandLine
