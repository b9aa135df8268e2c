import CatScript.JavaScript.Emit

/-!
# Printing with a count of open blocks

A printer holds what has been written and the number of blocks that are open, and indents each line
by that number. A body is printed one block deeper. The braces are printed apart from that: a
conditional and its `else if` parts leave the closing brace of the last part to the statement that
they belong to.

Leaving a body takes one block away, and none if none is open, so a block that is left once too often
would not be noticed. That this does not happen is `Stmt.emit_eq`: what is printed are the lines of
`Stmt.javaScript`, which are given their depth.
-/
namespace CatScript

namespace JavaScript

/-- What has been printed and how many blocks are open. -/
structure Printer where
  output : String
  depth : Nat
  deriving DecidableEq, Repr

namespace Printer

def line (p : Printer) (text : String) : Printer :=
  { p with output := p.output ++ Line.render ⟨p.depth, text⟩ }

def indent (p : Printer) : Printer := { p with depth := p.depth + 1 }

/-- Leaves a block. Where none is open this changes nothing. -/
def dedent (p : Printer) : Printer := { p with depth := p.depth - 1 }

end Printer

end JavaScript

open JavaScript

namespace Stmt

mutual

def emit (p : Printer) : Stmt → Printer
  | print _ e => p.line ("console.log($str(" ++ e.javaScript ++ "));")
  | forEach _ x e body =>
    (emitAll (p.line ("for (const " ++ x ++ " of " ++ e.javaScript ++ ") \x7b")).indent
      body).dedent.line "\x7d"
  | cond _ e yes none =>
    (emitAll (p.line ("if (" ++ e.javaScript ++ ") \x7b")).indent yes).dedent.line "\x7d"
  | cond _ e yes (some no) =>
    (emitElse (emitAll (p.line ("if (" ++ e.javaScript ++ ") \x7b")).indent yes).dedent
      no).line "\x7d"
  | declare _ x _ e => p.line ("let " ++ x ++ " = " ++ e.javaScript ++ ";")
  | assign _ x e => p.line (x ++ " = " ++ e.javaScript ++ ";")
  | call _ e => p.line (e.javaScript ++ ";")
  | define _ h body =>
    let q := (emitAll (p.line
      ("function " ++ h.name ++ "(" ++ ", ".intercalate (h.params.map (·.name)) ++ ") \x7b")).indent
      body).dedent
    (if lastReturns body then q else (q.indent.line "return null;").dedent).line "\x7d"
  | ret _ none => p.line "return null;"
  | ret _ (some e) => p.line ("return " ++ e.javaScript ++ ";")
  | invalid _ _ => p

def emitAll (p : Printer) : List Stmt → Printer
  | [] => p
  | s :: ss => emitAll (s.emit p) ss

/-- Prints an else part, up to its closing brace. -/
def emitElse (p : Printer) : List Stmt → Printer
  | [] => (p.line "\x7d else \x7b").indent.dedent
  | [cond _ e yes none] =>
    (emitAll (p.line ("\x7d else if (" ++ e.javaScript ++ ") \x7b")).indent yes).dedent
  | [cond _ e yes (some no)] =>
    emitElse (emitAll (p.line ("\x7d else if (" ++ e.javaScript ++ ") \x7b")).indent yes).dedent no
  | s :: ss => (emitAll (s.emit (p.line "\x7d else \x7b").indent) ss).dedent

end

end Stmt

namespace Program

/-- Prints the program behind the prelude. -/
def emit (p : Program) : Printer :=
  match p.body with
  | .expression e =>
    (⟨prelude, 0⟩ : Printer).line ("console.log($str(" ++ e.javaScript ++ "));")
  | .statements ss => Stmt.emitAll ⟨prelude, 0⟩ ss

end Program

end CatScript
