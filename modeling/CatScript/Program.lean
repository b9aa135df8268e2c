import CatScript.Stmt

/-!
# Programs

A source text is a program in one of two ways: as a single expression, or as a list of
statements.
-/
namespace CatScript

/-- A source text is one expression from end to end, or it is statements. -/
inductive Program.Body where
  | expression (value : Expr)
  | statements (body : List Stmt)
  deriving Repr

structure Program where
  body : Program.Body
  span : Span
  deriving Repr

namespace Program

def diagnostics (p : Program) : List Diagnostic :=
  match p.body with
  | .expression e => e.diagnostics
  | .statements ss => Stmt.diagnosticsOfAll ss

/-- The statements of the program, none if it is an expression. -/
def statements (p : Program) : List Stmt :=
  match p.body with
  | .expression _ => []
  | .statements ss => ss

/-- Every function of the program, nested ones included. -/
def functions (p : Program) : List Function := Stmt.functionsOfAll p.statements

end Program

end CatScript
