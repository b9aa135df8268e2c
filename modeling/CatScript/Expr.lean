import CatScript.Diagnostic
import CatScript.Ty

/-!
# Expressions

Every expression carries a note: the span it was read from, the diagnostics about it alone,
and its type once it has been checked. A call also keeps the symbol of the function that
checking found for it.
-/
namespace CatScript

inductive UnaryOp where
  | negate
  | not
  deriving DecidableEq, Repr

def UnaryOp.text : UnaryOp → String
  | negate => "-"
  | not => "not"

inductive BinaryOp where
  | add
  | sub
  | mul
  | div
  | gt
  | ge
  | lt
  | le
  | eq
  | ne
  deriving DecidableEq, Repr

def BinaryOp.text : BinaryOp → String
  | add => "+"
  | sub => "-"
  | mul => "*"
  | div => "/"
  | gt => ">"
  | ge => ">="
  | lt => "<"
  | le => "<="
  | eq => "=="
  | ne => "!="

/-- What an expression carries beside its parts. Diagnostics are only ever added, and the type is
there once the expression has been checked. -/
structure Expr.Note where
  span : Span
  errors : List Diagnostic
  ty : Option Ty
  deriving DecidableEq, Repr

/-- A note of an expression that has not been checked. -/
def Expr.Note.fresh (span : Span) (errors : List Diagnostic) : Expr.Note := ⟨span, errors, none⟩

/-- Expressions (specification §3). A group is a node of its own, so a tree shows where the
source had parentheses. -/
inductive Expr where
  | int (note : Expr.Note) (value : Int64)
  | str (note : Expr.Note) (value : String)
  | bool (note : Expr.Note) (value : Bool)
  | null (note : Expr.Note)
  | var (note : Expr.Note) (name : String)
  | unary (note : Expr.Note) (op : UnaryOp) (operand : Expr)
  | binary (note : Expr.Note) (op : BinaryOp) (left right : Expr)
  | paren (note : Expr.Note) (inner : Expr)
  | list (note : Expr.Note) (items : List Expr)
  | call (note : Expr.Note) (name : String) (args : List Expr) (symbol : Option String)
  deriving Repr

namespace Expr

instance : Inhabited Expr := ⟨.null (.fresh .nowhere [])⟩

def note : Expr → Note
  | int n _ | str n _ | bool n _ | null n | var n _ | unary n _ _ | binary n _ _ _ | paren n _
  | list n _ | call n _ _ _ => n

def span (e : Expr) : Span := e.note.span

/-- The type found by checking, `object` before that. -/
def ty (e : Expr) : Ty := e.note.ty.getD .object

def setNote (note : Note) : Expr → Expr
  | int _ v => int note v
  | str _ v => str note v
  | bool _ v => bool note v
  | null _ => null note
  | var _ x => var note x
  | unary _ op e => unary note op e
  | binary _ op l r => binary note op l r
  | paren _ e => paren note e
  | list _ es => list note es
  | call _ f es s => call note f es s

/-- Adds a diagnostic behind those of the expression itself. -/
def report (d : Diagnostic) (e : Expr) : Expr :=
  e.setNote { e.note with errors := e.note.errors ++ [d] }

mutual

/-- Every diagnostic in the expression: its own, then those of its parts from left to right. -/
def diagnostics : Expr → List Diagnostic
  | int n _ | str n _ | bool n _ | null n | var n _ => n.errors
  | unary n _ e => n.errors ++ e.diagnostics
  | binary n _ l r => n.errors ++ l.diagnostics ++ r.diagnostics
  | paren n e => n.errors ++ e.diagnostics
  | list n es => n.errors ++ diagnosticsOfAll es
  | call n _ es _ => n.errors ++ diagnosticsOfAll es

def diagnosticsOfAll : List Expr → List Diagnostic
  | [] => []
  | e :: es => e.diagnostics ++ diagnosticsOfAll es

end

theorem diagnosticsOfAll_eq (es : List Expr) : diagnosticsOfAll es = es.flatMap diagnostics := by
  induction es with
  | nil => rfl
  | cons e es ih => simp [diagnosticsOfAll, ih]

end Expr

end CatScript
