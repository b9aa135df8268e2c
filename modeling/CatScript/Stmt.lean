import CatScript.Expr
import CatScript.Token

/-!
# Statements

A statement carries its span and the diagnostics about it alone. An `else if` is an else body
that holds a single conditional, and a statement that could not be read is `invalid` and
keeps the token at which reading failed.

A function has a name and a symbol. The name is what calls write; the symbol tells functions
of one name apart and is the name itself until the program has been checked.
-/
namespace CatScript

/-- A type as written in the source. -/
structure TypeName where
  ty : Ty
  span : Span
  errors : List Diagnostic
  deriving DecidableEq, Repr

structure Param where
  name : String
  declared : Option TypeName
  deriving DecidableEq, Repr

/-- The declared type, `object` if none is written. -/
def Param.ty (p : Param) : Ty :=
  match p.declared with
  | some t => t.ty
  | none => .object

/-- A function without its body. -/
structure Header where
  name : String
  symbol : String
  params : List Param
  result : Option TypeName
  deriving DecidableEq, Repr

/-- The names and types that a call of a function needs. -/
structure Signature where
  name : String
  symbol : String
  params : List (String × Ty)
  result : Ty
  deriving DecidableEq, Repr

namespace Header

/-- The declared result type, `void` if none is written. -/
def resultTy (h : Header) : Ty :=
  match h.result with
  | some t => t.ty
  | none => .void

/-- What calls of the function are checked against and lowered by. -/
def signature (h : Header) : Signature :=
  ⟨h.name, h.symbol, h.params.map fun p => (p.name, p.ty), h.resultTy⟩

/-- The diagnostics of the types written in the header. -/
def diagnostics (h : Header) : List Diagnostic :=
  (h.params.flatMap fun p => (p.declared.map (·.errors)).getD []) ++
    (h.result.map (·.errors)).getD []

end Header

structure Stmt.Note where
  span : Span
  errors : List Diagnostic
  deriving DecidableEq, Repr

/-- Statements (specification §3). The bodies of loops, branches and functions are lists of
statements, each with a scope of its own. -/
inductive Stmt where
  | print (note : Stmt.Note) (value : Expr)
  | forEach (note : Stmt.Note) (name : String) (iterable : Expr) (body : List Stmt)
  | cond (note : Stmt.Note) (test : Expr) (yes : List Stmt) (no : Option (List Stmt))
  | declare (note : Stmt.Note) (name : String) (declared : Option TypeName) (value : Expr)
  | assign (note : Stmt.Note) (name : String) (value : Expr)
  | call (note : Stmt.Note) (value : Expr)
  | define (note : Stmt.Note) (header : Header) (body : List Stmt)
  | ret (note : Stmt.Note) (value : Option Expr)
  | invalid (note : Stmt.Note) (token : Token)
  deriving Repr

/-- A function definition. -/
structure Function where
  header : Header
  body : List Stmt
  deriving Repr

namespace Stmt

def note : Stmt → Note
  | print n _ | forEach n _ _ _ | cond n _ _ _ | declare n _ _ _ | assign n _ _ | call n _
  | define n _ _ | ret n _ | invalid n _ => n

def span (s : Stmt) : Span := s.note.span

def isInvalid : Stmt → Bool
  | invalid _ _ => true
  | _ => false

/-- A token that cannot start or continue a statement, as a statement of its own. -/
def ofUnexpected (t : Token) : Stmt := .invalid ⟨t.span, [t.unexpected]⟩ t

instance : Inhabited Stmt := ⟨.invalid ⟨.nowhere, []⟩ (.endAt .nowhere)⟩

mutual

/-- Every diagnostic in the statement: its own, then those of its parts in source order. -/
def diagnostics : Stmt → List Diagnostic
  | print n e | call n e | assign n _ e => n.errors ++ e.diagnostics
  | forEach n _ e body => n.errors ++ e.diagnostics ++ diagnosticsOfAll body
  | cond n e yes none => n.errors ++ e.diagnostics ++ diagnosticsOfAll yes
  | cond n e yes (some no) =>
    n.errors ++ e.diagnostics ++ diagnosticsOfAll yes ++ diagnosticsOfAll no
  | declare n _ none e => n.errors ++ e.diagnostics
  | declare n _ (some t) e => n.errors ++ t.errors ++ e.diagnostics
  | define n h body => n.errors ++ h.diagnostics ++ diagnosticsOfAll body
  | ret n none => n.errors
  | ret n (some e) => n.errors ++ e.diagnostics
  | invalid n _ => n.errors

def diagnosticsOfAll : List Stmt → List Diagnostic
  | [] => []
  | s :: ss => s.diagnostics ++ diagnosticsOfAll ss

end

theorem diagnosticsOfAll_eq (ss : List Stmt) : diagnosticsOfAll ss = ss.flatMap diagnostics := by
  induction ss with
  | nil => rfl
  | cons s ss ih => simp [diagnosticsOfAll, ih]

mutual

/-- Every function defined in the statement, each before those nested in it. -/
def functions : Stmt → List Function
  | define _ h body => ⟨h, body⟩ :: functionsOfAll body
  | forEach _ _ _ body => functionsOfAll body
  | cond _ _ yes none => functionsOfAll yes
  | cond _ _ yes (some no) => functionsOfAll yes ++ functionsOfAll no
  | _ => []

def functionsOfAll : List Stmt → List Function
  | [] => []
  | s :: ss => s.functions ++ functionsOfAll ss

end

theorem functionsOfAll_eq (ss : List Stmt) : functionsOfAll ss = ss.flatMap functions := by
  induction ss with
  | nil => rfl
  | cons s ss ih => simp [functionsOfAll, ih]

mutual

/-- Whether every path through the statement ends in a return. -/
def returns : Stmt → Bool
  | ret _ _ => true
  | cond _ _ yes (some no) => lastReturns yes && lastReturns no
  | _ => false

/-- Whether every path through the last of the statements ends in a return. -/
def lastReturns : List Stmt → Bool
  | [] => false
  | [s] => s.returns
  | _ :: s :: ss => lastReturns (s :: ss)

end

end Stmt

end CatScript
