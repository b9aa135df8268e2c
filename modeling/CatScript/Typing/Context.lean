import CatScript.Stmt
import CatScript.Table

/-!
# Typing contexts (specification §4.2)

A context holds the scopes around a place in the program, innermost first. The outermost
scope is the global one. Inside a function a variable is looked up in the scopes of that
function and then in the global scope, and nowhere between; a function is looked up in every
scope. A scope binds a name once.

The first function of a name takes the name as its symbol. Later ones, in other scopes, are
told apart by a number behind `#`, which no identifier can spell.
-/
namespace CatScript.Typing

/-- What a name is bound to. Variables and functions share the names of a scope. -/
inductive Entity where
  | variable (ty : Ty)
  | function (signature : Signature)
  deriving DecidableEq, Repr

/-- What is known at a place of the program. The innermost scope is kept by itself, so that there
always is one. -/
structure Context where
  inner : Table Entity         -- the innermost scope
  outer : List (Table Entity)  -- the scopes around it, the global one last
  base : Option Nat            -- how many scopes lie around the innermost function
  results : List Ty            -- result types of the functions around, innermost first
  counts : Table Nat           -- how many functions of each name have been declared
  deriving DecidableEq, Repr

namespace Context

/-- The context of a whole program. -/
def empty : Context := ⟨[], [], none, [], []⟩

/-- All scopes, innermost first. There is always one. -/
def scopes (Γ : Context) : List (Table Entity) := Γ.inner :: Γ.outer

/-- Opens a scope. -/
def push (Γ : Context) : Context := { Γ with inner := [], outer := Γ.scopes }

/-- Leaves the innermost scope, unless it is the global one. -/
def pop (Γ : Context) : Context :=
  match Γ.outer with
  | [] => Γ
  | scope :: scopes => { Γ with inner := scope, outer := scopes }

/-- The scopes in which a variable is looked up, innermost first. -/
def visible (Γ : Context) : List (Table Entity) :=
  match Γ.base with
  | none => Γ.scopes
  | some base => Γ.scopes.take (Γ.scopes.length - base) ++ Γ.scopes.getLast?.toList

/-- The type of the innermost variable of a name, if no function hides it. -/
def typeIn? (name : String) : List (Table Entity) → Option Ty
  | [] => none
  | scope :: scopes =>
    match scope.find? name with
    | some (.variable ty) => some ty
    | some (.function _) => none
    | none => typeIn? name scopes

def typeOf? (Γ : Context) (name : String) : Option Ty := typeIn? name Γ.visible

/-- The signature of the innermost function of a name, past any variables. -/
def signatureIn? (name : String) : List (Table Entity) → Option Signature
  | [] => none
  | scope :: scopes =>
    match scope.find? name with
    | some (.function signature) => some signature
    | _ => signatureIn? name scopes

/-- The signature of a name that is called. Scopes of the functions around are seen here as well. -/
def signatureOf? (Γ : Context) (name : String) : Option Signature := signatureIn? name Γ.scopes

/-- Binds a name in the innermost scope, unless it is bound there. -/
def declare (Γ : Context) (name : String) (entity : Entity) (span : Span) :
    Except Diagnostic Context :=
  if Γ.inner.contains name then .error ((Cause.duplicateName name).at span)
  else .ok { Γ with inner := Γ.inner.insert name entity }

def declareVariable (Γ : Context) (name : String) (ty : Ty) (span : Span) :
    Except Diagnostic Context :=
  Γ.declare name (.variable ty) span

/-- The symbol of the next function of a name. -/
def nextSymbol (Γ : Context) (name : String) : String :=
  match (Γ.counts.find? name).getD 0 with
  | 0 => name
  | n + 1 => name ++ "#" ++ (n + 1).repr

/-- Binds a function in the innermost scope under a new symbol. -/
def declareFunction (Γ : Context) (signature : Signature) (span : Span) :
    Except Diagnostic (String × Context) :=
  let symbol := Γ.nextSymbol signature.name
  match Γ.declare signature.name (.function { signature with symbol := symbol }) span with
  | .error d => .error d
  | .ok Δ =>
    let seen := (Γ.counts.find? signature.name).getD 0
    .ok (symbol, { Δ with counts := Γ.counts.insert signature.name (seen + 1) })

/-- The declared result type of the innermost function, `void` outside of any. -/
def result (Γ : Context) : Ty := Γ.results.head?.getD .void

/-- Enters the body of a function with the given result type. -/
def enter (Γ : Context) (result : Ty) : Context :=
  { Γ.push with base := some Γ.scopes.length, results := result :: Γ.results }

/-- Leaves the body of a function that was entered from `outer`. -/
def leave (Γ outer : Context) : Context :=
  { Γ.pop with base := outer.base, results := Γ.results.tail }

end Context

end CatScript.Typing
