import CatScript.Eval.Fault
import CatScript.Stmt
import CatScript.Table
import CatScript.Value

/-!
# Stores

The state of a run: the scopes, innermost first, how many of them lie around the running
call, the functions by symbol, and the lines printed so far. The outermost scope is the
global one. A name is looked up in the scopes of the running call and then in the global
scope, never in the caller's.
-/
namespace CatScript.Eval

structure Store where
  scopes : List (Table Value)  -- innermost first
  base : Nat                   -- how many scopes lie around the running call
  functions : Table Function
  output : List String         -- latest line first

namespace Store

/-- The store at the start of a run. Of two functions with one symbol the later counts. -/
def initial (functions : List Function) : Store :=
  ⟨[[]], 0, .ofList (functions.map fun f => (f.header.symbol, f)), []⟩

def push (s : Store) : Store := { s with scopes := [] :: s.scopes }

/-- Leaves the innermost scope, unless the running call has no other. -/
def pop (s : Store) : Store :=
  if s.scopes.length > s.base + 1 then { s with scopes := s.scopes.tail } else s

/-- Starts a call whose first scope holds the given bindings. -/
def enter (s : Store) (bindings : Table Value) : Store :=
  { s with scopes := bindings :: s.scopes, base := s.scopes.length }

/-- Ends the running call and goes back to one with `base` scopes around it. -/
def leave (s : Store) (base : Nat) : Store :=
  { s with scopes := s.scopes.drop (s.scopes.length - s.base), base := base }

/-- The scopes of the running call. -/
def locals (s : Store) : List (Table Value) := s.scopes.take (s.scopes.length - s.base)

/-- The scopes around the running call. -/
def outer (s : Store) : List (Table Value) := s.scopes.drop (s.scopes.length - s.base)

/-- The value of a name in the running call, or in the global scope if a function runs. -/
def find? (s : Store) (name : String) : Option Value :=
  (Table.findIn? name s.locals).or
    (if s.base > 0 then s.scopes.getLast?.bind (·.find? name) else none)

/-- Binds a name in the innermost scope. -/
def define (s : Store) (name : String) (value : Value) : Store :=
  match s.scopes with
  | [] => s
  | scope :: scopes => { s with scopes := scope.insert name value :: scopes }

/-- Overwrites a binding of the last scope. -/
def assignLast? (name : String) (value : Value) : List (Table Value) → Option (List (Table Value))
  | [] => none
  | [scope] => if scope.contains name then some [scope.insert name value] else none
  | scope :: next :: scopes => (assignLast? name value (next :: scopes)).map (scope :: ·)

/-- Overwrites the binding that a look-up of the name finds. -/
def assign? (s : Store) (name : String) (value : Value) : Option Store :=
  match Table.assignIn? name value s.locals with
  | some locals => some { s with scopes := locals ++ s.outer }
  | none =>
    if s.base > 0 then (assignLast? name value s.scopes).map fun scopes => { s with scopes := scopes }
    else none

def print (s : Store) (value : Value) : Store := { s with output := value.display :: s.output }

/-- The printed lines, first line first. -/
def printed (s : Store) : String := "\n".intercalate s.output.reverse

end Store

end CatScript.Eval
