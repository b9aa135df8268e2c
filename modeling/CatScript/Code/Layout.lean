import CatScript.Code.Instruction
import CatScript.Stmt
import CatScript.Table

/-!
# Layouts

Where the variables of a method live while it is lowered. A variable of the outermost scope of
the main method is global and keeps its name; every other variable has a slot of its own in
the method, and a slot is not used again when its scope ends.
-/
namespace CatScript.Code

/-- Where a variable lives: under its name for the whole run, or in a slot of the running method. -/
inductive Storage where
  | global (name : String)
  | slot (slot : Nat)
  deriving DecidableEq, Repr

/-- A variable of the source as lowered code sees it. The type says how its value is held. -/
structure Variable where
  storage : Storage
  ty : Ty
  deriving DecidableEq, Repr

def Variable.load (v : Variable) : Instruction :=
  match v.storage with
  | .global name => .getGlobal name
  | .slot n => .loadLocal n

def Variable.store (v : Variable) : Instruction :=
  match v.storage with
  | .global name => .putGlobal name
  | .slot n => .storeLocal n

/-- What lowering knows at a place of a method: the functions, the variables in sight and the next
slot that is free. -/
structure Layout where
  functions : Table Signature
  scopes : List (Table Variable)  -- innermost first
  inFunction : Bool
  nextSlot : Nat
  result : Ty

namespace Layout

/-- The layout at the start of the main method. -/
def main (functions : Table Signature) : Layout := ⟨functions, [[]], false, 0, .void⟩

def push (L : Layout) : Layout := { L with scopes := [] :: L.scopes }

/-- Leaves the innermost scope, unless it is the outermost. -/
def pop (L : Layout) : Layout :=
  if L.scopes.length > 1 then { L with scopes := L.scopes.tail } else L

/-- A slot that no variable of the method has. -/
def allocate (L : Layout) : Nat × Layout := (L.nextSlot, { L with nextSlot := L.nextSlot + 1 })

/-- Binds a name in the innermost scope. -/
def bind (L : Layout) (name : String) (v : Variable) : Layout :=
  match L.scopes with
  | [] => L
  | scope :: scopes => { L with scopes := scope.insert name v :: scopes }

/-- Declares a variable in the innermost scope. -/
def declare (L : Layout) (name : String) (ty : Ty) : Variable × Layout :=
  if L.inFunction = false ∧ L.scopes.length = 1 then
    let v : Variable := ⟨.global name, ty⟩
    (v, L.bind name v)
  else
    let (slot, L) := L.allocate
    let v : Variable := ⟨.slot slot, ty⟩
    (v, L.bind name v)

/-- The innermost variable of a name. -/
def find (L : Layout) (name : String) : Except Fault Variable :=
  match Table.findIn? name L.scopes with
  | some v => .ok v
  | none => .error (.unknownVariable name)

def findFunction (L : Layout) (symbol : String) : Except Fault Signature :=
  match L.functions.find? symbol with
  | some s => .ok s
  | none => .error (.unknownFunction symbol)

/-- The layout at the start of a function, which sees its parameters and the globals. -/
def function (functions : Table Signature) (globals : Table Variable) (h : Header) : Layout :=
  h.params.foldl (fun L p => (L.declare p.name p.ty).2)
    ⟨functions, [[], globals], true, 0, h.resultTy⟩

end Layout

/-- Turns a native number of the type into a reference. -/
def boxing (ty : Ty) : List Instruction :=
  match ty with
  | .int => [.box .int]
  | .bool => [.box .bool]
  | _ => []

/-- Goes from the way values of the first type are held to that of the second. -/
def coercion (source target : Ty) : List Instruction :=
  match source.isNative, target.isNative with
  | true, false => boxing source
  | false, true => [.unbox]
  | _, _ => []

end CatScript.Code
