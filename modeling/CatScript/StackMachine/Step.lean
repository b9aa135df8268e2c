import CatScript.StackMachine.Frame
import CatScript.Table

/-!
# One step of the stack machine (specification §4.4)

The machine runs the topmost of a pile of frames. A call takes its arguments from the stack of
the caller and starts a frame; a return drops the frame, and `ReturnValue` leaves its topmost
value on the caller's stack. Running past the last instruction returns without a value.
-/
namespace CatScript.StackMachine

open Code (Instruction Method)

structure State where
  frames : List Frame             -- the running one first
  globals : Table Slot
  heap : List (List Reference)    -- for each iterator the items it has still to give
  output : List String            -- latest line first
  deriving DecidableEq, Repr

namespace State

/-- The state at the start of a run of the method. -/
def initial (main : Method) : State := ⟨[.ofCall main []], [], [], []⟩

/-- Puts the running frame back on top of the others. -/
def resume (s : State) (f : Frame) (callers : List Frame) : State :=
  { s with frames := f :: callers }

/-- Goes back to the caller, with a value for its stack if there is one. -/
def leave (s : State) (result : Option Slot) (callers : List Frame) : State :=
  match result, callers with
  | some v, f :: fs => { s with frames := f.push v :: fs }
  | _, callers => { s with frames := callers }

def printed (s : State) : String := "\n".intercalate s.output.reverse

end State

/-- Runs one instruction of frame `f`, which already points behind it. -/
def exec (code : Code) (s : State) (f : Frame) (callers : List Frame) (i : Instruction) :
    Except Fault State :=
  match i with
  | .pushInt n => .ok (s.resume (f.pushNative n) callers)
  | .pushString v => .ok (s.resume (f.pushReference (.str v)) callers)
  | .pushNull => .ok (s.resume (f.pushReference .null) callers)
  | .box native => do
    let (n, f) ← f.popNative
    let r : Reference :=
      match native with
      | .int => .int n
      | .bool => .bool (n != 0)
    .ok (s.resume (f.pushReference r) callers)
  | .unbox => do
    let (r, f) ← f.popReference
    match r with
    | .int n => .ok (s.resume (f.pushNative n) callers)
    | .bool b => .ok (s.resume (f.pushTruth b) callers)
    | r => .error (.expectedNative r.display)
  | .pop => do
    let (_, f) ← f.pop
    .ok (s.resume f callers)
  | .getGlobal x =>
    match s.globals.find? x with
    | some v => .ok (s.resume (f.push v) callers)
    | none => .error (.undefinedGlobal x)
  | .putGlobal x => do
    let (v, f) ← f.pop
    .ok ({ s with globals := s.globals.insert x v }.resume f callers)
  | .loadLocal n => .ok (s.resume (f.push (f.load n)) callers)
  | .storeLocal n => do
    let (v, f) ← f.pop
    .ok (s.resume (f.store n v) callers)
  | .add => do
    let f ← f.onNumbers fun a b => .ok (a + b)
    .ok (s.resume f callers)
  | .sub => do
    let f ← f.onNumbers fun a b => .ok (a - b)
    .ok (s.resume f callers)
  | .mul => do
    let f ← f.onNumbers fun a b => .ok (a * b)
    .ok (s.resume f callers)
  | .div => do
    let f ← f.onNumbers fun a b => if b = 0 then .error .divisionByZero else .ok (a / b)
    .ok (s.resume f callers)
  | .neg => do
    let (n, f) ← f.popNative
    .ok (s.resume (f.pushNative (-n)) callers)
  | .concat => do
    let (b, f) ← f.popReference
    let (a, f) ← f.popReference
    .ok (s.resume (f.pushReference (.str (a.display ++ b.display))) callers)
  | .equals => do
    let (b, f) ← f.popReference
    let (a, f) ← f.popReference
    .ok (s.resume (f.pushTruth (decide (a = b))) callers)
  | .makeList count => do
    let (slots, f) ← f.popMany count
    let items ← references slots
    .ok (s.resume (f.pushReference (.list items)) callers)
  | .getIterator => do
    let (r, f) ← f.popReference
    match r with
    | .list items =>
      .ok ({ s with heap := s.heap ++ [items] }.resume
        (f.pushReference (.iterator s.heap.length)) callers)
    | r => .error (.notIterable r.display)
  | .hasNext => do
    let (id, f) ← f.popIterator
    .ok (s.resume (f.pushTruth !((s.heap[id]?).getD []).isEmpty) callers)
  | .next => do
    let (id, f) ← f.popIterator
    match (s.heap[id]?).getD [] with
    | [] => .error .stackUnderflow
    | r :: items =>
      .ok ({ s with heap := s.heap.set id items }.resume (f.pushReference r) callers)
  | .print => do
    let (r, f) ← f.popReference
    .ok ({ s with output := r.display :: s.output }.resume f callers)
  | .invoke name arity =>
    match code.methods.find? name with
    | none => .error (.undefinedMethod name)
    | some m => do
      let (args, f) ← f.popMany arity
      .ok (s.resume (.ofCall m args) (f :: callers))
  | .ret => .ok (s.leave none callers)
  | .retValue => do
    let (v, _) ← f.pop
    .ok (s.leave (some v) callers)
  | .jump j target => do
    let (b, f) ← taken j f
    .ok (s.resume (if b then { f with next := target } else f) callers)

/-- One step of a state that has a running frame. -/
def step (code : Code) (s : State) : Except Fault State :=
  match s.frames with
  | [] => .ok s
  | f :: callers =>
    match f.code[f.next]? with
    | none => .ok (s.leave none callers)
    | some i => exec code s { f with next := f.next + 1 } callers i

end CatScript.StackMachine
