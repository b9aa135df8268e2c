import CatScript.Code.Instruction
import CatScript.StackMachine.Fault
import CatScript.StackMachine.Slot

/-!
# Frames

A frame belongs to one call of a method and has an operand stack and locals of its own. The
arguments of the call are its first locals. Taking a number where a reference lies fails, and
the other way round: nothing is converted on the way.
-/
namespace CatScript.StackMachine

open Code (Instruction Jump Method)

structure Frame where
  code : List Instruction
  next : Nat             -- offset of the next instruction
  stack : List Slot      -- topmost first
  locals : List Slot
  deriving DecidableEq, Repr

namespace Frame

/-- The frame of a call: the arguments first, then what other locals the method has. -/
def ofCall (m : Method) (args : List Slot) : Frame :=
  ⟨m.code, 0, [], args ++ List.replicate (m.locals - args.length) .unset⟩

def push (f : Frame) (s : Slot) : Frame := { f with stack := s :: f.stack }

def pushNative (f : Frame) (n : Int64) : Frame := f.push (.native n)

def pushReference (f : Frame) (r : Reference) : Frame := f.push (.reference r)

def pushTruth (f : Frame) (b : Bool) : Frame := f.pushNative (if b then 1 else 0)

def pop (f : Frame) : Except Fault (Slot × Frame) :=
  match f.stack with
  | [] => .error .stackUnderflow
  | s :: stack => .ok (s, { f with stack := stack })

def popNative (f : Frame) : Except Fault (Int64 × Frame) := do
  let (s, f) ← f.pop
  match s with
  | .native n => .ok (n, f)
  | s => .error (.expectedNative s.display)

def popReference (f : Frame) : Except Fault (Reference × Frame) := do
  let (s, f) ← f.pop
  match s with
  | .reference r => .ok (r, f)
  | s => .error (.expectedReference s.display)

def popIterator (f : Frame) : Except Fault (Nat × Frame) := do
  let (r, f) ← f.popReference
  match r with
  | .iterator id => .ok (id, f)
  | r => .error (.notIterable r.display)

/-- The topmost `count` slots, deepest first. -/
def popMany (f : Frame) (count : Nat) : Except Fault (List Slot × Frame) :=
  if f.stack.length < count then .error .stackUnderflow
  else .ok ((f.stack.take count).reverse, { f with stack := f.stack.drop count })

def load (f : Frame) (slot : Nat) : Slot := (f.locals[slot]?).getD .unset

/-- Stores in a slot, and makes the locals reach that far if they do not. -/
def store (f : Frame) (slot : Nat) (s : Slot) : Frame :=
  let locals := f.locals ++ List.replicate (slot + 1 - f.locals.length) .unset
  { f with locals := locals.set slot s }

/-- An operation on the two topmost numbers, of which the topmost is the right one. -/
def onNumbers (f : Frame) (op : Int64 → Int64 → Except Fault Int64) : Except Fault Frame := do
  let (b, f) ← f.popNative
  let (a, f) ← f.popNative
  let c ← op a b
  .ok (f.pushNative c)

end Frame

/-- The references among slots of which none is a number. -/
def references : List Slot → Except Fault (List Reference)
  | [] => .ok []
  | .reference r :: ss => (references ss).map (r :: ·)
  | s :: _ => .error (.expectedReference s.display)

/-- Whether the jump is taken, and the frame without its operands. -/
def taken (j : Jump) (f : Frame) : Except Fault (Bool × Frame) :=
  let compare (test : Int64 → Int64 → Bool) : Except Fault (Bool × Frame) := do
    let (b, f) ← f.popNative
    let (a, f) ← f.popNative
    .ok (test a b, f)
  match j with
  | .always => .ok (true, f)
  | .ifTrue => do
    let (n, f) ← f.popNative
    .ok (n != 0, f)
  | .ifFalse => do
    let (n, f) ← f.popNative
    .ok (n == 0, f)
  | .ifEq => compare fun a b => a == b
  | .ifNe => compare fun a b => a != b
  | .ifLt => compare fun a b => decide (a < b)
  | .ifLe => compare fun a b => decide (a ≤ b)
  | .ifGt => compare fun a b => decide (b < a)
  | .ifGe => compare fun a b => decide (b ≤ a)

end CatScript.StackMachine
