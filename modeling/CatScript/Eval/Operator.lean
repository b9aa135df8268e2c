import CatScript.Eval.Fault
import CatScript.Expr
import CatScript.Value

/-!
# Operators on values (specification §4.3)

Arithmetic wraps at 64 bits and division goes toward zero. `+` joins texts as soon as one side
is a string. `==` and `!=` compare any two values by structure.
-/
namespace CatScript

open Eval (Fault)

namespace Value

/-- The integer that a value is, for an operator that takes nothing else. -/
def asInt (operator : String) : Value → Except Fault Int64
  | int v => .ok v
  | v => .error (.invalidOperand operator v.display)

def asBool (operator : String) : Value → Except Fault Bool
  | bool v => .ok v
  | v => .error (.invalidOperand operator v.display)

def isStr : Value → Bool
  | str _ => true
  | _ => false

end Value

def UnaryOp.apply (op : UnaryOp) (v : Value) : Except Fault Value :=
  match op with
  | negate => (v.asInt op.text).map fun i => .int (-i)
  | not => (v.asBool op.text).map fun b => .bool !b

namespace BinaryOp

/-- What an operator on two integers gives. -/
def onInts (op : BinaryOp) (a b : Int64) : Except Fault Value :=
  match op with
  | add => .ok (.int (a + b))
  | sub => .ok (.int (a - b))
  | mul => .ok (.int (a * b))
  | div => if b = 0 then .error .divisionByZero else .ok (.int (a / b))
  | gt => .ok (.bool (decide (b < a)))
  | ge => .ok (.bool (decide (b ≤ a)))
  | lt => .ok (.bool (decide (a < b)))
  | le => .ok (.bool (decide (a ≤ b)))
  | eq => .ok (.bool (decide (a = b)))
  | ne => .ok (.bool (decide (a ≠ b)))

/-- An operator that wants integers, the left operand looked at first. -/
def onNumbers (op : BinaryOp) (v w : Value) : Except Fault Value := do
  let a ← v.asInt op.text
  let b ← w.asInt op.text
  op.onInts a b

/-- What the operator gives on two values. Equality is that of values, whatever their types. -/
def apply (op : BinaryOp) (v w : Value) : Except Fault Value :=
  match op with
  | eq => .ok (.bool (decide (v = w)))
  | ne => .ok (.bool (decide (v ≠ w)))
  | add => if v.isStr || w.isStr then .ok (.str (v.display ++ w.display)) else op.onNumbers v w
  | _ => op.onNumbers v w

/-- What is wrong with the left operand before the right one has been evaluated. Products,
quotients and comparisons look at it then, the other operators after both. -/
def leftOperand (op : BinaryOp) (v : Value) : Except Fault Unit :=
  match op with
  | mul | div | gt | ge | lt | le => (v.asInt op.text).map fun _ => ()
  | _ => .ok ()

end BinaryOp

end CatScript
