import CatScript.Text.Quoted

/-!
# Faults of the stack machine

Why a run stops before its end. Running out of steps belongs to the bound under which the code
was run, and says nothing about the code.
-/
namespace CatScript.StackMachine

/-- Why the machine stops. Slots and references are kept as the texts by which they are shown. -/
inductive Fault where
  | stackUnderflow
  | expectedNative (found : String)
  | expectedReference (found : String)
  | divisionByZero
  | undefinedMethod (name : String)
  | undefinedGlobal (name : String)
  | notIterable (found : String)
  deriving DecidableEq, Repr

namespace Fault

def name : Fault → String
  | stackUnderflow => "StackUnderflow"
  | expectedNative _ => "ExpectedNative"
  | expectedReference _ => "ExpectedReference"
  | divisionByZero => "DivisionByZero"
  | undefinedMethod _ => "UndefinedMethod"
  | undefinedGlobal _ => "UndefinedGlobal"
  | notIterable _ => "NotIterable"

def message : Fault → String
  | stackUnderflow => "stack underflow"
  | expectedNative found => "expected a native int, found " ++ found
  | expectedReference found => "expected a reference, found " ++ found
  | divisionByZero => "division by zero"
  | undefinedMethod name => "undefined method " ++ Text.quoted name
  | undefinedGlobal name => "undefined global " ++ Text.quoted name
  | notIterable found => "cannot iterate over " ++ found

end Fault

/-- How a run ends early: by a fault, or at the bound on its steps. -/
inductive Halt where
  | fault (fault : Fault)
  | outOfSteps
  deriving DecidableEq, Repr

def Halt.message : Halt → String
  | fault f => f.message
  | outOfSteps => "step limit exceeded"

end CatScript.StackMachine
