import CatScript.Text.Quoted

/-!
# Faults of evaluation

Why a run stops before its end. A fault belongs to the program; running out of call depth
belongs to the bound under which the program was run, and says nothing about the program.
-/
namespace CatScript.Eval

/-- Why a run fails. Values are kept as the texts by which they are shown. -/
inductive Fault where
  | divisionByZero
  | notIterable (value : String)
  | unknownFunction (name : String)
  | unboundVariable (name : String)
  | invalidOperand (operator value : String)
  deriving DecidableEq, Repr

namespace Fault

def name : Fault → String
  | divisionByZero => "DivisionByZero"
  | notIterable _ => "NotIterable"
  | unknownFunction _ => "UnknownFunction"
  | unboundVariable _ => "UnboundVariable"
  | invalidOperand _ _ => "InvalidOperand"

def message : Fault → String
  | divisionByZero => "division by zero"
  | notIterable value => "cannot iterate over " ++ value
  | unknownFunction name => "unknown function " ++ Text.quoted name
  | unboundVariable name => "unbound variable " ++ Text.quoted name
  | invalidOperand operator value => "cannot apply " ++ operator ++ " to " ++ value

end Fault

/-- How a run ends early: by a fault, or at the bound on the depth of calls. -/
inductive Halt where
  | fault (fault : Fault)
  | tooDeep
  deriving DecidableEq, Repr

def Halt.message : Halt → String
  | fault f => f.message
  | tooDeep => "call depth exceeded"

end CatScript.Eval
