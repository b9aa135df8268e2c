/-!
# Types

`int`, `bool`, `string`, lists of one element type, `void` for a function without a result,
and `object`, which stands for every value. `object` is compatible in both directions, so a
value of type `object` may be stored anywhere and the check is left to the run.
-/
namespace CatScript

/-- Types (specification §3), compared by structure. -/
inductive Ty where
  | int
  | bool
  | string
  | object
  | void
  | list (element : Ty)
  deriving DecidableEq, Repr

namespace Ty

def display : Ty → String
  | int => "int"
  | bool => "bool"
  | string => "string"
  | object => "object"
  | void => "void"
  | list element => "list<" ++ element.display ++ ">"

/-- Whether a value of the second type may be stored where the first is declared. -/
def accepts : Ty → Ty → Bool
  | object, _ => true
  | _, object => true
  | list target, list source => target.accepts source
  | target, source => decide (target = source)

/-- The type of what a loop over a value of this type sees. -/
def element? : Ty → Option Ty
  | list element => some element
  | object => some object
  | _ => none

/-- The element type of a list literal: the common type of its items, `object` if they
differ or there are none. -/
def join : List Ty → Ty
  | [] => object
  | t :: ts => if ts.all (· = t) then t else object

/-- Whether lowered code holds values of this type as plain numbers. -/
def isNative : Ty → Bool
  | int | bool => true
  | _ => false

end Ty

end CatScript
