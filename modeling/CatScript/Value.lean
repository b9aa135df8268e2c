import CatScript.Text.Decimal

/-!
# Values

What an expression evaluates to. Values are compared by structure, and a value's text is what
`print` shows and what joining with a string inserts.
-/
namespace CatScript

/-- Values of a run (specification §4.3). There is no value for a call without a result: such
a call gives `null`. -/
inductive Value where
  | int (value : Int64)
  | bool (value : Bool)
  | str (value : String)
  | list (items : List Value)
  | null
  deriving Repr

namespace Value

instance : Inhabited Value := ⟨.null⟩

mutual

/-- Whether two values are the same. -/
def same : Value → Value → Bool
  | int a, int b => a == b
  | bool a, bool b => a == b
  | str a, str b => a == b
  | list as, list bs => sameAll as bs
  | null, null => true
  | _, _ => false

def sameAll : List Value → List Value → Bool
  | [], [] => true
  | a :: as, b :: bs => same a b && sameAll as bs
  | _, _ => false

end

mutual

theorem same_iff (a b : Value) : same a b = true ↔ a = b := by
  match a, b with
  | int a, int b => simp [same]
  | bool a, bool b => simp [same]
  | str a, str b => simp [same]
  | list as, list bs => simp [same, sameAll_iff as bs]
  | null, null => simp [same]
  | int _, bool _ | int _, str _ | int _, list _ | int _, null => simp [same]
  | bool _, int _ | bool _, str _ | bool _, list _ | bool _, null => simp [same]
  | str _, int _ | str _, bool _ | str _, list _ | str _, null => simp [same]
  | list _, int _ | list _, bool _ | list _, str _ | list _, null => simp [same]
  | null, int _ | null, bool _ | null, str _ | null, list _ => simp [same]

theorem sameAll_iff (as bs : List Value) : sameAll as bs = true ↔ as = bs := by
  match as, bs with
  | [], [] => simp [sameAll]
  | a :: as, b :: bs => simp [sameAll, same_iff a b, sameAll_iff as bs]
  | [], _ :: _ | _ :: _, [] => simp [sameAll]

end

instance : DecidableEq Value := fun a b => decidable_of_iff _ (same_iff a b)

mutual

/-- The text of a value. A string stands for itself, without quotes, in a list too. -/
def display : Value → String
  | int v => Text.decimal v
  | bool v => if v then "true" else "false"
  | str v => v
  | list vs => "[" ++ displayAll vs ++ "]"
  | null => "null"

/-- The texts of the values with commas between them. -/
def displayAll : List Value → String
  | [] => ""
  | [v] => v.display
  | v :: w :: vs => v.display ++ ", " ++ displayAll (w :: vs)

end

end Value

end CatScript
