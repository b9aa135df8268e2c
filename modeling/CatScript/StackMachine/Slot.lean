import CatScript.Text.Decimal

/-!
# Slots

An entry of the stack, a local or a global is a native number or a reference. References are
compared by structure; an iterator is the same as itself only, and its items stand in the heap
of the machine, so that all copies of the reference move together.
-/
namespace CatScript.StackMachine

/-- What is not held as a number. Integers and booleans are references once they are boxed. -/
inductive Reference where
  | null
  | int (value : Int64)
  | bool (value : Bool)
  | str (value : String)
  | list (items : List Reference)
  | iterator (id : Nat)
  deriving Repr

namespace Reference

instance : Inhabited Reference := ⟨.null⟩

mutual

/-- Whether two references are equal. -/
def same : Reference → Reference → Bool
  | null, null => true
  | int a, int b => a == b
  | bool a, bool b => a == b
  | str a, str b => a == b
  | list as, list bs => sameAll as bs
  | iterator a, iterator b => a == b
  | _, _ => false

def sameAll : List Reference → List Reference → Bool
  | [], [] => true
  | a :: as, b :: bs => same a b && sameAll as bs
  | _, _ => false

end

mutual

theorem same_iff (a b : Reference) : same a b = true ↔ a = b := by
  match a, b with
  | null, null => simp [same]
  | int a, int b => simp [same]
  | bool a, bool b => simp [same]
  | str a, str b => simp [same]
  | list as, list bs => simp [same, sameAll_iff as bs]
  | iterator a, iterator b => simp [same]
  | null, int _ | null, bool _ | null, str _ | null, list _ | null, iterator _ => simp [same]
  | int _, null | int _, bool _ | int _, str _ | int _, list _ | int _, iterator _ => simp [same]
  | bool _, null | bool _, int _ | bool _, str _ | bool _, list _ | bool _, iterator _ =>
    simp [same]
  | str _, null | str _, int _ | str _, bool _ | str _, list _ | str _, iterator _ => simp [same]
  | list _, null | list _, int _ | list _, bool _ | list _, str _ | list _, iterator _ =>
    simp [same]
  | iterator _, null | iterator _, int _ | iterator _, bool _ | iterator _, str _
  | iterator _, list _ => simp [same]

theorem sameAll_iff (as bs : List Reference) : sameAll as bs = true ↔ as = bs := by
  match as, bs with
  | [], [] => simp [sameAll]
  | a :: as, b :: bs => simp [sameAll, same_iff a b, sameAll_iff as bs]
  | [], _ :: _ | _ :: _, [] => simp [sameAll]

end

instance : DecidableEq Reference := fun a b => decidable_of_iff _ (same_iff a b)

mutual

def display : Reference → String
  | null => "null"
  | int v => Text.decimal v
  | bool v => if v then "true" else "false"
  | str v => v
  | list vs => "[" ++ displayAll vs ++ "]"
  | iterator _ => "<iterator>"

/-- The texts of the references with commas between them. -/
def displayAll : List Reference → String
  | [] => ""
  | [v] => v.display
  | v :: w :: vs => v.display ++ ", " ++ displayAll (w :: vs)

end

end Reference

/-- The two ways to hold a value. A boolean held natively is the number 0 or 1. -/
inductive Slot where
  | native (value : Int64)
  | reference (value : Reference)
  deriving DecidableEq, Repr

namespace Slot

/-- What a local holds before anything is stored in it. -/
def unset : Slot := .reference .null

def display : Slot → String
  | native v => "native " ++ Text.decimal v
  | reference r => "reference " ++ r.display

end Slot

end CatScript.StackMachine
