import CatScript.Token.Cursor

/-!
# Outcomes of reading

Reading an expression succeeds with a value and the cursor behind it, or fails with the
cursor on the token where no expression can start. Nothing else fails: a missing bracket is
reported on the value that lacks it.
-/
namespace CatScript.Grammar

inductive Outcome (α : Type) where
  | ok (value : α) (rest : Cursor)
  | failed (rest : Cursor)

namespace Outcome

/-- Reads on behind a value. A failure is handed on with the cursor it left. -/
def bind {α β : Type} : Outcome α → (α → Cursor → Outcome β) → Outcome β
  | ok a rest, f => f a rest
  | failed rest, _ => failed rest

def map {α β : Type} (f : α → β) : Outcome α → Outcome β
  | ok a rest => ok (f a) rest
  | failed rest => failed rest

@[simp] theorem bind_ok {α β : Type} (a : α) (c : Cursor) (f : α → Cursor → Outcome β) :
    (ok a c).bind f = f a c := rfl

@[simp] theorem bind_failed {α β : Type} (c : Cursor) (f : α → Cursor → Outcome β) :
    (failed c).bind f = failed c := rfl

@[simp] theorem map_ok {α β : Type} (f : α → β) (a : α) (c : Cursor) :
    (ok a c).map f = ok (f a) c := rfl

@[simp] theorem map_failed {α β : Type} (f : α → β) (c : Cursor) :
    (failed c : Outcome α).map f = failed c := rfl

/-- The cursor afterwards, on success and on failure. -/
def rest {α : Type} : Outcome α → Cursor
  | ok _ rest => rest
  | failed rest => rest

/-- No more is left than at `c`. -/
def Within {α : Type} (o : Outcome α) (c : Cursor) : Prop := o.rest.weight ≤ c.weight

/-- No more is left than at `c`, and less on success. -/
def Below {α : Type} (o : Outcome α) (c : Cursor) : Prop :=
  match o with
  | ok _ rest => rest.weight < c.weight
  | failed rest => rest.weight ≤ c.weight

theorem Below.within {α : Type} {o : Outcome α} {c : Cursor} (h : o.Below c) : o.Within c := by
  cases o with
  | ok a r => exact Nat.le_of_lt h
  | failed r => exact h

theorem Within.trans {α : Type} {o : Outcome α} {c d : Cursor} (h : o.Within c)
    (hcd : c.weight ≤ d.weight) : o.Within d :=
  Nat.le_trans h hcd

theorem Within.below {α : Type} {o : Outcome α} {c d : Cursor} (h : o.Within c)
    (hcd : c.weight < d.weight) : o.Below d := by
  cases o with
  | ok a r => exact Nat.lt_of_le_of_lt h hcd
  | failed r => exact Nat.le_of_lt (Nat.lt_of_le_of_lt h hcd)

end Outcome

end CatScript.Grammar
