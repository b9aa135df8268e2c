import CatScript.Eval.Operator
import CatScript.Proofs.Typing.Judgement

/-!
# Values of a type

Which values a type has, and that operators on values of the right types give values of the
type that checking gives the operation. The only way for such an operator to fail is a division
by zero.
-/
namespace CatScript

namespace Value

/-- Whether the type has the value. -/
def Inhabits (v : Value) : Ty → Prop
  | .int => ∃ n, v = .int n
  | .bool => ∃ b, v = .bool b
  | .string => ∃ s, v = .str s
  | .object => True
  | .void => v = .null
  | .list t => ∃ vs, v = .list vs ∧ ∀ w ∈ vs, w.Inhabits t

/-- The same, as a test. -/
def inhabits (v : Value) : Ty → Bool
  | .int => match v with | .int _ => true | _ => false
  | .bool => match v with | .bool _ => true | _ => false
  | .string => match v with | .str _ => true | _ => false
  | .object => true
  | .void => match v with | .null => true | _ => false
  | .list t => match v with | .list vs => vs.all (·.inhabits t) | _ => false

theorem inhabits_iff (v : Value) (t : Ty) : v.inhabits t = true ↔ v.Inhabits t := by
  induction t generalizing v with
  | list t ih => cases v <;> simp [inhabits, Inhabits, ih]
  | _ => cases v <;> simp [inhabits, Inhabits]

instance (v : Value) (t : Ty) : Decidable (v.Inhabits t) :=
  decidable_of_iff _ (inhabits_iff v t)

variable {v w : Value} {s t : Ty}

theorem Inhabits.widen (h : v.Inhabits s) (hw : s.Widens t) : v.Inhabits t := by
  induction hw generalizing v with
  | object t => trivial
  | refl t => exact h
  | list _ ih =>
    obtain ⟨vs, rfl, hvs⟩ := h
    exact ⟨vs, rfl, fun w hm => ih (hvs w hm)⟩

/-- What a loop over a value of a type sees. -/
theorem Inhabits.element {vs : List Value} (h : (Value.list vs).Inhabits s)
    (he : s.element? = some t) : ∀ w ∈ vs, w.Inhabits t := by
  cases s with
  | object =>
    cases he
    exact fun _ _ => trivial
  | list element =>
    cases he
    obtain ⟨ws, hw, h⟩ := h
    cases hw
    exact h
  | _ => cases he

/-- Values of the types one by one. -/
def InhabitAll : List Value → List Ty → Prop
  | [], [] => True
  | v :: vs, t :: ts => v.Inhabits t ∧ InhabitAll vs ts
  | _, _ => False

theorem InhabitAll.of_all {vs : List Value} {ts : List Ty} (h : InhabitAll vs ts)
    (ht : ∀ s ∈ ts, s = t) : ∀ v ∈ vs, v.Inhabits t := by
  induction vs generalizing ts with
  | nil => simp
  | cons v vs ih =>
    cases ts with
    | nil => exact h.elim
    | cons s ts =>
      simp only [List.mem_cons, forall_eq_or_imp] at ht ⊢
      exact ⟨ht.1 ▸ h.1, ih h.2 ht.2⟩

/-- The items of a list literal have its element type. -/
theorem InhabitAll.join {vs : List Value} {ts : List Ty} (h : InhabitAll vs ts) :
    (Value.list vs).Inhabits (.list (.join ts)) := by
  refine ⟨vs, rfl, ?_⟩
  cases ts with
  | nil => exact fun _ _ => trivial
  | cons t ts =>
    simp only [Ty.join]
    split
    · next ha => exact h.of_all (by simpa using ha)
    · exact fun _ _ => trivial

end Value

open Eval (Fault)

/-! ## Operators -/

theorem UnaryOp.apply_inhabits {op : UnaryOp} {v : Value} (h : v.Inhabits op.ty) :
    ∃ u, op.apply v = .ok u ∧ u.Inhabits op.ty := by
  cases op with
  | negate =>
    obtain ⟨n, rfl⟩ := h
    exact ⟨.int (-n), rfl, -n, rfl⟩
  | not =>
    obtain ⟨b, rfl⟩ := h
    exact ⟨.bool (!b), rfl, !b, rfl⟩

namespace BinaryOp

theorem onInts_inhabits {op : BinaryOp} {t : Ty} (ht : op.result? .int .int = some t)
    (a b : Int64) :
    (∃ u, op.onInts a b = .ok u ∧ u.Inhabits t) ∨ op.onInts a b = .error .divisionByZero := by
  cases op with
  | div =>
    cases ht
    unfold onInts
    by_cases hb : b = 0
    · exact .inr (by simp [hb])
    · exact .inl ⟨.int (a / b), by simp [hb], a / b, rfl⟩
  | _ =>
    cases ht
    exact .inl ⟨_, rfl, _, rfl⟩

/-- Operands of types for which the operation has a type are both integers, or one of them is a
text, or the operator compares anything. -/
theorem operands_of_result? {op : BinaryOp} {l r t : Ty} (h : op.result? l r = some t) :
    (l = .int ∧ r = .int ∧ op ≠ .eq ∧ op ≠ .ne) ∨
      (op = .add ∧ (l = .string ∨ r = .string) ∧ t = .string) ∨
      ((op = .eq ∨ op = .ne) ∧ t = .bool) := by
  cases op with
  | add =>
    simp only [result?] at h
    split at h
    · next hs => cases h; exact .inr (.inl ⟨rfl, hs, rfl⟩)
    · split at h
      · next hi => exact .inl ⟨hi.1, hi.2, by simp⟩
      · cases h
  | eq => cases h; exact .inr (.inr ⟨.inl rfl, rfl⟩)
  | ne => cases h; exact .inr (.inr ⟨.inr rfl, rfl⟩)
  | _ =>
    simp only [result?] at h
    split at h
    · next hi => exact .inl ⟨hi.1, hi.2, by simp⟩
    · cases h

theorem leftOperand_ok {op : BinaryOp} {l r t : Ty} (ht : op.result? l r = some t) {v : Value}
    (hv : v.Inhabits l) : op.leftOperand v = .ok () := by
  rcases operands_of_result? ht with ⟨rfl, -, -⟩ | ⟨rfl, -⟩ | ⟨rfl | rfl, -⟩
  · obtain ⟨n, rfl⟩ := hv
    cases op <;> rfl
  · rfl
  · rfl
  · rfl

theorem apply_inhabits {op : BinaryOp} {l r t : Ty} (ht : op.result? l r = some t) {v w : Value}
    (hv : v.Inhabits l) (hw : w.Inhabits r) :
    (∃ u, op.apply v w = .ok u ∧ u.Inhabits t) ∨ op.apply v w = .error .divisionByZero := by
  rcases operands_of_result? ht with ⟨rfl, rfl, h1, h2⟩ | ⟨rfl, hs, rfl⟩ | ⟨rfl | rfl, rfl⟩
  · obtain ⟨a, rfl⟩ := hv
    obtain ⟨b, rfl⟩ := hw
    have h : op.apply (.int a) (.int b) = op.onInts a b := by
      cases op with
      | eq => exact absurd rfl h1
      | ne => exact absurd rfl h2
      | _ => rfl
    rw [h]
    exact onInts_inhabits ht a b
  · have h : (v.isStr || w.isStr) = true := by
      rcases hs with rfl | rfl
      · obtain ⟨s, rfl⟩ := hv
        rfl
      · obtain ⟨s, rfl⟩ := hw
        simp [Value.isStr]
    exact .inl ⟨.str (v.display ++ w.display), by simp [apply, h], _, rfl⟩
  · exact .inl ⟨_, rfl, _, rfl⟩
  · exact .inl ⟨_, rfl, _, rfl⟩

end BinaryOp

end CatScript
