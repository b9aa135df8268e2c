import CatScript.Proofs.Typing.Judgement

/-!
# Layouts of well-typed places

A layout knows the variables of a place in the program with their types and with where they
live. `Layout.Sees` says that it knows the same names under the same types as the typing
judgement, and `Layout.Placed` that no two variables live in one place: every scope but the
last has slots of its own below `nextSlot`, and the last has the globals under their names.

Lowering a statement changes a layout as `Layout.Grows` says: the innermost scope may have
more names, the scopes around it are the same, and slots are only ever taken.
-/
namespace CatScript

namespace Code

open Typing

theorem bind_eq_ok {ε α β : Type} {x : Except ε α} {f : α → Except ε β} {b : β} :
    (x >>= f) = .ok b ↔ ∃ a, x = .ok a ∧ f a = .ok b := by
  constructor
  · intro h
    cases x with
    | error e => cases h
    | ok a => exact ⟨a, rfl, h⟩
  · rintro ⟨a, rfl, h⟩
    exact h

def Variable.slot? (v : Variable) : Option Nat :=
  match v.storage with
  | .global _ => none
  | .slot n => some n

/-- The slots of the variables in a scope. -/
def slotsIn (scope : Table Variable) : List Nat := scope.filterMap fun b => b.2.slot?

namespace Layout

def types (L : Layout) : Scopes := L.scopes.map (Table.mapValues Variable.ty)

/-- The slots of all variables in sight. -/
def slots (L : Layout) : List Nat := L.scopes.flatMap slotsIn

/-- The layout has the names and types of a place with scopes `S`. -/
structure Sees (L : Layout) (R : Rules) (result : Ty) (S : Scopes) : Prop where
  functions : L.functions = R.functions
  result : L.result = result
  types : L.types = S

/-- The variables of the layout live in different places. -/
structure Placed (L : Layout) : Prop where
  ne_nil : L.scopes ≠ []
  nested : L.inFunction = true → 2 ≤ L.scopes.length
  inner : ∀ scope ∈ L.scopes.dropLast, ∀ b ∈ scope, ∃ n, b.2.storage = .slot n
  outer : ∀ scope ∈ L.scopes.getLast?, ∀ b ∈ scope, b.2.storage = .global b.1
  bound : ∀ n ∈ L.slots, n < L.nextSlot
  distinct : L.slots.Nodup

/-- `K` comes from `L` by declarations in the innermost scope and by taking slots. -/
structure Grows (L K : Layout) : Prop where
  functions : K.functions = L.functions
  result : K.result = L.result
  inFunction : K.inFunction = L.inFunction
  length : K.scopes.length = L.scopes.length
  outer : K.scopes.tail = L.scopes.tail
  nextSlot : L.nextSlot ≤ K.nextSlot
  slots : ∀ n ∈ K.slots, n ∈ L.slots ∨ L.nextSlot ≤ n

variable {L K M : Layout} {R : Rules} {result : Ty} {S : Scopes}

theorem find_eq_ok {x : String} {v : Variable} :
    L.find x = .ok v ↔ Table.findIn? x L.scopes = some v := by
  unfold find
  split <;> simp_all

/-- A variable in sight has a slot if an inner scope has it, and is the global of its name if the
outermost has. -/
theorem Placed.find (hp : L.Placed) {x : String} {v : Variable} (h : L.find x = .ok v) :
    (∃ n, v.storage = .slot n ∧ Table.findIn? x L.scopes.dropLast = some v) ∨
    (v.storage = .global x ∧ Table.findIn? x L.scopes.dropLast = none ∧
      ∃ scope ∈ L.scopes.getLast?, scope.find? x = some v) := by
  have hl := List.getLast?_eq_some_getLast hp.ne_nil
  rw [find_eq_ok, ← List.dropLast_concat_getLast hp.ne_nil, Table.findIn?_append] at h
  cases hi : Table.findIn? x L.scopes.dropLast with
  | some w =>
    rw [hi, Option.some_or, Option.some.injEq] at h
    subst h
    obtain ⟨scope, hs, hb⟩ := List.mem_flatten.1 (Table.mem_flatten_of_findIn? hi)
    obtain ⟨n, hn⟩ := hp.inner scope hs _ hb
    exact .inl ⟨n, hn, rfl⟩
  | none =>
    rw [hi, Option.none_or, Table.findIn?_cons, Table.findIn?_nil, Option.or_none] at h
    exact .inr ⟨hp.outer _ hl _ (Table.mem_of_find? h), rfl, _, hl, h⟩

theorem findFunction_eq_ok {symbol : String} {s : Signature} :
    L.findFunction symbol = .ok s ↔ L.functions.find? symbol = some s := by
  unfold findFunction
  split <;> simp_all

/-- A variable in sight is found, with its type. -/
theorem Sees.find (h : L.Sees R result S) {x : String} {t : Ty}
    (hx : Table.findIn? x S = some t) : ∃ v, L.find x = .ok v ∧ v.ty = t := by
  rw [← h.types, Layout.types, Table.findIn?_mapValues, Option.map_eq_some_iff] at hx
  obtain ⟨v, hv, ht⟩ := hx
  exact ⟨v, find_eq_ok.2 hv, ht⟩

theorem Sees.ty (h : L.Sees R result S) {x : String} {v : Variable} (hv : L.find x = .ok v) :
    Table.findIn? x S = some v.ty := by
  rw [← h.types, Layout.types, Table.findIn?_mapValues, find_eq_ok.1 hv]
  rfl

theorem Sees.ne_nil (h : L.Sees R result S) (hp : L.Placed) : S ≠ [] := by
  rw [← h.types, Layout.types]
  simpa using hp.ne_nil

/-! ## Growth -/

theorem slots_of_scopes (hs : K.scopes = L.scopes) : K.slots = L.slots := by
  unfold slots
  rw [hs]

@[simp] theorem nextSlot_pop (L : Layout) : L.pop.nextSlot = L.nextSlot := by
  unfold pop
  split <;> rfl

namespace Grows

theorem refl (L : Layout) : Grows L L := ⟨rfl, rfl, rfl, rfl, rfl, Nat.le_refl _, fun _ h => .inl h⟩

theorem trans (h : Grows L K) (h' : Grows K M) : Grows L M := by
  refine ⟨h'.functions.trans h.functions, h'.result.trans h.result, h'.inFunction.trans h.inFunction,
    h'.length.trans h.length, h'.outer.trans h.outer, Nat.le_trans h.nextSlot h'.nextSlot, ?_⟩
  intro n hn
  rcases h'.slots n hn with hn | hn
  · exact h.slots n hn
  · exact .inr (Nat.le_trans h.nextSlot hn)

theorem ne_nil (h : Grows L K) (hL : L.scopes ≠ []) : K.scopes ≠ [] := by
  rw [← List.length_pos_iff, h.length]
  exact List.length_pos_iff.2 hL

/-- A scope opened in `L` is gone when it has been left. -/
theorem scopes_pop (h : Grows L.push K) (hL : L.scopes ≠ []) : K.pop.scopes = L.scopes := by
  have hl : K.scopes.length > 1 := by
    rw [h.length]
    have := List.length_pos_iff.2 hL
    simp only [Layout.push, List.length_cons]
    omega
  unfold Layout.pop
  rw [if_pos hl]
  exact h.outer

theorem pop (h : Grows L.push K) (hL : L.scopes ≠ []) : Grows L K.pop := by
  have hs := h.scopes_pop hL
  have hk : K.pop.functions = K.functions ∧ K.pop.result = K.result ∧
      K.pop.inFunction = K.inFunction := by
    unfold Layout.pop
    split <;> exact ⟨rfl, rfl, rfl⟩
  obtain ⟨h1, h2, h3⟩ := hk
  exact ⟨h1.trans h.functions, h2.trans h.result, h3.trans h.inFunction, by rw [hs], by rw [hs],
    nextSlot_pop K ▸ h.nextSlot, fun n hn => .inl (slots_of_scopes hs ▸ hn)⟩

end Grows

theorem Sees.of_scopes (h : L.Sees R result S) (hg : Grows L K) (hs : K.scopes = L.scopes) :
    K.Sees R result S :=
  ⟨hg.functions.trans h.functions, hg.result.trans h.result, by
    rw [Layout.types, hs]; exact h.types⟩

theorem Placed.of_scopes (h : L.Placed) (hg : Grows L K) (hs : K.scopes = L.scopes) : K.Placed := by
  obtain ⟨h1, h2, h3, h4, h5, h6⟩ := h
  have hslots := slots_of_scopes hs
  refine ⟨hs ▸ h1, ?_, hs ▸ h3, hs ▸ h4, ?_, hslots ▸ h6⟩
  · rw [hs, hg.inFunction]
    exact h2
  · intro n hn
    exact Nat.lt_of_lt_of_le (h5 n (hslots ▸ hn)) hg.nextSlot

/-! ## Opening a scope and taking a slot -/

theorem Sees.push (h : L.Sees R result S) : L.push.Sees R result ([] :: S) :=
  ⟨h.functions, h.result, by
    have := h.types
    simp only [Layout.types, Layout.push, List.map_cons, Table.mapValues_nil] at this ⊢
    rw [this]⟩

theorem Placed.push (h : L.Placed) : L.push.Placed := by
  obtain ⟨scope, scopes, hs⟩ := List.exists_cons_of_ne_nil h.ne_nil
  have hl : L.push.slots = L.slots := by simp [slots, Layout.push, slotsIn]
  obtain ⟨-, h2, h3, h4, h5, h6⟩ := h
  rw [hs] at h2 h3 h4
  refine ⟨by simp [Layout.push], ?_, ?_, ?_, hl ▸ h5, hl ▸ h6⟩
  · simp only [Layout.push, List.length_cons, hs] at h2 ⊢
    omega
  · simpa [Layout.push, hs, List.dropLast_cons_of_ne_nil] using h3
  · simpa [Layout.push, hs, List.getLast?_cons_cons] using h4

theorem allocate_grows (L : Layout) : Grows L L.allocate.2 :=
  ⟨rfl, rfl, rfl, rfl, rfl, Nat.le_succ _, fun _ h => .inl h⟩

/-! ## Declaring a variable -/

/-- A variable that is not global gets the next slot. -/
theorem declare_slot {scope : Table Variable} {scopes : List (Table Variable)}
    (hs : L.scopes = scope :: scopes) (hn : scopes ≠ []) (x : String) (t : Ty) :
    L.declare x t = (⟨.slot L.nextSlot, t⟩,
      { L with
        nextSlot := L.nextSlot + 1
        scopes := scope.insert x ⟨.slot L.nextSlot, t⟩ :: scopes }) := by
  have hl := List.length_pos_iff.2 hn
  have hc : ¬(L.inFunction = false ∧ L.scopes.length = 1) := by
    rw [hs, List.length_cons]
    omega
  unfold declare
  rw [if_neg hc]
  simp only [allocate, bind, hs]

/-- A variable of the outermost scope of the main method is global. -/
theorem declare_global {scope : Table Variable} (hs : L.scopes = [scope]) (hp : L.Placed)
    (x : String) (t : Ty) :
    L.declare x t = (⟨.global x, t⟩, { L with scopes := [scope.insert x ⟨.global x, t⟩] }) := by
  have hc : L.inFunction = false ∧ L.scopes.length = 1 := by
    refine ⟨?_, by simp [hs]⟩
    cases h : L.inFunction with
    | false => rfl
    | true => have := hp.nested h; simp [hs] at this
  unfold declare
  rw [if_pos hc]
  simp only [bind, hs]

theorem slotsIn_insert_slot {scope : Table Variable} {x : String} (h : scope.find? x = none)
    (n : Nat) (t : Ty) : slotsIn (scope.insert x ⟨.slot n, t⟩) = slotsIn scope ++ [n] := by
  simp [Table.insert_of_find?_none h, slotsIn, Variable.slot?]

theorem slotsIn_insert_global {scope : Table Variable} {x : String} (h : scope.find? x = none)
    (t : Ty) : slotsIn (scope.insert x ⟨.global x, t⟩) = slotsIn scope := by
  simp [Table.insert_of_find?_none h, slotsIn, Variable.slot?]

/-- A name bound anew in a scope adds at most the slot of its variable. -/
theorem mem_slotsIn_insert {scope : Table Variable} {x : String} {v : Variable} {n : Nat}
    (h : n ∈ slotsIn (scope.insert x v)) : n ∈ slotsIn scope ∨ v.slot? = some n := by
  obtain ⟨b, hb, hn⟩ := List.mem_filterMap.1 h
  rcases Table.mem_of_mem_insert hb with rfl | hb
  · exact .inr hn
  · exact .inl (List.mem_filterMap.2 ⟨b, hb, hn⟩)

theorem declare_grows (hL : L.scopes ≠ []) (x : String) (t : Ty) : Grows L (L.declare x t).2 := by
  obtain ⟨scope, scopes, hs⟩ := List.exists_cons_of_ne_nil hL
  unfold declare
  split
  · simp only [bind, hs]
    refine ⟨rfl, rfl, rfl, by simp [hs], by simp [hs], Nat.le_refl _, fun n hm => .inl ?_⟩
    simp only [slots, hs, List.flatMap_cons, List.mem_append] at hm ⊢
    exact hm.imp_left fun hm => (mem_slotsIn_insert hm).resolve_right (by simp [Variable.slot?])
  · simp only [allocate, bind, hs]
    refine ⟨rfl, rfl, rfl, by simp [hs], by simp [hs], Nat.le_succ _, fun n hm => ?_⟩
    simp only [slots, hs, List.flatMap_cons, List.mem_append] at hm ⊢
    rcases hm with hm | hm
    · rcases mem_slotsIn_insert hm with hm | hm
      · exact .inl (.inl hm)
      · cases hm
        exact .inr (Nat.le_refl _)
    · exact .inl (.inr hm)

theorem Sees.declare (h : L.Sees R result S) (hp : L.Placed) (x : String) (t : Ty) :
    (L.declare x t).2.Sees R result (S.bind x t) := by
  have hg := declare_grows hp.ne_nil x t
  refine ⟨hg.functions.trans h.functions, hg.result.trans h.result, ?_⟩
  obtain ⟨scope, scopes, hs⟩ := List.exists_cons_of_ne_nil hp.ne_nil
  have ht := h.types
  rw [Layout.types, hs] at ht
  subst ht
  by_cases hn : scopes = []
  · subst hn
    simp [declare_global hs hp, Layout.types, Scopes.bind]
  · simp [declare_slot hs hn, Layout.types, Scopes.bind]

theorem Placed.declare (hp : L.Placed) {x : String} (t : Ty)
    (hx : ∀ scope ∈ L.scopes.head?, scope.find? x = none) : (L.declare x t).2.Placed := by
  obtain ⟨scope, scopes, hs⟩ := List.exists_cons_of_ne_nil hp.ne_nil
  have hf : scope.find? x = none := hx scope (by simp [hs])
  obtain ⟨-, h2, h3, h4, h5, h6⟩ := id hp
  simp only [slots, hs, List.flatMap_cons] at h2 h3 h4 h5 h6
  by_cases hn : scopes = []
  · subst hn
    rw [declare_global hs hp]
    refine ⟨by simp, h2, by simp, ?_, ?_, ?_⟩
    · simp only [List.getLast?_singleton, Option.mem_some_iff, forall_eq'] at h4 ⊢
      intro b hb
      rcases Table.mem_of_mem_insert hb with rfl | hb
      · rfl
      · exact h4 b hb
    · simpa only [slots, List.flatMap_cons, slotsIn_insert_global hf] using h5
    · simpa only [slots, List.flatMap_cons, slotsIn_insert_global hf] using h6
  · rw [declare_slot hs hn]
    refine ⟨by simp, h2, ?_, ?_, ?_, ?_⟩
    · rw [List.dropLast_cons_of_ne_nil hn] at h3 ⊢
      simp only [List.mem_cons, forall_eq_or_imp] at h3 ⊢
      refine ⟨fun b hb => ?_, h3.2⟩
      rcases Table.mem_of_mem_insert hb with rfl | hb
      · exact ⟨_, rfl⟩
      · exact h3.1 b hb
    · rw [List.getLast?_cons_of_ne_nil hn] at h4 ⊢
      exact h4
    · simp only [slots, List.flatMap_cons, slotsIn_insert_slot hf, List.mem_append,
        List.mem_singleton] at h5 ⊢
      rintro n ((hm | rfl) | hm)
      · exact Nat.lt_succ_of_lt (h5 n (.inl hm))
      · exact Nat.lt_succ_self _
      · exact Nat.lt_succ_of_lt (h5 n (.inr hm))
    · simp only [slots, List.flatMap_cons, slotsIn_insert_slot hf]
      have hperm : (L.nextSlot :: (slotsIn scope ++ scopes.flatMap slotsIn)).Perm
          (slotsIn scope ++ [L.nextSlot] ++ scopes.flatMap slotsIn) := by
        rw [List.append_assoc]
        exact List.perm_middle.symm
      refine hperm.nodup (List.nodup_cons.2 ⟨fun hm => ?_, h6⟩)
      exact Nat.lt_irrefl _ (h5 _ hm)

end Layout

end Code

end CatScript
