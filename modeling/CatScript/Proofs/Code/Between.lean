import CatScript.Proofs.Code.Charts

/-!
# Between two statements

Between two statements the stack is empty, and what is known of the locals is how the variables
in sight are held and which slots hold the iterators of the loops around (`Layout.point`).
Storing a value in a variable keeps what is known of the others, because no two variables live
in one place (`store_charts`).

The code of a statement is charted with points that have the intended stacks (`Charted`).
-/
namespace CatScript

open Typing Code StackMachine

/-! ## Between statements -/

namespace Code.Layout

/-- How the variables in slots are held. -/
def kinds (L : Layout) : List (Nat × Kind) :=
  L.scopes.flatten.filterMap fun b => b.2.slot?.map fun n => (n, b.2.ty.kind)

/-- What is known between two statements, in loops with the given iterators. -/
def point (L : Layout) (iterators : List Nat) : Point := ⟨[], L.kinds, iterators, .nothing⟩

/-- The iterators are in slots that no variable has. -/
def Apart (L : Layout) (iterators : List Nat) : Prop :=
  ∀ n ∈ iterators, n < L.nextSlot ∧ n ∉ L.slots

variable {L K : Layout} {R : Rules} {result : Ty} {S : Scopes} {its : List Nat}

theorem mem_kinds {b : Nat × Kind} : b ∈ L.kinds ↔
    ∃ c ∈ L.scopes.flatten, c.2.storage = .slot b.1 ∧ c.2.ty.kind = b.2 := by
  simp only [kinds, List.mem_filterMap, Option.map_eq_some_iff]
  constructor
  · rintro ⟨c, hc, n, hn, rfl⟩
    refine ⟨c, hc, ?_, rfl⟩
    cases hs : c.2.storage <;> simp_all [Variable.slot?]
  · rintro ⟨c, hc, hs, hk⟩
    exact ⟨c, hc, b.1, by simp only [Variable.slot?, hs], by rw [hk]⟩

theorem slots_eq (L : Layout) : L.slots = L.kinds.map (·.1) := by
  rw [slots, kinds, List.map_filterMap, List.filterMap_flatten, List.flatMap_def]
  congr 2
  funext scope
  rw [slotsIn]
  congr 1
  funext b
  cases b.2.slot? <;> rfl

/-- A slot is held in one way. -/
theorem Placed.kinds_inj (h : L.Placed) {n : Nat} {k k' : Kind} (hk : (n, k) ∈ L.kinds)
    (hk' : (n, k') ∈ L.kinds) : k = k' := by
  have hd := h.distinct
  rw [slots_eq] at hd
  generalize L.kinds = kinds at hk hk' hd
  induction kinds with
  | nil => cases hk
  | cons b kinds ih =>
    simp only [List.map_cons, List.nodup_cons, List.mem_map, not_exists, not_and] at hd
    rcases List.mem_cons.1 hk with he | hm <;> rcases List.mem_cons.1 hk' with he' | hm'
    · exact congrArg Prod.snd (he.trans he'.symm)
    · subst he
      exact (hd.1 _ hm' rfl).elim
    · subst he'
      exact (hd.1 _ hm rfl).elim
    · exact ih hm hm' hd.2

theorem known_point (L : Layout) (its : List Nat) : L.Known (L.point its) :=
  fun b hb _ hs => mem_kinds.2 ⟨b, hb, hs, rfl⟩

theorem point_of_scopes (h : K.scopes = L.scopes) (its : List Nat) : K.point its = L.point its := by
  unfold point kinds
  rw [h]

theorem apart_nil (L : Layout) : L.Apart [] := nofun

theorem point_push (L : Layout) (its : List Nat) : L.push.point its = L.point its := rfl

theorem Apart.grows (h : L.Apart its) (hg : Grows L K) : K.Apart its := by
  intro n hn
  obtain ⟨hlt, hni⟩ := h n hn
  refine ⟨Nat.lt_of_lt_of_le hlt hg.nextSlot, fun hm => ?_⟩
  rcases hg.slots n hm with hm | hm
  · exact hni hm
  · omega

/-- Less is known behind a block: the variables of the block are gone. -/
theorem point_implies_pop (K : Layout) {its its' : List Nat} (hi : ∀ n ∈ its', n ∈ its) :
    (K.point its).Implies (K.pop.point its') := by
  refine ⟨rfl, fun b hb => ?_, hi, .inl rfl⟩
  obtain ⟨c, hc, hs, hk⟩ := mem_kinds.1 hb
  refine mem_kinds.2 ⟨c, ?_, hs, hk⟩
  unfold Layout.pop at hc
  split at hc
  · obtain ⟨scope, hscope, hm⟩ := List.mem_flatten.1 hc
    exact List.mem_flatten.2 ⟨scope, List.mem_of_mem_tail hscope, hm⟩
  · exact hc

end Code.Layout

namespace Typing

/-- The outermost scope has the types of the program's globals. -/
def Scopes.Shared (S : Scopes) (R : Rules) : Prop :=
  ∀ scope ∈ S.getLast?, ∀ x t, scope.find? x = some t → R.globals.find? x = some t

variable {R : Rules} {S : Scopes}

theorem Scopes.Shared.cons (h : S.Shared R) (hS : S ≠ []) (scope : Table Ty) :
    Scopes.Shared (scope :: S) R := by
  unfold Shared
  rw [List.getLast?_cons_of_ne_nil hS]
  exact h

theorem Scopes.Shared.extend {result : Ty} {s : Stmt} (h : S.Shared R) (ht : s.Typed R result S) :
    Scopes.Shared (s.extend S) R := by
  cases s with
  | declare n x t e =>
    obtain ⟨-, -, -, hx⟩ := ht
    match S with
    | [] => exact h
    | [scope] =>
      intro scope' hs y u hy
      cases hs
      simp only [List.getLast_singleton, Table.find?_insert] at hy
      split at hy
      · next he =>
        cases hy
        exact he ▸ hx rfl
      · exact h scope rfl y u hy
    | scope :: scope' :: scopes => exact h
  | _ => exact h

theorem Scopes.Shared.layout {result : Ty} {L : Layout} (h : S.Shared R) (hL : L.Sees R result S) :
    L.Shared R := by
  intro scope hs x v hv
  refine h (scope.mapValues Variable.ty) ?_ x v.ty ?_
  · rw [← hL.types, Layout.types, List.getLast?_map, Option.mem_def.1 hs]
    rfl
  · rw [Table.find?_mapValues, hv]
    rfl

end Typing

namespace Code

variable {R : Rules} {result : Ty} {H : Chart → Prop} {n : Nat} {L K : Layout} {its : List Nat}

/-- Storing a value of a variable's kind in the variable. -/
theorem store_charts {v : Variable}
    (hg : ∀ y, v.storage = .global y →
      R.globals.find? y = some v.ty ∧ ∀ b ∈ K.kinds, b ∈ L.kinds)
    (hs : ∀ m, v.storage = .slot m →
      m ∉ its ∧ ∀ b ∈ K.kinds, b = (m, v.ty.kind) ∨ b.1 ≠ m ∧ b ∈ L.kinds) :
    Charts R.world result H n [v.store] [some ((L.point its).having [v.ty.kind])]
      (some ((L.point its).having [v.ty.kind])) (some (K.point its)) := by
  unfold Variable.store
  cases hv : v.storage with
  | global y =>
    obtain ⟨hy, hk⟩ := hg y hv
    have h : Charts R.world result H n [.putGlobal y] [some ((L.point its).having [v.ty.kind])]
        (some ((L.point its).having [v.ty.kind])) (some ((L.point its).having [])) :=
      .plain fun _ _ h => ⟨v.ty, [], hy, rfl, h⟩
    exact h.weaken ⟨rfl, hk, fun _ h => h, .inl rfl⟩
  | slot m =>
    obtain ⟨hm, hk⟩ := hs m hv
    have h : Charts R.world result H n [.storeLocal m] [some ((L.point its).having [v.ty.kind])]
        (some ((L.point its).having [v.ty.kind]))
        (some (((L.point its).having [v.ty.kind]).stored m v.ty.kind [])) :=
      .plain fun _ _ h => ⟨v.ty.kind, [], rfl, h⟩
    refine h.weaken ⟨rfl, fun b hb => ?_, fun i hi => ?_, .inl rfl⟩
    · rcases hk b hb with rfl | ⟨hne, hb⟩
      · exact List.mem_cons_self ..
      · exact List.mem_cons_of_mem _ (List.mem_filter.2 ⟨hb, decide_eq_true hne⟩)
    · refine List.mem_append_right _ (List.mem_filter.2 ⟨hi, decide_eq_true ?_⟩)
      rintro rfl
      exact hm hi

theorem assign_charts (hp : L.Placed) (hg : L.Shared R) (ha : L.Apart its) {x : String}
    {v : Variable} (hv : L.find x = .ok v) :
    Charts R.world result H n [v.store] [some ((L.point its).having [v.ty.kind])]
      (some ((L.point its).having [v.ty.kind])) (some (L.point its)) := by
  refine store_charts (fun y hy => ⟨globals_of_find hp hg hv hy, fun _ h => h⟩) fun m hm => ?_
  have hk : (m, v.ty.kind) ∈ L.kinds := Layout.mem_kinds.2 ⟨_, mem_flatten_of_find hv, hm, rfl⟩
  refine ⟨fun hi => (ha m hi).2 (mem_slots_of_find hv hm), fun b hb => ?_⟩
  by_cases hbm : b.1 = m
  · subst hbm
    rw [hp.kinds_inj hk (show (b.1, b.2) ∈ L.kinds from hb)]
    exact .inl rfl
  · exact .inr ⟨hbm, hb⟩

theorem declare_charts (hp : L.Placed) (ha : L.Apart its) {x : String} {t : Ty}
    (hx : L.scopes.length = 1 → R.globals.find? x = some t) :
    Charts R.world result H n [(L.declare x t).1.store] [some ((L.point its).having [t.kind])]
      (some ((L.point its).having [t.kind])) (some ((L.declare x t).2.point its)) := by
  have hb := hp.bound
  rw [Layout.slots_eq] at hb
  obtain ⟨scope, scopes, hs⟩ := List.exists_cons_of_ne_nil hp.ne_nil
  by_cases hn : scopes = []
  · subst hn
    rw [Layout.declare_global hs hp]
    refine store_charts (v := ⟨.global x, t⟩) (fun y hy => ?_) nofun
    cases hy
    refine ⟨hx (by rw [hs]; rfl), fun b hb => ?_⟩
    obtain ⟨c, hc, hst, hk⟩ := Layout.mem_kinds.1 hb
    refine Layout.mem_kinds.2 ⟨c, ?_, hst, hk⟩
    simp only [List.flatten_cons, List.flatten_nil, List.append_nil, hs] at hc ⊢
    rcases Table.mem_of_mem_insert hc with rfl | hc
    · cases hst
    · exact hc
  · rw [Layout.declare_slot hs hn]
    refine store_charts (v := ⟨.slot L.nextSlot, t⟩) nofun fun m hm => ?_
    cases hm
    refine ⟨fun hi => Nat.lt_irrefl _ (ha _ hi).1, fun b hmem => ?_⟩
    obtain ⟨c, hc, hst, hk⟩ := Layout.mem_kinds.1 hmem
    rw [List.flatten_cons, List.mem_append] at hc
    have old (hc : c ∈ L.scopes.flatten) : b.1 ≠ L.nextSlot ∧ b ∈ L.kinds := by
      have hm := Layout.mem_kinds.2 ⟨c, hc, hst, hk⟩
      exact ⟨fun he => Nat.lt_irrefl _ (he ▸ hb b.1 (List.mem_map.2 ⟨b, hm, rfl⟩)), hm⟩
    rw [hs, List.flatten_cons] at old
    rcases hc with hc | hc
    · rcases Table.mem_of_mem_insert hc with rfl | hc
      · exact .inl (Prod.ext (Storage.slot.inj hst).symm hk.symm)
      · exact .inr (old (List.mem_append_left _ hc))
    · exact .inr (old (List.mem_append_right _ hc))

end Code

/-! ## Points and marks -/

/-- The points have the stacks of the marks. -/
def Marked : List (Option Point) → List Mark → Prop
  | [], [] => True
  | P :: points, m :: marks => (∀ Q, P = some Q → Q.stack = m.stack) ∧ Marked points marks
  | _, _ => False

theorem Marked.append {ps qs : List (Option Point)} {ms ns : List Mark} (h : Marked ps ms)
    (h' : Marked qs ns) : Marked (ps ++ qs) (ms ++ ns) := by
  induction ps generalizing ms with
  | nil =>
    cases ms with
    | nil => exact h'
    | cons m ms => exact h.elim
  | cons P ps ih =>
    cases ms with
    | nil => exact h.elim
    | cons m ms => exact ⟨h.1, ih h.2⟩

theorem Marked.mark {points : List (Option Point)} {marks : List Mark} (h : Marked points marks)
    {k : Nat} {P : Point} (hk : points[k]? = some (some P)) :
    ∃ m, marks[k]? = some m ∧ P.stack = m.stack := by
  induction points generalizing marks k with
  | nil => cases hk
  | cons Q points ih =>
    cases marks with
    | nil => exact h.elim
    | cons m marks =>
      cases k with
      | zero =>
        cases hk
        exact ⟨m, rfl, h.1 P rfl⟩
      | succ k => exact ih h.2 hk

theorem marked_single {P : Point} {m : Mark} (h : P.stack = m.stack) : Marked [some P] [m] :=
  ⟨fun _ hQ => Option.some.inj hQ ▸ h, trivial⟩

theorem marked_within (B : Point) (shapes : List (List Kind)) :
    Marked (shapes.map fun st => some (B.having st)) (Mark.within shapes) := by
  induction shapes with
  | nil => trivial
  | cons st shapes ih => exact ⟨fun _ hQ => Option.some.inj hQ ▸ rfl, ih⟩

theorem marked_opening (B : Point) (shapes : List (List Kind)) :
    Marked (shapes.map fun st => some (B.having st)) (Mark.opening shapes) := by
  cases shapes with
  | nil => trivial
  | cons st shapes => exact ⟨fun _ hQ => Option.some.inj hQ ▸ rfl, marked_within B shapes⟩

/-- Code that leads from `P` to `Q` as the marks say. -/
def Charted (R : Rules) (result : Ty) (n : Nat) (code : List Instruction) (marks : List Mark)
    (P Q : Option Point) : Prop :=
  ∃ points, Marked points marks ∧ Charts R.world result (fun _ => True) n code points P Q

namespace Charted

variable {R : Rules} {result : Ty} {n : Nat} {code code' : List Instruction}
  {marks marks' : List Mark} {P Q T : Option Point}

theorem nil (P : Option Point) : Charted R result n [] [] P P := ⟨[], trivial, .nil P⟩

theorem append (h : Charted R result n code marks P Q)
    (h' : Charted R result (n + code.length) code' marks' Q T) :
    Charted R result n (code ++ code') (marks ++ marks') P T := by
  obtain ⟨points, ha, hc⟩ := h
  obtain ⟨points', ha', hc'⟩ := h'
  exact ⟨points ++ points', ha.append ha', hc.append hc'⟩

/-- A statement of which every point is the one before it, but for the stack. -/
theorem of_shapes {B : Point} {shapes : List (List Kind)} {last : List Kind}
    (h : Shaped R.world result (fun _ => True) B n code shapes [] last) {i : Instruction}
    (hi : Charts R.world result (fun _ => True) (n + code.length) [i] [some (B.having last)]
      (some (B.having last)) Q) :
    Charted R result n (code ++ [i]) (Mark.opening (shapes ++ [last])) (some (B.having [])) Q := by
  refine ⟨_, marked_opening B (shapes ++ [last]), ?_⟩
  rw [List.map_append]
  exact Charts.append h hi

end Charted

/-- What is known behind code that always returns, or does not. -/
def behind (returns : Bool) (P : Point) : Option Point := if returns then none else some P

theorem Charted.of_behind {R : Rules} {result : Ty} {n : Nat} {code : List Instruction}
    {marks : List Mark} {P : Option Point} {Q : Point} {returns : Bool}
    (h : Charted R result n code marks P (behind returns Q)) :
    Charted R result n code marks P (some Q) := by
  obtain ⟨points, ha, hc⟩ := h
  refine ⟨points, ha, hc.length, fun A hA hf hl => hc.carries A hA hf ?_⟩
  cases returns with
  | true => trivial
  | false => exact hl

end CatScript
