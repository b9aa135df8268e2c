import CatScript.Proofs.Eval.Inhabits
import CatScript.Proofs.Eval.Watch

/-!
# Scenes that conform to scopes

A scene conforms to the scopes of a place in the program if its variables have the names and
types that the typing judgement has in sight there, and hold values of these types. Of the
globals only those that have been declared are in the scene, each with its type.
-/
namespace CatScript.Eval

open Typing

namespace Scene

/-- The names and types of the running call's variables. -/
def types (σ : Scene) : Scopes := σ.locals.map (Table.mapValues Binding.ty)

/-- Every variable of the scene holds a value of its type. -/
def Inhabited (σ : Scene) : Prop := ∀ b ∈ σ.bindings, b.value.Inhabits b.ty

structure Conforms (R : Rules) (S : Scopes) (σ : Scene) : Prop where
  scopes : ∃ outer, S = σ.types ++ [outer] ∧
    ∀ x t, outer.find? x = some t → R.globals.find? x = some t
  globals : ∀ x b, σ.globals.find? x = some b → R.globals.find? x = some b.ty
  inhabited : σ.Inhabited

variable {R : Rules} {S : Scopes} {σ τ : Scene}

theorem initial_conforms (R : Rules) : initial.Conforms R [[]] :=
  ⟨⟨[], rfl, by simp⟩, by simp [initial], by simp [Inhabited, bindings, initial]⟩

theorem mem_bindings {b : Binding} : b ∈ σ.bindings ↔
    (∃ x, (x, b) ∈ σ.locals.flatten) ∨ (∃ x, (x, b) ∈ σ.callers.flatten.flatten) ∨
      ∃ x, (x, b) ∈ σ.globals := by
  simp only [bindings, List.flatten_append, List.map_append, List.mem_append, List.mem_map,
    Prod.exists, exists_eq_right, List.flatten_singleton, or_assoc]

/-- A variable in sight holds a value of its type, if it has been declared. -/
theorem Conforms.find? (h : σ.Conforms R S) {x : String} {t : Ty}
    (hx : Table.findIn? x S = some t) {b : Binding} (hb : σ.find? x = some b) :
    b.ty = t ∧ b.value.Inhabits b.ty := by
  obtain ⟨outer, rfl, ho⟩ := h.scopes
  rw [Scene.find?, Table.findIn?_append] at hb
  rw [types, Table.findIn?_append, Table.findIn?_mapValues] at hx
  cases hf : Table.findIn? x σ.locals with
  | some c =>
    rw [hf] at hb hx
    cases hb
    cases hx
    exact ⟨rfl, h.inhabited b (mem_bindings.2 (.inl ⟨x, Table.mem_flatten_of_findIn? hf⟩))⟩
  | none =>
    rw [hf] at hb hx
    simp only [Option.map_none, Option.none_or, Table.findIn?_cons, Table.findIn?_nil,
      Option.or_none] at hb hx
    have hg := ho x t hx
    rw [h.globals x b hb, Option.some.injEq] at hg
    exact ⟨hg, h.inhabited b (mem_bindings.2 (.inr (.inr ⟨x, Table.mem_of_find? hb⟩)))⟩

/-! ## Scopes and calls -/

theorem Conforms.push (h : σ.Conforms R S) :
    Conforms R ([] :: S) { σ with locals := [] :: σ.locals } := by
  obtain ⟨⟨outer, rfl, ho⟩, hg, hi⟩ := h
  exact ⟨⟨outer, rfl, ho⟩, hg, by simpa [Inhabited, bindings] using hi⟩

theorem Conforms.pop {scope : Table Ty} (h : σ.Conforms R (scope :: S)) (hS : S ≠ []) :
    Conforms R S { σ with locals := σ.locals.tail } := by
  obtain ⟨⟨outer, hs, ho⟩, hg, hi⟩ := h
  cases hl : σ.locals with
  | nil => simp [types, hl, hS] at hs
  | cons inner locals =>
    simp only [types, hl, List.map_cons, List.cons_append, List.cons.injEq] at hs
    refine ⟨⟨outer, hs.2, ho⟩, hg, fun b hb => hi b ?_⟩
    rw [mem_bindings] at hb ⊢
    simp only [hl, List.flatten_cons, List.mem_append]
    exact hb.imp (Exists.imp fun _ => .inr) id

/-- Entering a call. -/
theorem Conforms.enter (h : σ.Conforms R S) {params : Table Binding}
    (hp : ∀ b ∈ params, b.2.value.Inhabits b.2.ty) :
    Conforms R [params.mapValues Binding.ty, R.globals]
      { σ with locals := [params], callers := σ.locals :: σ.callers } := by
  obtain ⟨-, hg, hi⟩ := h
  refine ⟨⟨R.globals, rfl, fun _ _ h => h⟩, hg, fun b hb => ?_⟩
  rw [mem_bindings] at hb
  simp only [List.flatten_cons, List.flatten_nil, List.append_nil, List.flatten_append,
    List.mem_append] at hb
  rcases hb with ⟨x, hb⟩ | ⟨x, hb | hb⟩ | hb
  · exact hp (x, b) hb
  · exact hi b (mem_bindings.2 (.inl ⟨x, hb⟩))
  · exact hi b (mem_bindings.2 (.inr (.inl ⟨x, hb⟩)))
  · exact hi b (mem_bindings.2 (.inr (.inr hb)))

/-- Going back to the scopes of the caller, with the globals that the call has left. -/
theorem Conforms.leave {S' : Scopes} (h : σ.Conforms R S) (h' : τ.Conforms R S') :
    Conforms R S { τ with locals := σ.locals, callers := σ.callers } := by
  refine ⟨h.scopes, h'.globals, fun b hb => ?_⟩
  rcases mem_bindings.1 hb with hb | hb | hb
  · exact h.inhabited b (mem_bindings.2 (.inl hb))
  · exact h.inhabited b (mem_bindings.2 (.inr (.inl hb)))
  · exact h'.inhabited b (mem_bindings.2 (.inr (.inr hb)))

theorem Conforms.print (h : σ.Conforms R S) (v : Value) :
    Conforms R S { σ with output := v.display :: σ.output } :=
  ⟨h.scopes, h.globals, h.inhabited⟩

/-! ## Stores -/

theorem Conforms.define (h : σ.Conforms R S) {x : String} {b : Binding}
    (hb : b.value.Inhabits b.ty) (hx : S.length = 1 → R.globals.find? x = some b.ty) :
    (σ.define x b).Conforms R (S.bind x b.ty) := by
  obtain ⟨⟨outer, rfl, ho⟩, hg, hi⟩ := h
  unfold Scene.define
  cases hl : σ.locals with
  | nil =>
    have hx := hx (by simp [types, hl])
    refine ⟨⟨outer.insert x b.ty, by simp [types, hl, Scopes.bind], ?_⟩, ?_, fun c hc => ?_⟩
    · intro y t hy
      rw [Table.find?_insert] at hy
      split at hy
      · next he => cases hy; rw [he]; exact hx
      · exact ho y t hy
    · intro y c hy
      rw [Table.find?_insert] at hy
      split at hy
      · next he => cases hy; rw [he]; exact hx
      · exact hg y c hy
    · rcases mem_bindings.1 hc with hc | hc | ⟨y, hc⟩
      · exact hi c (mem_bindings.2 (.inl (by rw [hl]; exact hc)))
      · exact hi c (mem_bindings.2 (.inr (.inl hc)))
      · rcases Table.mem_of_mem_insert hc with he | hc
        · cases he; exact hb
        · exact hi c (mem_bindings.2 (.inr (.inr ⟨y, hc⟩)))
  | cons scope scopes =>
    refine ⟨⟨outer, by simp [types, hl, Scopes.bind], ho⟩, hg, fun c hc => ?_⟩
    rcases mem_bindings.1 hc with ⟨y, hc⟩ | hc | hc
    · rw [List.flatten_cons, List.mem_append] at hc
      rcases hc with hc | hc
      · rcases Table.mem_of_mem_insert hc with he | hc
        · cases he; exact hb
        · exact hi c (mem_bindings.2 (.inl ⟨y, by rw [hl]; simp [hc]⟩))
      · exact hi c (mem_bindings.2 (.inl ⟨y, by rw [hl, List.flatten_cons]; simp [hc]⟩))
    · exact hi c (mem_bindings.2 (.inr (.inl hc)))
    · exact hi c (mem_bindings.2 (.inr (.inr hc)))

/-- Assigning a value of the type of the variable that a look-up finds. -/
theorem Conforms.assign (h : σ.Conforms R S) {x : String} {b c : Binding}
    (hf : σ.find? x = some b) (hty : c.ty = b.ty) (hc : c.value.Inhabits c.ty)
    (ha : σ.assign? x c = some τ) : τ.Conforms R S := by
  obtain ⟨⟨outer, rfl, ho⟩, hg, hi⟩ := h
  rw [Scene.find?, Table.findIn?_append] at hf
  unfold Scene.assign? at ha
  split at ha
  · next locals hl =>
    cases ha
    have hsome : Table.findIn? x σ.locals = some b := by
      have := Table.isSome_assignIn? x c σ.locals
      rw [hl] at this
      cases hn : Table.findIn? x σ.locals with
      | none => rw [hn] at this; cases this
      | some d => rw [hn] at hf; exact hf
    have htypes : locals.map (Table.mapValues Binding.ty) = σ.types := by
      have h1 := Table.assignIn?_mapValues Binding.ty x c σ.locals
      have h2 : Table.findIn? x σ.types = some c.ty := by
        rw [types, Table.findIn?_mapValues, hsome, hty]
        rfl
      rw [hl, Option.map_some] at h1
      have h3 := Table.assignIn?_findIn? h2
      rw [types] at h3 ⊢
      rw [h3] at h1
      exact (Option.some.inj h1).symm
    refine ⟨⟨outer, by simp only [types, htypes], ho⟩, hg, fun d hd => ?_⟩
    rcases mem_bindings.1 hd with ⟨y, hd⟩ | hd | hd
    · rcases Table.mem_of_mem_assignIn? hl hd with he | hd
      · cases he; exact hc
      · exact hi d (mem_bindings.2 (.inl ⟨y, hd⟩))
    · exact hi d (mem_bindings.2 (.inr (.inl hd)))
    · exact hi d (mem_bindings.2 (.inr (.inr hd)))
  · next hl =>
    split at ha
    · cases ha
      have hnone : Table.findIn? x σ.locals = none := by
        have := Table.isSome_assignIn? x c σ.locals
        rw [hl] at this
        exact Option.not_isSome_iff_eq_none.1 (by rw [← this]; simp)
      rw [hnone] at hf
      simp only [Option.none_or, Table.findIn?_cons, Table.findIn?_nil, Option.or_none] at hf
      refine ⟨⟨outer, rfl, ho⟩, fun y d hy => ?_, fun d hd => ?_⟩
      · rw [Table.find?_insert] at hy
        split at hy
        · next he => cases hy; rw [he, hty]; exact hg x b hf
        · exact hg y d hy
      · rcases mem_bindings.1 hd with hd | hd | ⟨y, hd⟩
        · exact hi d (mem_bindings.2 (.inl hd))
        · exact hi d (mem_bindings.2 (.inr (.inl hd)))
        · rcases Table.mem_of_mem_insert hd with he | hd
          · cases he; exact hc
          · exact hi d (mem_bindings.2 (.inr (.inr ⟨y, hd⟩)))
    · cases ha

end Scene

end CatScript.Eval
