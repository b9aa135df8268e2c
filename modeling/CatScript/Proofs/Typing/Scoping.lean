import CatScript.Proofs.Typing.Judgement

/-!
# How checking changes a context

Checking a statement leaves every scope but the innermost as it was, and the innermost one can
only gain names. So each scope that a loop, a branch or a function opens is gone behind it, and
only a declaration is seen by the statements that follow (`Stmt.check_scopes`).

The second part reads off a context the variables in sight, as the typing judgement has them:
functions are left out, and inside a function the global scope is replaced by that of the
whole program.
-/
namespace CatScript.Typing

namespace Context

/-- `Δ` has the scopes of `Γ`, of which the innermost may bind more names. -/
structure Grows (Γ Δ : Context) : Prop where
  base : Δ.base = Γ.base
  results : Δ.results = Γ.results
  outer : Δ.outer = Γ.outer
  inner : ∀ x e, Γ.inner.find? x = some e → Δ.inner.find? x = some e

theorem scopes_push (Γ : Context) : Γ.push.scopes = [] :: Γ.scopes := rfl

theorem scopes_enter (Γ : Context) (result : Ty) :
    (Γ.enter result).scopes = [] :: Γ.scopes := rfl

theorem scopes_pop {Γ Δ : Context} (h : Δ.outer = Γ.scopes) : Δ.pop.scopes = Γ.scopes := by
  unfold pop
  rw [h]
  rfl

@[simp] theorem base_pop (Γ : Context) : Γ.pop.base = Γ.base := by
  unfold pop
  split <;> rfl

@[simp] theorem results_pop (Γ : Context) : Γ.pop.results = Γ.results := by
  unfold pop
  split <;> rfl

namespace Grows

variable {Γ Δ Θ : Context}

theorem refl (Γ : Context) : Grows Γ Γ := ⟨rfl, rfl, rfl, fun _ _ h => h⟩

theorem trans (h : Grows Γ Δ) (h' : Grows Δ Θ) : Grows Γ Θ :=
  ⟨h'.base.trans h.base, h'.results.trans h.results, h'.outer.trans h.outer,
    fun x e hx => h'.inner x e (h.inner x e hx)⟩

theorem length (h : Grows Γ Δ) : Δ.scopes.length = Γ.scopes.length := by
  simp only [scopes, h.outer, List.length_cons]

/-- A scope opened in `Γ` is gone when it has been left. -/
theorem pop (h : Grows Γ.push Δ) :
    Δ.pop.scopes = Γ.scopes ∧ Δ.pop.base = Γ.base ∧ Δ.pop.results = Γ.results :=
  ⟨scopes_pop h.outer, (base_pop Δ).trans h.base, (results_pop Δ).trans h.results⟩

/-- So is a function that was entered from `Γ`. -/
theorem leave {result : Ty} (h : Grows (Γ.enter result) Δ) :
    (Δ.leave Γ).scopes = Γ.scopes ∧ (Δ.leave Γ).base = Γ.base ∧
      (Δ.leave Γ).results = Γ.results := by
  refine ⟨scopes_pop (Γ := Γ) h.outer, rfl, ?_⟩
  simp only [Context.leave, h.results, enter, List.tail_cons]

end Grows

/-- A successful declaration binds a new name in the innermost scope. -/
theorem declare_eq {Γ Δ : Context} {name : String} {entity : Entity} {span : Span}
    (h : Γ.declare name entity span = .ok Δ) :
    Γ.inner.find? name = none ∧ Δ = { Γ with inner := Γ.inner.insert name entity } := by
  unfold declare at h
  split at h
  · cases h
  · next hc =>
    cases h
    exact ⟨Table.contains_eq_false.1 (by simpa using hc), rfl⟩

theorem declare_error {Γ : Context} {name : String} {entity : Entity} {span : Span}
    {d : Diagnostic} (h : Γ.declare name entity span = .error d) :
    d = (Cause.duplicateName name).at span := by
  unfold declare at h
  split at h
  · cases h
    rfl
  · cases h

theorem declare_grows {Γ Δ : Context} {name : String} {entity : Entity} {span : Span}
    (h : Γ.declare name entity span = .ok Δ) : Grows Γ Δ := by
  obtain ⟨hn, rfl⟩ := declare_eq h
  refine ⟨rfl, rfl, rfl, fun x e hx => ?_⟩
  rw [Table.find?_insert_of_ne _ (by rintro rfl; simp [hn] at hx)]
  exact hx

end Context

open Context

theorem bind_grows (Γ : Context) (name : String) (ty : Ty) (span : Span) :
    Grows Γ (bind Γ name ty span).2 := by
  unfold bind
  split
  · next h => exact declare_grows h
  · exact .refl Γ

theorem bindAll_grows (Γ : Context) (span : Span) (ps : List Param) :
    Grows Γ (bindAll Γ span ps).2 := by
  induction ps generalizing Γ with
  | nil => exact .refl Γ
  | cons p ps ih => exact (bind_grows Γ p.name p.ty span).trans (ih _)

theorem hoistOne_grows (Γ : Context) (s : Stmt) : Grows Γ (hoistOne Γ s).2 := by
  unfold hoistOne
  split
  · next n h _ =>
    split
    · next symbol Δ hd =>
      simp only [declareFunction] at hd
      split at hd
      · cases hd
      · next Δ' hΔ =>
        cases hd
        obtain ⟨hb, hr, ho, hi⟩ := declare_grows hΔ
        exact ⟨hb, hr, ho, hi⟩
    · exact .refl Γ
  · exact .refl Γ

theorem hoist_grows (Γ : Context) (ss : List Stmt) : Grows Γ (hoist Γ ss).2 := by
  induction ss generalizing Γ with
  | nil => exact .refl Γ
  | cons s ss ih => exact (hoistOne_grows Γ s).trans (ih _)

end CatScript.Typing

namespace CatScript

namespace Stmt

open Typing Context

/-! ## Statements -/

/-- A context with the scopes of `Γ`, whatever functions have been counted since. -/
private theorem grows_of_eq {Γ Δ : Context}
    (h : Δ.scopes = Γ.scopes ∧ Δ.base = Γ.base ∧ Δ.results = Γ.results) : Grows Γ Δ := by
  obtain ⟨hs, hb, hr⟩ := h
  obtain ⟨hinner, houter⟩ := List.cons.inj hs
  exact ⟨hb, hr, houter, fun x e hx => hinner ▸ hx⟩

private theorem checkBlock_grows_of {body : List Stmt} (Γ : Context)
    (h : ∀ (Δ : Context) slots, Grows Δ (checkAll Δ slots body).2) :
    Grows Γ (checkBlock Γ body).2 :=
  (hoist_grows Γ body).trans (h _ _)

mutual

theorem check_grows (Γ : Context) (slot : Hoisted) : (s : Stmt) → Grows Γ (s.check Γ slot).2
  | print _ _ | call _ _ | assign _ _ _ | ret _ none | ret _ (some _) | invalid _ _ => by
    simp only [check]; exact .refl Γ
  | declare n x t e => by
    simp only [check]; exact bind_grows ..
  | forEach n x e body => by
    have hb := bind_grows Γ.push x (loopTyping (e.check Γ)).1 n.span
    have hi := hb.trans (checkBlock_grows_of _ fun Δ slots => checkAll_grows Δ slots body)
    exact grows_of_eq hi.pop
  | cond n e yes none => by
    have hi := checkBlock_grows_of Γ.push fun Δ slots => checkAll_grows Δ slots yes
    exact grows_of_eq hi.pop
  | cond n e yes (some no) => by
    have hi := checkBlock_grows_of Γ.push fun Δ slots => checkAll_grows Δ slots yes
    have hi' := checkBlock_grows_of (checkBlock Γ.push yes).2.pop.push
      fun Δ slots => checkAll_grows Δ slots no
    exact (grows_of_eq hi.pop).trans (grows_of_eq hi'.pop)
  | define n h body => by
    have hb := bindAll_grows (Γ.enter h.resultTy) n.span h.params
    have hi := hb.trans (checkBlock_grows_of _ fun Δ slots => checkAll_grows Δ slots body)
    exact grows_of_eq hi.leave

theorem checkAll_grows (Γ : Context) (slots : List Hoisted) :
    (ss : List Stmt) → Grows Γ (checkAll Γ slots ss).2
  | [] => by simp only [checkAll]; exact .refl Γ
  | s :: ss => (check_grows Γ (slots.head?.getD .nothing) s).trans (checkAll_grows _ slots.tail ss)

end

theorem checkBlock_grows (Γ : Context) (body : List Stmt) : Grows Γ (checkBlock Γ body).2 :=
  checkBlock_grows_of Γ fun Δ slots => checkAll_grows Δ slots body

/-- Only a declaration changes the scopes for the statements behind it. -/
theorem check_scopes (Γ : Context) (slot : Hoisted) (s : Stmt)
    (hs : ∀ n x t e, s ≠ declare n x t e) : (s.check Γ slot).2.scopes = Γ.scopes := by
  cases s with
  | declare n x t e => exact absurd rfl (hs n x t e)
  | forEach n x e body =>
    have hb := bind_grows Γ.push x (loopTyping (e.check Γ)).1 n.span
    exact (hb.trans (checkBlock_grows _ body)).pop.1
  | cond n e yes no =>
    have hy := (checkBlock_grows Γ.push yes).pop
    cases no with
    | none => exact hy.1
    | some no => exact (checkBlock_grows _ no).pop.1.trans hy.1
  | define n h body =>
    have hb := bindAll_grows (Γ.enter h.resultTy) n.span h.params
    exact (hb.trans (checkBlock_grows _ body)).leave.1
  | ret n e => cases e <;> simp only [check]
  | _ => simp only [check]

end Stmt

/-! ## Variables in sight -/

namespace Typing

/-- The variables of a scope. -/
def vars : Table Entity → Table Ty
  | [] => []
  | (x, .variable t) :: scope => (x, t) :: vars scope
  | (_, .function _) :: scope => vars scope

theorem vars_append (a b : Table Entity) : vars (a ++ b) = vars a ++ vars b := by
  induction a with
  | nil => rfl
  | cons entry a ih => obtain ⟨x, _ | _⟩ := entry <;> simp [vars, ih]

theorem find?_vars {scope : Table Entity} {x : String} {t : Ty}
    (h : scope.find? x = some (.variable t)) : (vars scope).find? x = some t := by
  induction scope with
  | nil => cases h
  | cons entry scope ih =>
    obtain ⟨k, entity⟩ := entry
    by_cases hk : k = x
    · simp only [Table.find?, hk, if_true, Option.some.injEq] at h
      simp [h, vars, Table.find?, hk]
    · simp only [Table.find?, hk, if_false] at h
      cases entity <;> simp [vars, Table.find?, hk, ih h]

theorem find?_vars_none {scope : Table Entity} {x : String} (h : scope.find? x = none) :
    (vars scope).find? x = none := by
  induction scope with
  | nil => rfl
  | cons entry scope ih =>
    obtain ⟨k, entity⟩ := entry
    by_cases hk : k = x
    · simp [Table.find?, hk] at h
    · simp only [Table.find?, hk, if_false] at h
      cases entity <;> simp [vars, Table.find?, hk, ih h]

theorem vars_insert_variable {scope : Table Entity} {x : String}
    (h : scope.find? x = none) (t : Ty) :
    vars (scope.insert x (.variable t)) = (vars scope).insert x t := by
  rw [Table.insert_of_find?_none h, Table.insert_of_find?_none (find?_vars_none h),
    vars_append]
  rfl

theorem vars_insert_function {scope : Table Entity} {x : String}
    (h : scope.find? x = none) (s : Signature) :
    vars (scope.insert x (.function s)) = vars scope := by
  rw [Table.insert_of_find?_none h, vars_append]
  simp [vars]

namespace Context

/-- The variables in sight at a place of a program with globals `G`. -/
def vars (G : Table Ty) (Γ : Context) : Scopes :=
  match Γ.base with
  | none => Γ.scopes.map Typing.vars
  | some b => (Γ.scopes.take (Γ.scopes.length - b)).map Typing.vars ++ [G]

/-- A context in a program with globals `G`: the global scope has globals of the program, and
the scopes of the innermost function lie inside it. -/
structure Within (G : Table Ty) (Γ : Context) : Prop where
  base : ∀ b, Γ.base = some b → 0 < b ∧ b < Γ.scopes.length
  globals : ∀ scope ∈ Γ.scopes.getLast?, ∀ x t, scope.find? x = some (.variable t) →
    G.find? x = some t

variable {G : Table Ty} {Γ Δ : Context}

theorem Grows.within (h : Grows Γ Δ) (hΔ : Δ.Within G) : Γ.Within G := by
  refine ⟨fun b hb => h.length ▸ hΔ.base b (h.base.trans hb), ?_⟩
  have hg := hΔ.globals
  simp only [scopes, h.outer] at hg ⊢
  cases ho : Γ.outer with
  | nil =>
    rw [ho] at hg
    intro scope hs x t hx
    cases hs
    exact hg Δ.inner rfl x t (h.inner x _ hx)
  | cons scope outer => simpa [ho, List.getLast?_cons_cons] using hg

theorem Within.of_eq (h : Γ.Within G) (hs : Δ.scopes = Γ.scopes) (hb : Δ.base = Γ.base) :
    Δ.Within G := by
  obtain ⟨h1, h2⟩ := h
  exact ⟨hs ▸ hb ▸ h1, hs ▸ h2⟩

theorem Within.push (h : Γ.Within G) : Γ.push.Within G := by
  refine ⟨fun b hb => ?_, h.globals⟩
  have := h.base b hb
  rw [scopes_push, List.length_cons]
  omega

theorem Within.enter (h : Γ.Within G) (result : Ty) : (Γ.enter result).Within G := by
  refine ⟨fun b hb => ?_, h.globals⟩
  cases hb
  rw [scopes_enter, List.length_cons]
  exact ⟨Nat.succ_pos _, Nat.lt_succ_self _⟩

theorem vars_of_eq (hs : Δ.scopes = Γ.scopes) (hb : Δ.base = Γ.base) :
    Δ.vars G = Γ.vars G := by
  simp only [Context.vars, hs, hb]

theorem vars_push (h : Γ.Within G) : Γ.push.vars G = [] :: Γ.vars G := by
  unfold Context.vars
  have hp : Γ.push.base = Γ.base := rfl
  rw [hp, scopes_push]
  cases hb : Γ.base with
  | none => simp [Typing.vars]
  | some b =>
    have := h.base b hb
    have hl : Γ.scopes.length + 1 - b = (Γ.scopes.length - b) + 1 := by omega
    simp [hl, Typing.vars]

theorem vars_enter (result : Ty) : (Γ.enter result).vars G = [[], G] := by
  simp [Context.vars, Context.enter, Context.push, scopes, Typing.vars]

/-- A change of the innermost scope shows in the innermost scope. -/
theorem vars_update (h : Γ.Within G) (ho : Δ.outer = Γ.outer) (hb : Δ.base = Γ.base) :
    ∃ S, Γ.vars G = Typing.vars Γ.inner :: S ∧ Δ.vars G = Typing.vars Δ.inner :: S := by
  unfold Context.vars
  rw [hb]
  simp only [scopes, ho]
  cases hbase : Γ.base with
  | none => exact ⟨Γ.outer.map Typing.vars, rfl, rfl⟩
  | some b =>
    have hlt := (h.base b hbase).2
    rw [scopes, List.length_cons] at hlt
    have hl : (Γ.outer.length + 1) - b = (Γ.outer.length - b) + 1 := by omega
    refine ⟨(Γ.outer.take (Γ.outer.length - b)).map Typing.vars ++ [G], ?_, ?_⟩ <;>
      simp [hl]

theorem vars_declareVariable {x : String} {t : Ty} {span : Span} (h : Γ.Within G)
    (hd : Γ.declareVariable x t span = .ok Δ) :
    Δ.vars G = Scopes.bind x t (Γ.vars G) ∧
      ∀ scope ∈ (Γ.vars G).head?, scope.find? x = none := by
  obtain ⟨hn, rfl⟩ := declare_eq hd
  obtain ⟨S, hΓ, hΔ⟩ :=
    vars_update (Δ := { Γ with inner := Γ.inner.insert x (.variable t) }) h rfl rfl
  rw [hΓ, hΔ, vars_insert_variable hn]
  refine ⟨rfl, ?_⟩
  simpa using find?_vars_none hn

theorem vars_declareFunction {signature : Signature} {symbol : String} {span : Span}
    (h : Γ.Within G) (hd : Γ.declareFunction signature span = .ok (symbol, Δ)) :
    Δ.vars G = Γ.vars G := by
  simp only [declareFunction] at hd
  split at hd
  · cases hd
  · next Θ hΘ =>
    cases hd
    obtain ⟨hn, rfl⟩ := declare_eq hΘ
    let s : Signature := { signature with symbol := Γ.nextSymbol signature.name }
    obtain ⟨S, hΓ, hΔ⟩ := vars_update
      (Δ := { Γ with inner := Γ.inner.insert signature.name (.function s) }) h rfl rfl
    rw [vars_insert_function hn] at hΔ
    rw [hΓ]
    exact hΔ

private theorem findIn?_vars_append {x : String} {t : Ty} {rest : List (Table Entity)}
    {S : Scopes} (hr : typeIn? x rest = some t → Table.findIn? x S = some t)
    (scopes : List (Table Entity)) (hx : typeIn? x (scopes ++ rest) = some t) :
    Table.findIn? x (scopes.map Typing.vars ++ S) = some t := by
  induction scopes with
  | nil => exact hr hx
  | cons scope scopes ih =>
    simp only [List.cons_append, typeIn?] at hx
    simp only [List.map_cons, List.cons_append, Table.findIn?_cons]
    split at hx
    · next ty hf => rw [find?_vars hf]; simpa using hx
    · cases hx
    · next hf => rw [find?_vars_none hf]; simpa using ih hx

/-- A variable that checking finds is in sight, with the type found. -/
theorem findIn?_vars (h : Γ.Within G) {x : String} {t : Ty} (hx : Γ.typeOf? x = some t) :
    Table.findIn? x (Γ.vars G) = some t := by
  unfold typeOf? visible at hx
  unfold Context.vars
  cases hb : Γ.base with
  | none =>
    rw [hb, ← Γ.scopes.append_nil] at hx
    have hnil : typeIn? x [] = some t → Table.findIn? x ([] : Scopes) = some t := by
      simp [typeIn?]
    simpa using findIn?_vars_append hnil Γ.scopes hx
  | some b =>
    rw [hb] at hx
    refine findIn?_vars_append (fun hl => ?_) _ hx
    cases hlast : Γ.scopes.getLast? with
    | none => rw [hlast] at hl; cases hl
    | some scope =>
      rw [hlast] at hl
      simp only [Option.toList_some, typeIn?] at hl
      split at hl
      · next ty hf =>
        cases hl
        simp [h.globals scope hlast x t hf]
      · cases hl
      · cases hl

end Context

end Typing

end CatScript
