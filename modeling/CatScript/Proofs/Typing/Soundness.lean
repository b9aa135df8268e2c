import CatScript.Proofs.Typing.Scoping

/-!
# Checked programs are typed

A program without diagnostics is well typed, with the types that checking has written into it.
The checker walks the tree with a context, so the statements below are about every context that
agrees with the rules of the program: its functions have the signatures of the program
(`Reads.functions`) and its global variables are globals of the program (`Reads.within`).
-/
namespace CatScript

open Typing Context

namespace Typing

/-- A context that agrees with the rules. -/
structure Reads (R : Rules) (Γ : Context) : Prop where
  within : Γ.Within R.globals
  functions : ∀ scope ∈ Γ.scopes, ∀ f s, scope.find? f = some (.function s) →
    R.functions.find? s.symbol = some s

theorem mem_of_signatureIn? {f : String} {s : Signature} {scopes : List (Table Entity)}
    (h : signatureIn? f scopes = some s) : ∃ scope ∈ scopes, scope.find? f = some (.function s) := by
  induction scopes with
  | nil => cases h
  | cons scope scopes ih =>
    simp only [signatureIn?] at h
    split at h
    · next hf => cases h; exact ⟨scope, List.mem_cons_self .., hf⟩
    · obtain ⟨scope', hm, hf⟩ := ih h
      exact ⟨scope', List.mem_cons_of_mem _ hm, hf⟩

theorem Reads.signature {R : Rules} {Γ : Context} (h : Reads R Γ) {f : String} {s : Signature}
    (hs : Γ.signatureOf? f = some s) : R.functions.find? s.symbol = some s := by
  obtain ⟨scope, hm, hf⟩ := mem_of_signatureIn? hs
  exact h.functions scope hm f s hf

theorem wants_eq_nil {t : Ty} {e : Expr} : wants t e = [] ↔ e.ty = t := by
  unfold wants
  split <;> simp_all

theorem fits_eq_nil {t : Ty} {e : Expr} : fits t e = [] ↔ t.accepts e.ty = true := by
  unfold fits
  split <;> simp_all

end Typing

theorem BinaryOp.result?_of_typing {op : BinaryOp} {l r : Expr} (h : (op.typing l r).2 = []) :
    op.result? l.ty r.ty = some (op.typing l r).1 := by
  cases op with
  | add =>
    simp only [typing] at h ⊢
    split at h
    · next hs => simp [result?, hs]
    · next hs =>
      rw [List.append_eq_nil_iff, wants_eq_nil, wants_eq_nil] at h
      simp [result?, h]
  | eq | ne => rfl
  | _ =>
    simp only [typing, List.append_eq_nil_iff, wants_eq_nil] at h
    simp [result?, typing, h]

namespace Expr

theorem typedArgs_of_typedAll {R : Rules} {S : Scopes} {ps : List (String × Ty)} {es : List Expr}
    (hl : ps.length = es.length) (ht : TypedAll R S es)
    (hf : ∀ store ∈ List.zip (ps.map (·.2)) (es.map ty), R.fits store.1 store.2) :
    TypedArgs R S ps es := by
  induction ps generalizing es with
  | nil => cases es <;> simp_all [TypedArgs]
  | cons p ps ih =>
    cases es with
    | nil => simp at hl
    | cons e es =>
      simp only [TypedAll] at ht
      simp only [List.map_cons, List.zip_cons_cons, List.mem_cons, forall_eq_or_imp] at hf
      exact ⟨ht.1, hf.1, ih (by simpa using hl) ht.2 hf.2⟩

theorem accepts_of_callTyping {s : Signature} {span : Span} {es : List Expr}
    (h : (callTyping s span es).2 = []) :
    s.params.length = es.length ∧
      ∀ store ∈ List.zip (s.params.map (·.2)) (es.map ty), store.1.accepts store.2 = true := by
  simp only [callTyping] at h
  split at h
  · cases h
  · next hl =>
    refine ⟨by simpa using hl, fun store hm => ?_⟩
    simp only [List.flatten_eq_nil_iff] at h
    rw [List.zip_map, List.mem_map] at hm
    obtain ⟨⟨p, e⟩, hm, rfl⟩ := hm
    refine fits_eq_nil.1 (h _ ?_)
    rw [← List.map_uncurry_zip_eq_zipWith]
    exact List.mem_map.2 ⟨(p, e), hm, rfl⟩

mutual

theorem check_typed {R : Rules} {Γ : Context} (hr : Reads R Γ) :
    (e : Expr) → (e.check Γ).diagnostics = [] →
      (∀ store ∈ e.stores Γ, store.1.accepts store.2 = true → R.fits store.1 store.2) →
      (e.check Γ).Typed R (Γ.vars R.globals)
  | int n v, _, _ | str n v, _, _ | bool n v, _, _ | null n, _, _ => by
    simp only [check, Typed, Note.typed]
  | var n x, hd, _ => by
    simp only [check] at hd ⊢
    cases ht : Γ.typeOf? x with
    | none => simp [ht, diagnostics, Note.typed] at hd
    | some t => exact ⟨t, rfl, findIn?_vars hr.within ht⟩
  | unary n op e, hd, hs => by
    simp only [check, diagnostics, Note.typed, List.append_eq_nil_iff, wants_eq_nil] at hd
    exact ⟨rfl, hd.1.2, check_typed hr e hd.2 hs⟩
  | binary n op l r, hd, hs => by
    simp only [check, diagnostics, Note.typed, List.append_eq_nil_iff] at hd
    simp only [stores, List.mem_append] at hs
    exact ⟨⟨_, rfl, BinaryOp.result?_of_typing hd.1.1.2⟩,
      check_typed hr l hd.1.2 fun store h => hs store (.inl h),
      check_typed hr r hd.2 fun store h => hs store (.inr h)⟩
  | paren n e, hd, hs => by
    simp only [check, diagnostics, Note.typed, List.append_eq_nil_iff] at hd
    exact ⟨rfl, check_typed hr e hd.2 hs⟩
  | list n es, hd, hs => by
    simp only [check, diagnostics, Note.typed, List.append_eq_nil_iff] at hd
    exact ⟨rfl, checkAll_typed hr es hd.2 hs⟩
  | call n f es symbol, hd, hs => by
    simp only [check] at hd ⊢
    cases hf : Γ.signatureOf? f with
    | none => simp [hf, diagnostics, Note.typed] at hd
    | some s =>
      simp only [hf, diagnostics, Note.typed, List.append_eq_nil_iff] at hd
      simp only [stores, hf, List.mem_append] at hs
      obtain ⟨hl, ha⟩ := accepts_of_callTyping hd.1.2
      have hl' : s.params.length = es.length := by simpa [checkAll_eq] using hl
      rw [if_pos hl'] at hs
      refine ⟨s, rfl, hr.signature hf, ?_, ?_⟩
      · simp only [callTyping, Note.typed]
        split <;> rfl
      · exact typedArgs_of_typedAll hl (checkAll_typed hr es hd.2 fun store h => hs store (.inl h))
          fun store h => hs store (.inr h) (ha store h)

theorem checkAll_typed {R : Rules} {Γ : Context} (hr : Reads R Γ) :
    (es : List Expr) → diagnosticsOfAll (checkAll Γ es) = [] →
      (∀ store ∈ storesOfAll Γ es, store.1.accepts store.2 = true → R.fits store.1 store.2) →
      TypedAll R (Γ.vars R.globals) (checkAll Γ es)
  | [], _, _ => trivial
  | e :: es, hd, hs => by
    simp only [checkAll, diagnosticsOfAll, List.append_eq_nil_iff] at hd
    simp only [storesOfAll, List.mem_append] at hs
    exact ⟨check_typed hr e hd.1 fun store h => hs store (.inl h),
      checkAll_typed hr es hd.2 fun store h => hs store (.inr h)⟩

end

mutual

/-- A checked expression sees its variables with the types that checking found. -/
theorem check_sights {R : Rules} {Γ : Context} (hr : Reads R Γ) :
    (e : Expr) → (e.check Γ).diagnostics = [] →
      (e.check Γ).sights (Γ.vars R.globals) = (e.probe Γ).found
  | int n v, _ | str n v, _ | bool n v, _ | null n, _ => by
    simp only [check, sights, probe, Probed.found_pure]
  | var n x, hd => by
    simp only [check, probe, Probed.found_bind, found_seek, value_seek] at hd ⊢
    cases ht : Γ.typeOf? x with
    | none => simp [ht, diagnostics, Note.typed] at hd
    | some t => simp [sights, findIn?_vars hr.within ht, Note.typed]
  | unary n op e, hd => by
    simp only [check, diagnostics, List.append_eq_nil_iff] at hd
    simp [check, sights, probe, check_sights hr e hd.2]
  | binary n op l r, hd => by
    simp only [check, diagnostics, List.append_eq_nil_iff] at hd
    simp [check, sights, probe, check_sights hr l hd.1.2, check_sights hr r hd.2]
  | paren n e, hd => by
    simp only [check, diagnostics, List.append_eq_nil_iff] at hd
    simp [check, sights, probe, check_sights hr e hd.2]
  | list n es, hd => by
    simp only [check, diagnostics, List.append_eq_nil_iff] at hd
    simp [check, sights, probe, checkAll_sights hr es hd.2]
  | call n f es symbol, hd => by
    simp only [check, probe, Probed.found_bind, found_seekFunction, value_seekFunction] at hd ⊢
    cases hf : Γ.signatureOf? f with
    | none => simp [hf, diagnostics, Note.typed] at hd
    | some s =>
      simp only [hf, diagnostics, List.append_eq_nil_iff] at hd
      simp [sights, checkAll_sights hr es hd.2]

theorem checkAll_sights {R : Rules} {Γ : Context} (hr : Reads R Γ) :
    (es : List Expr) → diagnosticsOfAll (checkAll Γ es) = [] →
      sightsOfAll (Γ.vars R.globals) (checkAll Γ es) = (probeAll Γ es).found
  | [], _ => rfl
  | e :: es, hd => by
    simp only [checkAll, diagnosticsOfAll, List.append_eq_nil_iff] at hd
    simp [checkAll, sightsOfAll, probeAll, check_sights hr e hd.1, checkAll_sights hr es hd.2]

end

end Expr

/-! ## Contexts inside a block -/

namespace Typing

variable {R : Rules} {Γ Δ : Context}

/-- In a nested block the innermost scope is not the global one. -/
theorem Context.Grows.within_of_nested {G : Table Ty} (h : Grows Γ Δ) (hΓ : Γ.Within G)
    (hn : 1 < Γ.scopes.length) : Δ.Within G := by
  refine ⟨fun b hb => h.length ▸ hΓ.base b (h.base.symm.trans hb), ?_⟩
  have hg := hΓ.globals
  simp only [scopes, h.outer] at hg hn ⊢
  cases ho : Γ.outer with
  | nil => simp [ho] at hn
  | cons scope outer =>
    rw [ho, List.getLast?_cons_cons] at hg
    rw [List.getLast?_cons_cons]
    exact hg

theorem Context.result_of_eq (h : Δ.results = Γ.results) : Δ.result = Γ.result := by
  simp only [result, h]

theorem Reads.push (h : Reads R Γ) : Reads R Γ.push := by
  refine ⟨h.within.push, fun scope hm f s hf => ?_⟩
  rcases List.mem_cons.1 hm with rfl | hm
  · cases hf
  · exact h.functions scope hm f s hf

theorem Reads.enter (h : Reads R Γ) (result : Ty) : Reads R (Γ.enter result) :=
  ⟨h.within.enter result, h.push.functions⟩

theorem Reads.of_eq (h : Reads R Γ) (hs : Δ.scopes = Γ.scopes) (hb : Δ.base = Γ.base) :
    Reads R Δ :=
  ⟨h.within.of_eq hs hb, hs ▸ h.functions⟩

theorem Reads.declareVariable {x : String} {t : Ty} {span : Span} (h : Reads R Γ)
    (hd : Γ.declareVariable x t span = .ok Δ) (hΔ : Δ.Within R.globals) : Reads R Δ := by
  obtain ⟨hn, rfl⟩ := declare_eq hd
  refine ⟨hΔ, fun scope hm f s hf => ?_⟩
  rcases List.mem_cons.1 hm with rfl | hm
  · rw [Table.find?_insert] at hf
    split at hf
    · cases hf
    · exact h.functions Γ.inner (List.mem_cons_self ..) f s hf
  · exact h.functions scope (List.mem_cons_of_mem _ hm) f s hf

theorem Context.length_vars {G : Table Ty} (h : Γ.Within G)
    (hl : (Γ.vars G).length = 1) : Γ.scopes.length = 1 := by
  unfold Context.vars at hl
  cases hb : Γ.base with
  | none => simpa [hb] using hl
  | some b =>
    have := h.base b hb
    simp only [hb, List.length_append, List.length_map, List.length_take, List.length_cons,
      List.length_nil] at hl
    omega

/-- Binding without a diagnostic. -/
theorem bind_of_nil {x : String} {t : Ty} {span : Span} (hr : Reads R Γ)
    (hd : (bind Γ x t span).1 = []) (hΔ : (bind Γ x t span).2.Within R.globals) :
    Reads R (bind Γ x t span).2 ∧
      (bind Γ x t span).2.vars R.globals = (Γ.vars R.globals).bind x t ∧
      (∀ scope ∈ (Γ.vars R.globals).head?, scope.find? x = none) ∧
      ((Γ.vars R.globals).length = 1 → R.globals.find? x = some t) := by
  unfold bind at hd hΔ ⊢
  cases h : Γ.declareVariable x t span with
  | error d => simp [h] at hd
  | ok Δ =>
    simp only [h] at hΔ ⊢
    obtain ⟨hv, hf⟩ := vars_declareVariable hr.within h
    refine ⟨hr.declareVariable h hΔ, hv, hf, fun hl => ?_⟩
    obtain ⟨-, rfl⟩ := declare_eq h
    have hlen := length_vars hr.within hl
    rw [scopes, List.length_cons, Nat.add_eq_right, List.length_eq_zero_iff] at hlen
    refine hΔ.globals (Γ.inner.insert x (.variable t)) ?_ x t (Table.find?_insert_self ..)
    simp [scopes, hlen]

theorem bindAll_of_nil {span : Span} {ps : List Param} {t : Table Ty} {S : Scopes}
    (hr : Reads R Γ) (hn : 1 < Γ.scopes.length) (hd : (bindAll Γ span ps).1 = [])
    (hv : Γ.vars R.globals = t :: S) :
    Reads R (bindAll Γ span ps).2 ∧
      (bindAll Γ span ps).2.vars R.globals =
        ps.foldl (fun t p => t.insert p.name p.ty) t :: S ∧
      (ps.map (·.name)).Nodup ∧ ∀ p ∈ ps, t.find? p.name = none := by
  induction ps generalizing Γ t with
  | nil => exact ⟨hr, hv, List.nodup_nil, by simp⟩
  | cons p ps ih =>
    simp only [bindAll, List.append_eq_nil_iff] at hd
    have hg := bind_grows Γ p.name p.ty span
    obtain ⟨hr', hv', hf, -⟩ := bind_of_nil hr hd.1 (hg.within_of_nested hr.within hn)
    rw [hv] at hv' hf
    obtain ⟨h1, h2, h3, h4⟩ := ih hr' (by rw [hg.length]; exact hn) hd.2 hv'
    simp only [List.head?_cons, Option.mem_some_iff, forall_eq'] at hf
    refine ⟨h1, h2, ?_, ?_⟩
    · rw [List.map_cons, List.nodup_cons]
      refine ⟨fun hm => ?_, h3⟩
      obtain ⟨q, hq, he⟩ := List.mem_map.1 hm
      have := h4 q hq
      rw [he, Table.find?_insert_self] at this
      cases this
    · intro q hq
      rcases List.mem_cons.1 hq with rfl | hq
      · exact hf
      · have := h4 q hq
        rw [Table.find?_insert] at this
        split at this
        · cases this
        · exact this

theorem element?_of_loopTyping {e : Expr} (h : (loopTyping e).2 = []) :
    e.ty.element? = some (loopTyping e).1 := by
  unfold loopTyping at h ⊢
  cases ht : e.ty.element? with
  | none => simp [ht] at h
  | some t => rfl

theorem declareTyping_fst (t : Option TypeName) (e : Expr) :
    (declareTyping t e).1 = declaredTy t e := by
  cases t <;> rfl

theorem scope_eq_foldl (h : Header) :
    h.scope = h.params.foldl (fun (t : Table Ty) p => t.insert p.name p.ty) [] := by
  simp only [Header.scope, Table.ofList, List.foldl_map]

/-! ## Hoisted functions -/

@[simp] theorem Hoisted.params_header (slot : Hoisted) (h : Header) :
    (slot.header h).params = h.params := by
  cases slot <;> rfl

@[simp] theorem Hoisted.resultTy_header (slot : Hoisted) (h : Header) :
    (slot.header h).resultTy = h.resultTy := by
  cases slot <;> rfl

@[simp] theorem Hoisted.scope_header (slot : Hoisted) (h : Header) :
    (slot.header h).scope = h.scope := by
  simp [Header.scope]

/-- The signature under which a statement has been declared, if it is a function. -/
def Hoisted.signature? : Hoisted → Stmt → Option Signature
  | .symbol s, .define _ h _ => some { h.signature with symbol := s }
  | _, _ => none

def hoistedSignatures : List Hoisted → List Stmt → List Signature
  | slot :: slots, s :: ss => (slot.signature? s).toList ++ hoistedSignatures slots ss
  | _, _ => []

theorem hoistOne_functions {st : Stmt} {scope : Table Entity}
    (hm : scope ∈ (hoistOne Γ st).2.scopes) {f : String} {s : Signature}
    (hf : scope.find? f = some (.function s)) :
    (∃ scope ∈ Γ.scopes, scope.find? f = some (.function s)) ∨
      (hoistOne Γ st).1.signature? st = some s := by
  cases st with
  | define n h body =>
    simp only [hoistOne] at hm ⊢
    cases hd : Γ.declareFunction h.signature n.span with
    | error d => rw [hd] at hm; exact .inl ⟨scope, hm, hf⟩
    | ok r =>
      obtain ⟨symbol, Δ⟩ := r
      rw [hd] at hm
      simp only [declareFunction] at hd
      split at hd
      · cases hd
      · next Θ hΘ =>
        cases hd
        obtain ⟨-, rfl⟩ := declare_eq hΘ
        rcases List.mem_cons.1 hm with rfl | hm
        · rw [Table.find?_insert] at hf
          split at hf
          · cases hf; exact .inr rfl
          · exact .inl ⟨Γ.inner, List.mem_cons_self .., hf⟩
        · exact .inl ⟨scope, List.mem_cons_of_mem _ hm, hf⟩
  | _ => exact .inl ⟨scope, hm, hf⟩

theorem hoist_functions {ss : List Stmt} {scope : Table Entity}
    (hm : scope ∈ (hoist Γ ss).2.scopes) {f : String} {s : Signature}
    (hf : scope.find? f = some (.function s)) :
    (∃ scope ∈ Γ.scopes, scope.find? f = some (.function s)) ∨
      s ∈ hoistedSignatures (hoist Γ ss).1 ss := by
  induction ss generalizing Γ with
  | nil => exact .inl ⟨scope, hm, hf⟩
  | cons st ss ih =>
    simp only [hoist, hoistedSignatures, List.mem_append, Option.mem_toList]
    rcases ih hm with ⟨scope', hm', hf'⟩ | hs
    · exact (hoistOne_functions hm' hf').imp id .inl
    · exact .inr (.inr hs)

/-- The functions of a checked block have the signatures under which they were declared. -/
theorem exists_function_of_hoisted {slots : List Hoisted} {ss : List Stmt} {s : Signature}
    (h : s ∈ hoistedSignatures slots ss) :
    ∃ f ∈ Stmt.functionsOfAll (Stmt.checkAll Γ slots ss).1, f.header.signature = s := by
  induction ss generalizing Γ slots with
  | nil => cases slots <;> cases h
  | cons st ss ih =>
    cases slots with
    | nil => cases h
    | cons slot slots =>
      simp only [hoistedSignatures, List.mem_append, Option.mem_toList] at h
      simp only [Stmt.checkAll, Stmt.functionsOfAll, List.mem_append]
      rcases h with h | h
      · unfold Hoisted.signature? at h
        split at h
        · cases h
          exact ⟨_, .inl (List.mem_cons_self ..), rfl⟩
        · cases h
      · obtain ⟨f, hf, he⟩ := ih h
        exact ⟨f, .inr hf, he⟩

theorem Reads.hoist {ss : List Stmt} (h : Reads R Γ) (hΔ : (hoist Γ ss).2.Within R.globals)
    (hf : ∀ f ∈ Stmt.functionsOfAll (Stmt.checkBlock Γ ss).1,
      R.functions.find? f.header.symbol = some f.header.signature) :
    Reads R (Typing.hoist Γ ss).2 := by
  refine ⟨hΔ, fun scope hm f s hs => ?_⟩
  rcases hoist_functions hm hs with ⟨scope', hm', hs'⟩ | hs'
  · exact h.functions scope' hm' f s hs'
  · obtain ⟨g, hg, rfl⟩ := exists_function_of_hoisted hs'
    exact hf g hg

theorem vars_hoist {G : Table Ty} {ss : List Stmt} (h : (Typing.hoist Γ ss).2.Within G) :
    (Typing.hoist Γ ss).2.vars G = Γ.vars G := by
  induction ss generalizing Γ with
  | nil => rfl
  | cons st ss ih =>
    have hg := hoistOne_grows Γ st
    have hw := (hoist_grows _ ss).within h
    refine (ih h).trans ?_
    unfold hoistOne
    split
    · split
      · next hd => exact vars_declareFunction (hg.within hw) hd
      · rfl
    · rfl

end Typing

/-! ## Statements -/

namespace Stmt

mutual

theorem returns_check (Γ : Context) (slot : Hoisted) :
    (s : Stmt) → (s.check Γ slot).1.returns = s.returns
  | cond _ _ yes (some no) => by
    simp only [check, returns, lastReturns_checkAll _ _ yes, lastReturns_checkAll _ _ no]
  | cond _ _ _ none | print _ _ | call _ _ | forEach _ _ _ _ | declare _ _ _ _ | assign _ _ _
  | define _ _ _ | ret _ none | ret _ (some _) | invalid _ _ => by
    simp only [check, returns]

theorem lastReturns_checkAll (Γ : Context) (slots : List Hoisted) :
    (ss : List Stmt) → lastReturns (checkAll Γ slots ss).1 = lastReturns ss
  | [] => rfl
  | [s] => by simp only [checkAll, lastReturns, returns_check _ _ s]
  | t :: s :: ss => by
    have h := lastReturns_checkAll (check Γ (slots.head?.getD .nothing) t).2 slots.tail (s :: ss)
    simpa only [checkAll, lastReturns] using h

end

variable {R : Rules} {Γ : Context}

theorem check_reads {slot : Hoisted} {s : Stmt} (hr : Reads R Γ)
    (hΔ : (s.check Γ slot).2.Within R.globals) : Reads R (s.check Γ slot).2 := by
  by_cases h : ∃ n x t e, s = declare n x t e
  · obtain ⟨n, x, t, e, rfl⟩ := h
    simp only [check, Typing.bind] at hΔ ⊢
    split
    · next hd => rw [hd] at hΔ; exact hr.declareVariable hd hΔ
    · exact hr
  · have hs : ∀ n x t e, s ≠ declare n x t e := fun n x t e he => h ⟨n, x, t, e, he⟩
    exact hr.of_eq (check_scopes Γ slot s hs) (check_grows Γ slot s).base

/-- What holds of statements that were checked from `Γ` on without a diagnostic, where the types
of their variables were found as listed. -/
structure Sound (R : Rules) (Γ Δ : Context) (ss : List Stmt)
    (found : List (Occurrence × Option Ty)) : Prop where
  typed : TypedAll R Γ.result (Γ.vars R.globals) ss
  vars : Δ.vars R.globals = extendAll (Γ.vars R.globals) ss
  functions : ∀ f ∈ functionsOfAll ss, f.Typed R
  sights : sightsOfAll R (Γ.vars R.globals) ss = found

/-- What checking statements without a diagnostic needs to make them sound. -/
structure Clean (R : Rules) (Γ : Context) (slots : List Hoisted) (ss : List Stmt) : Prop where
  reads : Reads R Γ
  within : (checkAll Γ slots ss).2.Within R.globals
  diagnostics : diagnosticsOfAll (checkAll Γ slots ss).1 = []
  stores : ∀ store ∈ storesOfAll Γ slots ss, store.1.accepts store.2 = true →
    R.fits store.1 store.2
  functions : ∀ f ∈ functionsOfAll (checkAll Γ slots ss).1,
    R.functions.find? f.header.symbol = some f.header.signature

/-- A block inside a scope of its own. -/
private theorem checkBlock_sound_of {body : List Stmt} (hr : Reads R Γ)
    (hn : 1 < Γ.scopes.length) (hd : diagnosticsOfAll (checkBlock Γ body).1 = [])
    (hs : ∀ store ∈ storesOfAll (hoist Γ body).2 (hoist Γ body).1 body,
      store.1.accepts store.2 = true → R.fits store.1 store.2)
    (hf : ∀ f ∈ functionsOfAll (checkBlock Γ body).1,
      R.functions.find? f.header.symbol = some f.header.signature)
    (ih : ∀ (Δ : Context) slots, Clean R Δ slots body →
      Sound R Δ (checkAll Δ slots body).2 (checkAll Δ slots body).1
        (probeAll Δ slots body).found) :
    TypedAll R Γ.result (Γ.vars R.globals) (checkBlock Γ body).1 ∧
      (∀ f ∈ functionsOfAll (checkBlock Γ body).1, f.Typed R) ∧
      sightsOfAll R (Γ.vars R.globals) (checkBlock Γ body).1 = (probeBlock Γ body).found := by
  have hg := hoist_grows Γ body
  have hw := hg.within_of_nested hr.within hn
  have hw' := (checkBlock_grows Γ body).within_of_nested hr.within hn
  have h := ih _ _ ⟨hr.hoist hw hf, hw', hd, hs, hf⟩
  have ht := h.typed
  have hl := h.sights
  rw [vars_hoist hw] at ht hl
  rw [result_of_eq hg.results] at ht
  exact ⟨ht, h.functions, hl⟩

private theorem length_push (Γ : Context) : 1 < Γ.push.scopes.length :=
  Nat.succ_lt_succ (Nat.succ_pos _)

mutual

theorem check_sound {R : Rules} : (s : Stmt) → ∀ {Γ : Context} {slot : Hoisted}, Reads R Γ →
    (s.check Γ slot).2.Within R.globals → (s.check Γ slot).1.diagnostics = [] →
    (∀ store ∈ s.stores Γ, store.1.accepts store.2 = true → R.fits store.1 store.2) →
    (∀ f ∈ (s.check Γ slot).1.functions,
      R.functions.find? f.header.symbol = some f.header.signature) →
    (s.check Γ slot).1.Typed R Γ.result (Γ.vars R.globals) ∧
      (s.check Γ slot).2.vars R.globals =
        (s.check Γ slot).1.extend (Γ.vars R.globals) ∧
      (∀ f ∈ (s.check Γ slot).1.functions, f.Typed R) ∧
      (s.check Γ slot).1.sights R (Γ.vars R.globals) = (s.probe Γ slot).found
  | print n e, Γ, _, hr, _, hd, hs, _ | call n e, Γ, _, hr, _, hd, hs, _ => by
    simp only [check, diagnostics, List.append_eq_nil_iff] at hd
    exact ⟨Expr.check_typed hr e hd.2 hs, rfl, by simp [check, functions],
      by simp [check, sights, probe, Expr.check_sights hr e hd.2]⟩
  | forEach n x e body, Γ, slot, hr, hΔ, hd, hs, hf => by
    simp only [check, diagnostics, Note.report, List.append_eq_nil_iff] at hd
    obtain ⟨⟨⟨-, hl, hb⟩, he⟩, hbody⟩ := hd
    simp only [stores, List.mem_append] at hs
    have hgb := bind_grows Γ.push x (loopTyping (e.check Γ)).1 n.span
    have hn := length_push Γ
    obtain ⟨hr', hv, -, -⟩ := bind_of_nil hr.push hb (hgb.within_of_nested hr.within.push hn)
    have h := checkBlock_sound_of hr' (by rw [hgb.length]; exact hn) hbody
      (fun store h => hs store (.inr h)) hf
      (fun Δ slots hc => checkAll_sound body hc)
    rw [hv, vars_push hr.within, result_of_eq hgb.results] at h
    have hel := element?_of_loopTyping hl
    refine ⟨⟨Expr.check_typed hr e he fun store h => hs store (.inl h), _, hel, h.1⟩, ?_, h.2.1, ?_⟩
    · exact vars_of_eq (check_scopes Γ slot _ (by simp)) (check_grows Γ slot _).base
    · simp only [check, sights, hel, Option.getD_some, probe, Probed.found_bind, Probed.found_pure,
        List.append_nil, Expr.value_probe, Expr.check_sights hr e he]
      exact congrArg _ h.2.2
  | cond n e yes none, Γ, slot, hr, hΔ, hd, hs, hf => by
    simp only [check, diagnostics, Note.report, List.append_eq_nil_iff, wants_eq_nil] at hd
    obtain ⟨⟨⟨-, hb⟩, he⟩, hyes⟩ := hd
    simp only [stores, List.mem_append] at hs
    have h := checkBlock_sound_of hr.push (length_push Γ) hyes
      (fun store h => hs store (.inr h)) hf (fun Δ slots hc => checkAll_sound yes hc)
    rw [vars_push hr.within] at h
    refine ⟨⟨Expr.check_typed hr e he fun store h => hs store (.inl h), hb, h.1⟩, ?_, h.2.1, ?_⟩
    · exact vars_of_eq (check_scopes Γ slot _ (by simp)) (check_grows Γ slot _).base
    · simp only [check, sights, probe, Probed.found_bind, Probed.found_pure, List.append_nil,
        Expr.check_sights hr e he]
      exact congrArg _ h.2.2
  | cond n e yes (some no), Γ, slot, hr, hΔ, hd, hs, hf => by
    simp only [check, diagnostics, Note.report, List.append_eq_nil_iff, wants_eq_nil] at hd
    obtain ⟨⟨⟨⟨-, hb⟩, he⟩, hyes⟩, hno⟩ := hd
    simp only [stores, List.mem_append] at hs
    simp only [check, functions, List.mem_append] at hf ⊢
    have h := checkBlock_sound_of hr.push (length_push Γ) hyes
      (fun store h => hs store (.inl (.inr h))) (fun f h => hf f (.inl h))
      (fun Δ slots hc => checkAll_sound yes hc)
    have hp := (checkBlock_grows Γ.push yes).pop
    have hr' : Reads R (checkBlock Γ.push yes).2.pop := hr.of_eq hp.1 hp.2.1
    have h' := checkBlock_sound_of hr'.push (length_push _) hno
      (fun store h => hs store (.inr h)) (fun f h => hf f (.inr h))
      (fun Δ slots hc => checkAll_sound no hc)
    have hres : (checkBlock Γ.push yes).2.pop.push.result = Γ.result := result_of_eq hp.2.2
    rw [vars_push hr.within] at h
    rw [vars_push hr'.within, vars_of_eq hp.1 hp.2.1, hres] at h'
    refine ⟨⟨Expr.check_typed hr e he fun store h => hs store (.inl (.inl h)), hb, h.1, h'.1⟩, ?_,
      fun f hm => hm.elim (h.2.1 f) (h'.2.1 f), ?_⟩
    · exact vars_of_eq (check_scopes Γ slot (cond n e yes (some no)) (by simp))
        (check_grows Γ slot (cond n e yes (some no))).base
    · simp only [sights, probe, Probed.found_bind, Probed.found_pure, List.append_nil,
        value_probeAll, Expr.check_sights hr e he]
      exact congrArg _ (congr (congrArg _ h.2.2) h'.2.2)
  | declare n x t e, Γ, slot, hr, hΔ, hd, hs, _ => by
    simp only [check] at hΔ ⊢
    have hd' : (e.check Γ).diagnostics = [] ∧ (declareTyping t (e.check Γ)).2 = [] ∧
        (Typing.bind Γ x (declareTyping t (e.check Γ)).1 n.span).1 = [] := by
      cases t <;> simp_all [check, diagnostics, Note.report]
    obtain ⟨he, ht, hb⟩ := hd'
    simp only [stores, List.mem_append] at hs
    obtain ⟨-, hv, hfresh, hglobal⟩ := bind_of_nil hr hb hΔ
    rw [declareTyping_fst] at hglobal
    refine ⟨⟨Expr.check_typed hr e he fun store h => hs store (.inl h), ?_, hfresh, hglobal⟩, ?_,
      by simp [functions], by simp [sights, probe, Expr.check_sights hr e he]⟩
    · rintro written rfl
      exact hs (written.ty, (e.check Γ).ty) (.inr (by simp)) (fits_eq_nil.1 ht)
    · simpa only [extend, ← declareTyping_fst] using hv
  | assign n x e, Γ, _, hr, _, hd, hs, _ => by
    simp only [check, diagnostics, Note.report, List.append_eq_nil_iff, assignErrors] at hd
    simp only [stores, List.mem_append] at hs
    cases ht : Γ.typeOf? x with
    | none => simp [ht] at hd
    | some t =>
      simp only [ht, fits_eq_nil] at hd
      have hx := findIn?_vars hr.within ht
      refine ⟨⟨Expr.check_typed hr e hd.2 fun store h => hs store (.inl h), t, hx,
        hs (t, (e.check Γ).ty) (.inr (by simp [ht])) hd.1.2⟩, rfl, by simp [check, functions], ?_⟩
      simp [check, sights, probe, Expr.check_sights hr e hd.2, ht, hx, Note.report]
  | define n h body, Γ, slot, hr, hΔ, hd, hs, hf => by
    simp only [check, diagnostics, Note.report, List.append_eq_nil_iff] at hd
    obtain ⟨⟨⟨-, ⟨-, hb⟩, hend⟩, -⟩, hbody⟩ := hd
    simp only [check, functions, List.mem_cons, forall_eq_or_imp] at hf ⊢
    have hn : 1 < (Γ.enter h.resultTy).scopes.length := length_push Γ
    have hg := bindAll_grows (Γ.enter h.resultTy) n.span h.params
    obtain ⟨hr', hv, hnd, -⟩ := bindAll_of_nil (hr.enter h.resultTy) hn hb (vars_enter _)
    have hi := checkBlock_sound_of hr' (by rw [hg.length]; exact hn) hbody hs hf.2
      (fun Δ slots hc => checkAll_sound body hc)
    rw [hv, result_of_eq hg.results] at hi
    refine ⟨trivial, ?_, ⟨?_, hi.2.1⟩, ?_⟩
    · exact vars_of_eq (check_scopes Γ slot (define n h body) (by simp))
        (check_grows Γ slot (define n h body)).base
    · refine ⟨by simpa using hnd, ?_, fun hv => ?_⟩
      · rw [Hoisted.resultTy_header, Hoisted.scope_header, scope_eq_foldl]
        exact hi.1
      · rw [Hoisted.resultTy_header] at hv
        simp only [lastReturns_checkAll]
        by_cases hr : lastReturns body = true
        · exact hr
        · simp [endErrors, hv, hr] at hend
    · rw [sights, Hoisted.scope_header, scope_eq_foldl]
      simp only [probe, Probed.found_bind, Probed.found_pure, List.append_nil]
      exact hi.2.2
  | ret n none, Γ, _, hr, _, hd, _, _ => by
    simp only [check, diagnostics, Note.report, List.append_eq_nil_iff, bareReturnErrors] at hd
    refine ⟨?_, rfl, by simp [check, functions], rfl⟩
    by_cases hv : Γ.result = .void
    · exact hv
    · simp [hv] at hd
  | ret n (some e), Γ, _, hr, _, hd, hs, _ => by
    simp only [check, diagnostics, Note.report, List.append_eq_nil_iff, returnErrors] at hd
    simp only [stores, List.mem_append] at hs
    by_cases hv : Γ.result = .void
    · simp [hv] at hd
    · simp only [hv, if_false, fits_eq_nil] at hd
      refine ⟨⟨hv, Expr.check_typed hr e hd.2 fun store h => hs store (.inl h), ?_⟩, rfl,
        by simp [check, functions], by simp [check, sights, probe, Expr.check_sights hr e hd.2]⟩
      exact hs (Γ.result, (e.check Γ).ty) (.inr (by simp [hv])) hd.1.2
  | invalid n t, Γ, _, _, _, _, _, _ => ⟨trivial, rfl, by simp [check, functions], rfl⟩

theorem checkAll_sound {R : Rules} : (ss : List Stmt) → ∀ {Γ : Context} {slots : List Hoisted},
    Clean R Γ slots ss → Sound R Γ (checkAll Γ slots ss).2 (checkAll Γ slots ss).1
      (probeAll Γ slots ss).found
  | [], Γ, slots, hc => ⟨trivial, rfl, by simp [checkAll, functionsOfAll], rfl⟩
  | s :: ss, Γ, slots, hc => by
    obtain ⟨hr, hΔ, hd, hs, hf⟩ := hc
    simp only [checkAll, diagnosticsOfAll, List.append_eq_nil_iff] at hd
    simp only [storesOfAll, List.mem_append] at hs
    simp only [checkAll, functionsOfAll, List.mem_append] at hf
    have hg := check_grows Γ (slots.head?.getD .nothing) s
    have hw := (checkAll_grows _ slots.tail ss).within hΔ
    obtain ⟨h1, h2, h3, h3'⟩ := check_sound s hr hw hd.1 (fun store h => hs store (.inl h))
      (fun f h => hf f (.inl h))
    obtain ⟨h4, h5, h6, h6'⟩ := checkAll_sound ss ⟨check_reads hr hw, hΔ, hd.2,
      fun store h => hs store (.inr h), fun f h => hf f (.inr h)⟩
    have hres : (s.check Γ (slots.head?.getD .nothing)).2.result = Γ.result := by
      simp only [result, hg.results]
    rw [h2, hres] at h4
    rw [h2] at h5 h6'
    refine ⟨⟨h1, h4⟩, h5, fun f hm => ?_, ?_⟩
    · simp only [checkAll, functionsOfAll, List.mem_append] at hm
      exact hm.elim (h3 f) (h6 f)
    · simp [checkAll, sightsOfAll, probeAll, h3', h6']

end

end Stmt

end CatScript
