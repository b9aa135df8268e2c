import CatScript.Proofs.Code.Lowering

/-!
# Well-formed code

Where an instruction of lowered code points: a jump to an offset of its own part or right
behind it, a local to a slot that has been taken, a call to a function with as many parameters
as arguments are given. Each part of the code has this property by itself (`Sits`), and the
parts of a method keep it when they are put together.
-/
namespace CatScript

open Typing Code

namespace Code

/-- What the instruction refers to exists, in code that has `locals` locals and whose offsets
go up to `stop`. -/
def Instruction.Sits (functions : Table Signature) (locals stop : Nat) : Instruction → Prop
  | jump _ target => target ≤ stop
  | loadLocal n | storeLocal n => n < locals
  | invoke f arity => ∃ s, functions.find? f = some s ∧ s.params.length = arity
  | _ => True

def Sits (functions : Table Signature) (locals stop : Nat) (code : List Instruction) : Prop :=
  ∀ i ∈ code, i.Sits functions locals stop

variable {functions : Table Signature} {locals locals' stop stop' : Nat} {code code' : List Instruction}

theorem Instruction.Sits.mono {i : Instruction} (h : i.Sits functions locals stop)
    (hl : locals ≤ locals') (hs : stop ≤ stop') : i.Sits functions locals' stop' := by
  cases i with
  | jump j t => exact Nat.le_trans h hs
  | loadLocal n => exact Nat.lt_of_lt_of_le h hl
  | storeLocal n => exact Nat.lt_of_lt_of_le h hl
  | invoke f a => exact h
  | _ => trivial

theorem Sits.mono (h : Sits functions locals stop code) (hl : locals ≤ locals')
    (hs : stop ≤ stop') : Sits functions locals' stop' code :=
  fun i hi => (h i hi).mono hl hs

theorem sits_append : Sits functions locals stop (code ++ code') ↔
    Sits functions locals stop code ∧ Sits functions locals stop code' := by
  simp only [Sits, List.mem_append, or_imp, forall_and]

theorem sits_cons {i : Instruction} : Sits functions locals stop (i :: code) ↔
    i.Sits functions locals stop ∧ Sits functions locals stop code := by
  simp only [Sits, List.mem_cons, forall_eq_or_imp]

theorem sits_nil : Sits functions locals stop [] := by simp [Sits]

theorem boxing_sits (t : Ty) : Sits functions locals stop (boxing t) := by
  cases t <;> simp [boxing, Sits, Instruction.Sits]

theorem coercion_sits (s t : Ty) : Sits functions locals stop (coercion s t) := by
  unfold coercion
  split
  · exact boxing_sits s
  · simp [Sits, Instruction.Sits]
  · exact sits_nil

theorem truth_sits (j : Jump) {start : Nat} (h : start + 4 ≤ stop) :
    Sits functions locals stop (truth j start) := by
  simp only [truth, sits_cons, Instruction.Sits, true_and]
  exact ⟨by omega, h, sits_nil⟩

theorem scheme_boxing_sits (s : Scheme) (t : Ty) : Sits functions locals stop (s.boxing t) := by
  cases s with
  | numbers _ | comparison _ => exact sits_nil
  | equality _ | joining => exact boxing_sits t

theorem scheme_finish_sits (op : BinaryOp) (t l r : Ty) {start : Nat}
    (h : start + ((scheme op t l r).finish start).length ≤ stop) :
    Sits functions locals stop ((scheme op t l r).finish start) := by
  cases hs : scheme op t l r with
  | numbers i =>
    have hi : i = .add ∨ i = .sub ∨ i = .mul ∨ i = .div := by
      cases op <;> simp only [scheme] at hs <;> (try split at hs) <;> cases hs <;> simp
    rcases hi with rfl | rfl | rfl | rfl <;> simp [Scheme.finish, Sits, Instruction.Sits]
  | comparison j =>
    rw [hs] at h
    exact truth_sits j h
  | equality j =>
    rw [hs] at h
    have h : start + (4 + 1) ≤ stop := h
    exact sits_cons.2 ⟨trivial, truth_sits j (by omega)⟩
  | joining => simp [Scheme.finish, Sits, Instruction.Sits]

theorem mem_flatten_of_find {L : Layout} {x : String} {v : Variable} (h : L.find x = .ok v) :
    (x, v) ∈ L.scopes.flatten :=
  Table.mem_flatten_of_findIn? (Layout.find_eq_ok.1 h)

/-- A slot variable of a layout has one of its slots. -/
theorem mem_slots_of_find {L : Layout} {x : String} {v : Variable} {n : Nat}
    (h : L.find x = .ok v) (hn : v.storage = .slot n) : n ∈ L.slots := by
  obtain ⟨scope, hs, hb⟩ := List.mem_flatten.1 (mem_flatten_of_find h)
  refine List.mem_flatMap.2 ⟨scope, hs, List.mem_filterMap.2 ⟨(x, v), hb, ?_⟩⟩
  simp only [Variable.slot?, hn]

theorem load_sits {L : Layout} (hp : L.Placed) {x : String} {v : Variable} (h : L.find x = .ok v) :
    v.load.Sits functions L.nextSlot stop := by
  unfold Variable.load
  split
  · trivial
  · next n hn => exact hp.bound n (mem_slots_of_find h hn)

theorem store_sits {L : Layout} (hp : L.Placed) {x : String} {v : Variable} (h : L.find x = .ok v) :
    v.store.Sits functions L.nextSlot stop := by
  unfold Variable.store
  split
  · trivial
  · next n hn => exact hp.bound n (mem_slots_of_find h hn)

theorem declare_store_sits (functions : Table Signature) (stop : Nat) {L : Layout} (hp : L.Placed)
    (x : String) (t : Ty) : (L.declare x t).1.store.Sits functions (L.declare x t).2.nextSlot stop := by
  obtain ⟨scope, scopes, hs⟩ := List.exists_cons_of_ne_nil hp.ne_nil
  by_cases hn : scopes = []
  · subst hn
    rw [Layout.declare_global hs hp]
    trivial
  · rw [Layout.declare_slot hs hn]
    exact Nat.lt_succ_self _

end Code

namespace Expr

theorem length_of_typedArgs {R : Rules} {S : Scopes} {ps : List (String × Ty)} {es : List Expr}
    (h : TypedArgs R S ps es) : ps.length = es.length := by
  induction ps generalizing es with
  | nil =>
    cases es with
    | nil => rfl
    | cons e es => exact h.elim
  | cons p ps ih =>
    cases es with
    | nil => exact h.elim
    | cons e es => simp [ih h.2.2]

mutual

theorem lower_sits {R : Rules} {result : Ty} {S : Scopes} {L : Layout} (hL : L.Sees R result S)
    (hp : L.Placed) : (e : Expr) → e.Typed R S → ∀ {start : Nat} {code : List Instruction},
    e.lower L start = .ok code → Sits R.functions L.nextSlot (start + code.length) code
  | int _ _, _, _, _, h | str _ _, _, _, _, h | bool _ _, _, _, _, h | null _, _, _, _, h => by
    cases h
    exact sits_cons.2 ⟨trivial, sits_nil⟩
  | var n x, ht, start, code, h => by
    simp only [lower, bind_eq_ok] at h
    obtain ⟨v, hv, hc⟩ := h
    cases hc
    exact sits_cons.2 ⟨load_sits hp hv, sits_nil⟩
  | unary n op e, ht, start, code, h => by
    simp only [lower, bind_eq_ok] at h
    obtain ⟨inner, hi, hc⟩ := h
    have ih := lower_sits hL hp e ht.2.2 hi
    cases op with
    | negate =>
      cases hc
      refine sits_append.2 ⟨ih.mono (Nat.le_refl _) (by simp), sits_cons.2 ⟨trivial, sits_nil⟩⟩
    | not =>
      cases hc
      refine sits_append.2 ⟨ih.mono (Nat.le_refl _) (by simp), truth_sits _ ?_⟩
      simp only [List.length_append, truth, List.length_cons, List.length_nil]
      omega
  | binary n op l r, ht, start, code, h => by
    simp only [lower, bind_eq_ok] at h
    obtain ⟨left, hl, right, hr, hc⟩ := h
    have ihl := lower_sits hL hp l ht.2.1 hl
    have ihr := lower_sits hL hp r ht.2.2 hr
    cases hc
    refine sits_append.2 ⟨sits_append.2 ⟨sits_append.2 ⟨sits_append.2 ⟨?_, ?_⟩, ?_⟩, ?_⟩, ?_⟩
    · exact ihl.mono (Nat.le_refl _) (by simp only [List.length_append]; omega)
    · exact scheme_boxing_sits _ _
    · exact ihr.mono (Nat.le_refl _) (by simp only [List.length_append]; omega)
    · exact scheme_boxing_sits _ _
    · exact scheme_finish_sits _ _ _ _ (by simp only [List.length_append]; omega)
  | paren n e, ht, start, code, h => by
    simp only [lower] at h
    exact lower_sits hL hp e ht.2 h
  | list n es, ht, start, code, h => by
    simp only [lower, bind_eq_ok] at h
    obtain ⟨items, hi, hc⟩ := h
    have ih := lowerItems_sits hL hp es ht.2 hi
    cases hc
    exact sits_append.2 ⟨ih.mono (Nat.le_refl _) (by simp), sits_cons.2 ⟨trivial, sits_nil⟩⟩
  | call n f es symbol, ht, start, code, h => by
    obtain ⟨s, rfl, hs, -, ha⟩ := ht
    simp only [lower, bind_eq_ok, Layout.findFunction_eq_ok, Option.getD_some] at h
    obtain ⟨s', hs', args, hargs, hc⟩ := h
    rw [hL.functions, hs] at hs'
    cases hs'
    have ih := lowerArgs_sits hL hp s.params es ha hargs
    cases hc
    refine sits_append.2 ⟨ih.mono (Nat.le_refl _) (by simp), sits_cons.2 ⟨?_, ?_⟩⟩
    · exact ⟨s, hs, length_of_typedArgs ha⟩
    · split
      · exact sits_cons.2 ⟨trivial, sits_nil⟩
      · exact sits_nil

theorem lowerItems_sits {R : Rules} {result : Ty} {S : Scopes} {L : Layout}
    (hL : L.Sees R result S) (hp : L.Placed) : (es : List Expr) → TypedAll R S es →
    ∀ {start : Nat} {code : List Instruction}, lowerItems L start es = .ok code →
    Sits R.functions L.nextSlot (start + code.length) code
  | [], _, _, _, h => by
    cases h
    exact sits_nil
  | e :: es, ht, start, code, h => by
    simp only [lowerItems, bind_eq_ok] at h
    obtain ⟨one, ho, more, hm, hc⟩ := h
    have ih := lower_sits hL hp e ht.1 ho
    have ih' := lowerItems_sits hL hp es ht.2 hm
    cases hc
    refine sits_append.2 ⟨sits_append.2 ⟨?_, boxing_sits _⟩, ?_⟩
    · exact ih.mono (Nat.le_refl _) (by simp only [List.length_append]; omega)
    · exact ih'.mono (Nat.le_refl _) (by simp only [List.length_append]; omega)

theorem lowerArgs_sits {R : Rules} {result : Ty} {S : Scopes} {L : Layout}
    (hL : L.Sees R result S) (hp : L.Placed) : (ps : List (String × Ty)) → (es : List Expr) →
    TypedArgs R S ps es → ∀ {start : Nat} {code : List Instruction},
    lowerArgs L start ps es = .ok code → Sits R.functions L.nextSlot (start + code.length) code
  | [], [], _, _, _, h => by
    cases h
    exact sits_nil
  | p :: ps, e :: es, ht, start, code, h => by
    simp only [lowerArgs, bind_eq_ok] at h
    obtain ⟨one, ho, more, hm, hc⟩ := h
    have ih := lower_sits hL hp e ht.1 ho
    have ih' := lowerArgs_sits hL hp ps es ht.2.2 hm
    cases hc
    refine sits_append.2 ⟨sits_append.2 ⟨?_, coercion_sits _ _⟩, ?_⟩
    · exact ih.mono (Nat.le_refl _) (by simp only [List.length_append]; omega)
    · exact ih'.mono (Nat.le_refl _) (by simp only [List.length_append]; omega)
  | [], _ :: _, ht, _, _, _ | _ :: _, [], ht, _, _, _ => ht.elim

end

end Expr

namespace Stmt

open Layout

mutual

theorem lower_sits {R : Rules} {result : Ty} : (s : Stmt) → ∀ {S : Scopes} {L K : Layout}
    {start : Nat} {code : List Instruction}, s.Typed R result S → L.Sees R result S → L.Placed →
    s.lower L start = .ok (code, K) → Sits R.functions K.nextSlot (start + code.length) code
  | print n e, S, L, K, start, code, ht, hL, hp, h => by
    simp only [lower, bind_eq_ok] at h
    obtain ⟨value, hv, hc⟩ := h
    have ih := Expr.lower_sits hL hp e ht hv
    cases hc
    refine sits_append.2 ⟨sits_append.2 ⟨?_, boxing_sits _⟩, sits_cons.2 ⟨trivial, sits_nil⟩⟩
    exact ih.mono (Nat.le_refl _) (by simp only [List.length_append]; omega)
  | call n e, S, L, K, start, code, ht, hL, hp, h => by
    simp only [lower, bind_eq_ok] at h
    obtain ⟨value, hv, hc⟩ := h
    have ih := Expr.lower_sits hL hp e ht hv
    cases hc
    exact sits_append.2 ⟨ih.mono (Nat.le_refl _) (by simp), sits_cons.2 ⟨trivial, sits_nil⟩⟩
  | forEach n x e body, S, L, K, start, code, ht, hL, hp, h => by
    obtain ⟨he, t, htt, hbody⟩ := ht
    simp only [lower, bind_eq_ok, htt, Option.getD_some] at h
    obtain ⟨source, hs, ⟨inner, K'⟩, hi, hc⟩ := h
    have ihs := Expr.lower_sits hL hp e he hs
    have ihb := lowerAll_sits body hbody (hL.loop hp x t) (hp.loop x t) hi
    have hg := (lowerAll_behind hbody (hL.loop hp x t) (hp.loop x t) hi).grows
    have hg' := (((loop_grows x t).trans hg).leave hL.allocate hp.allocate).2.2
    have hslot : L.nextSlot < K'.nextSlot := nextSlot_pop K' ▸ hg'.nextSlot
    have hstore := declare_store_sits R.functions (start + code.length) hp.allocate.push x t
    cases hc
    simp only [sits_append, sits_cons, nextSlot_pop]
    refine ⟨⟨⟨⟨⟨?_, ⟨trivial, hslot, sits_nil⟩⟩, hslot, trivial, ?_, sits_nil⟩,
      ⟨⟨⟨hslot, trivial, sits_nil⟩, coercion_sits _ _⟩, ?_, sits_nil⟩⟩, ?_⟩, ?_, sits_nil⟩
    · refine ihs.mono ?_ (by simp only [List.length_append]; omega)
      exact Nat.le_trans (Nat.le_succ _) hslot
    · simp only [Instruction.Sits, List.length_append, List.length_cons, List.length_nil]
      omega
    · exact hstore.mono hg.nextSlot (Nat.le_refl _)
    · refine ihb.mono (Nat.le_refl _) ?_
      simp only [List.length_append, List.length_cons, List.length_nil]
      omega
    · simp only [Instruction.Sits, List.length_append, List.length_cons, List.length_nil]
      omega
  | cond n e yes none, S, L, K, start, code, ht, hL, hp, h => by
    obtain ⟨he, -, hyes⟩ := ht
    simp only [lower, bind_eq_ok] at h
    obtain ⟨test, htest, ⟨inner, K'⟩, hi, hc⟩ := h
    have iht := Expr.lower_sits hL hp e he htest
    have ihy := lowerAll_sits yes hyes hL.push hp.push hi
    have hg := (lowerAll_behind hyes hL.push hp.push hi).grows
    cases hc
    simp only [sits_append, sits_cons, nextSlot_pop]
    refine ⟨⟨⟨?_, ?_, sits_nil⟩, ?_⟩, ?_, sits_nil⟩
    · exact iht.mono hg.nextSlot (by simp only [List.length_append]; omega)
    · simp only [Instruction.Sits, List.length_append, List.length_cons, List.length_nil]
      omega
    · refine ihy.mono (Nat.le_refl _) ?_
      simp only [List.length_append, List.length_cons, List.length_nil]
      omega
    · simp only [Instruction.Sits, List.length_append, List.length_cons, List.length_nil]
      omega
  | cond n e yes (some no), S, L, K, start, code, ht, hL, hp, h => by
    obtain ⟨he, -, hyes, hno⟩ := ht
    simp only [lower, bind_eq_ok] at h
    obtain ⟨test, htest, ⟨inner, K₁⟩, hi, ⟨other, K₂⟩, ho, hc⟩ := h
    have iht := Expr.lower_sits hL hp e he htest
    have ihy := lowerAll_sits yes hyes hL.push hp.push hi
    have hg := (lowerAll_behind hyes hL.push hp.push hi).grows
    obtain ⟨h1, h2, h3⟩ := hg.leave hL hp
    have ihn := lowerAll_sits no hno h1.push h2.push ho
    have hg' := (lowerAll_behind hno h1.push h2.push ho).grows
    have hle : K₁.nextSlot ≤ K₂.nextSlot := nextSlot_pop K₁ ▸ hg'.nextSlot
    cases hc
    simp only [sits_append, sits_cons, nextSlot_pop]
    refine ⟨⟨⟨⟨?_, ?_, sits_nil⟩, ?_⟩, ?_, sits_nil⟩, ?_⟩
    · refine iht.mono (Nat.le_trans hg.nextSlot hle) ?_
      simp only [List.length_append]
      omega
    · simp only [Instruction.Sits, List.length_append, List.length_cons, List.length_nil]
      omega
    · refine ihy.mono hle ?_
      simp only [List.length_append, List.length_cons, List.length_nil]
      omega
    · simp only [Instruction.Sits, List.length_append, List.length_cons, List.length_nil]
      omega
    · refine ihn.mono (Nat.le_refl _) ?_
      simp only [List.length_append, List.length_cons, List.length_nil]
      omega
  | declare n x t e, S, L, K, start, code, ht, hL, hp, h => by
    simp only [lower, bind_eq_ok] at h
    obtain ⟨value, hv, hc⟩ := h
    have ih := Expr.lower_sits hL hp e ht.1 hv
    cases hc
    refine sits_append.2 ⟨sits_append.2 ⟨?_, coercion_sits _ _⟩, sits_cons.2 ⟨?_, sits_nil⟩⟩
    · refine ih.mono (declare_grows hp.ne_nil x _).nextSlot ?_
      simp only [List.length_append]
      omega
    · exact declare_store_sits _ _ hp x _
  | assign n x e, S, L, K, start, code, ht, hL, hp, h => by
    simp only [lower, bind_eq_ok] at h
    obtain ⟨v, hv, value, hval, hc⟩ := h
    have ih := Expr.lower_sits hL hp e ht.1 hval
    cases hc
    refine sits_append.2 ⟨sits_append.2 ⟨?_, coercion_sits _ _⟩, sits_cons.2 ⟨?_, sits_nil⟩⟩
    · exact ih.mono (Nat.le_refl _) (by simp only [List.length_append]; omega)
    · exact store_sits hp hv
  | define _ _ _, S, L, K, start, code, ht, hL, hp, h
  | invalid _ _, S, L, K, start, code, ht, hL, hp, h => by
    cases h
    exact sits_nil
  | ret _ none, S, L, K, start, code, ht, hL, hp, h => by
    cases h
    exact sits_cons.2 ⟨trivial, sits_nil⟩
  | ret n (some e), S, L, K, start, code, ht, hL, hp, h => by
    simp only [lower, bind_eq_ok] at h
    obtain ⟨value, hv, hc⟩ := h
    have ih := Expr.lower_sits hL hp e ht.2.1 hv
    cases hc
    refine sits_append.2 ⟨sits_append.2 ⟨?_, coercion_sits _ _⟩, sits_cons.2 ⟨trivial, sits_nil⟩⟩
    exact ih.mono (Nat.le_refl _) (by simp only [List.length_append]; omega)

theorem lowerAll_sits {R : Rules} {result : Ty} : (ss : List Stmt) → ∀ {S : Scopes} {L K : Layout}
    {start : Nat} {code : List Instruction}, TypedAll R result S ss → L.Sees R result S → L.Placed →
    lowerAll L start ss = .ok (code, K) → Sits R.functions K.nextSlot (start + code.length) code
  | [], S, L, K, start, code, ht, hL, hp, h => by
    cases h
    exact sits_nil
  | s :: ss, S, L, K, start, code, ht, hL, hp, h => by
    simp only [lowerAll, bind_eq_ok] at h
    obtain ⟨⟨one, K₁⟩, ho, ⟨more, K₂⟩, hm, hc⟩ := h
    have hb := lower_behind ht.1 hL hp ho
    have hb' := lowerAll_behind ht.2 hb.sees hb.placed hm
    have ih := lower_sits s ht.1 hL hp ho
    have ih' := lowerAll_sits ss ht.2 hb.sees hb.placed hm
    cases hc
    refine sits_append.2 ⟨ih.mono hb'.grows.nextSlot ?_, ih'.mono (Nat.le_refl _) ?_⟩ <;>
      simp only [List.length_append] <;> omega

end

end Stmt

end CatScript
