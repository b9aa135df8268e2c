import CatScript.Proofs.Code.Layouts

/-!
# Lowering well-typed programs

Lowering cannot fail on a well-typed tree, and the layout behind a statement sees what the
typing judgement says is in sight there (`Stmt.lower_total`). Whatever the statement, the layout
only grows (`Stmt.lower_grows`).
-/
namespace CatScript

open Typing Code

namespace Expr

mutual

theorem lower_total {R : Rules} {result : Ty} {S : Scopes} {L : Layout}
    (hL : L.Sees R result S) : (e : Expr) → e.Typed R S → ∀ start, ∃ code, e.lower L start = .ok code
  | int _ _, _, _ | str _ _, _, _ | bool _ _, _, _ | null _, _, _ => ⟨_, rfl⟩
  | var n x, ht, start => by
    obtain ⟨t, -, hx⟩ := ht
    obtain ⟨v, hv, -⟩ := hL.find hx
    exact ⟨[v.load], by simp only [lower, hv]; rfl⟩
  | unary n op e, ht, start => by
    obtain ⟨code, hc⟩ := lower_total hL e ht.2.2 start
    cases op <;> exact ⟨_, by simp only [lower, hc]; rfl⟩
  | binary n op l r, ht, start => by
    obtain ⟨left, hl⟩ := lower_total hL l ht.2.1 start
    obtain ⟨right, hr⟩ := lower_total hL r ht.2.2
      (start + (left ++ (scheme op (n.ty.getD .object) l.ty r.ty).boxing l.ty).length)
    exact ⟨_, by simp only [lower, bind_eq_ok]; exact ⟨_, hl, _, hr, rfl⟩⟩
  | paren n e, ht, start => by
    obtain ⟨code, hc⟩ := lower_total hL e ht.2 start
    exact ⟨code, by simp only [lower, hc]⟩
  | list n es, ht, start => by
    obtain ⟨code, hc⟩ := lowerItems_total hL es ht.2 start
    exact ⟨_, by simp only [lower, hc]; rfl⟩
  | call n f es symbol, ht, start => by
    obtain ⟨s, rfl, hs, -, ha⟩ := ht
    obtain ⟨code, hc⟩ := lowerArgs_total hL s.params es ha start
    rw [← hL.functions] at hs
    exact ⟨_, by
      simp only [lower, bind_eq_ok]
      exact ⟨s, Layout.findFunction_eq_ok.2 hs, code, hc, rfl⟩⟩

theorem lowerItems_total {R : Rules} {result : Ty} {S : Scopes} {L : Layout}
    (hL : L.Sees R result S) :
    (es : List Expr) → TypedAll R S es → ∀ start, ∃ code, lowerItems L start es = .ok code
  | [], _, _ => ⟨[], rfl⟩
  | e :: es, ht, start => by
    obtain ⟨code, hc⟩ := lower_total hL e ht.1 start
    obtain ⟨more, hm⟩ := lowerItems_total hL es ht.2 (start + (code ++ boxing e.ty).length)
    exact ⟨_, by simp only [lowerItems, bind_eq_ok]; exact ⟨_, hc, _, hm, rfl⟩⟩

theorem lowerArgs_total {R : Rules} {result : Ty} {S : Scopes} {L : Layout}
    (hL : L.Sees R result S) : (ps : List (String × Ty)) → (es : List Expr) → TypedArgs R S ps es →
    ∀ start, ∃ code, lowerArgs L start ps es = .ok code
  | [], [], _, _ => ⟨[], rfl⟩
  | p :: ps, e :: es, ht, start => by
    obtain ⟨code, hc⟩ := lower_total hL e ht.1 start
    obtain ⟨more, hm⟩ := lowerArgs_total hL ps es ht.2.2
      (start + (code ++ coercion e.ty p.2).length)
    exact ⟨_, by simp only [lowerArgs, bind_eq_ok]; exact ⟨_, hc, _, hm, rfl⟩⟩
  | [], _ :: _, ht, _ | _ :: _, [], ht, _ => ht.elim

end

end Expr

/-! ## Statements -/

namespace Code.Layout

/-- The layout of a loop's body: a slot for the iterator, then the variable in a scope of its own. -/
def loop (L : Layout) (x : String) (element : Ty) : Layout :=
  (L.allocate.2.push.declare x element).2

variable {L K : Layout} {R : Rules} {result : Ty} {S : Scopes}

theorem Placed.allocate (h : L.Placed) : L.allocate.2.Placed := h.of_scopes L.allocate_grows rfl

theorem Sees.allocate (h : L.Sees R result S) : L.allocate.2.Sees R result S :=
  h.of_scopes L.allocate_grows rfl

theorem Sees.loop (h : L.Sees R result S) (hp : L.Placed) (x : String) (t : Ty) :
    (L.loop x t).Sees R result ([(x, t)] :: S) :=
  h.allocate.push.declare hp.allocate.push x t

theorem Placed.loop (hp : L.Placed) (x : String) (t : Ty) : (L.loop x t).Placed := by
  refine hp.allocate.push.declare t fun scope hs => ?_
  cases hs
  rfl

theorem loop_grows (x : String) (t : Ty) : Grows L.allocate.2.push (L.loop x t) :=
  declare_grows (List.cons_ne_nil _ _) x t

/-- What is behind a loop or a branch sees what was in sight before it. -/
theorem Grows.leave (h : Grows L.push K) (hL : L.Sees R result S) (hp : L.Placed) :
    K.pop.Sees R result S ∧ K.pop.Placed ∧ Grows L K.pop :=
  ⟨hL.of_scopes (h.pop hp.ne_nil) (h.scopes_pop hp.ne_nil),
    hp.of_scopes (h.pop hp.ne_nil) (h.scopes_pop hp.ne_nil), h.pop hp.ne_nil⟩

/-- What lowering says about the layout behind statements that see `S` there. -/
structure Behind (L K : Layout) (R : Rules) (result : Ty) (S : Scopes) : Prop where
  sees : K.Sees R result S
  placed : K.Placed
  grows : Grows L K

theorem Behind.rfl (hL : L.Sees R result S) (hp : L.Placed) : Behind L L R result S :=
  ⟨hL, hp, .refl L⟩

theorem Sees.head_none (h : L.Sees R result S) {x : String}
    (hx : ∀ scope ∈ S.head?, scope.find? x = none) :
    ∀ scope ∈ L.scopes.head?, scope.find? x = none := by
  intro scope hs
  have ht := h.types
  rw [Layout.types] at ht
  subst ht
  have := hx (scope.mapValues Variable.ty) (by simp [List.head?_map, Option.mem_def.1 hs])
  simpa using this

end Code.Layout

namespace Stmt

open Layout

mutual

/-- The scopes that are opened in a statement are gone behind it. -/
theorem lower_grows : (s : Stmt) → ∀ {L K : Layout} {start : Nat} {code : List Instruction},
    L.scopes ≠ [] → s.lower L start = .ok (code, K) → Grows L K
  | print _ e, L, K, start, code, _, h | call _ e, L, K, start, code, _, h
  | ret _ (some e), L, K, start, code, _, h => by
    simp only [lower, bind_eq_ok] at h
    obtain ⟨_, -, hc⟩ := h
    cases hc
    exact .refl L
  | assign _ x e, L, K, start, code, _, h => by
    simp only [lower, bind_eq_ok] at h
    obtain ⟨_, -, _, -, hc⟩ := h
    cases hc
    exact .refl L
  | declare _ x t e, L, K, start, code, hL, h => by
    simp only [lower, bind_eq_ok] at h
    obtain ⟨_, -, hc⟩ := h
    cases hc
    exact declare_grows hL x _
  | forEach _ x e body, L, K, start, code, hL, h => by
    simp only [lower, bind_eq_ok] at h
    obtain ⟨_, -, ⟨inner, M⟩, hinner, hc⟩ := h
    cases hc
    have hloop := loop_grows (L := L) x (e.ty.element?.getD .object)
    have hbody := lowerAll_grows body (hloop.ne_nil (List.cons_ne_nil _ _)) hinner
    exact L.allocate_grows.trans ((hloop.trans hbody).pop hL)
  | cond _ e yes none, L, K, start, code, hL, h => by
    simp only [lower, bind_eq_ok] at h
    obtain ⟨_, -, ⟨inner, M⟩, hinner, hc⟩ := h
    cases hc
    exact (lowerAll_grows yes (List.cons_ne_nil _ _) hinner).pop hL
  | cond _ e yes (some no), L, K, start, code, hL, h => by
    simp only [lower, bind_eq_ok] at h
    obtain ⟨_, -, ⟨inner, M⟩, hinner, ⟨other, N⟩, hother, hc⟩ := h
    cases hc
    have hyes := (lowerAll_grows yes (List.cons_ne_nil _ _) hinner).pop hL
    exact hyes.trans ((lowerAll_grows no (List.cons_ne_nil _ _) hother).pop (hyes.ne_nil hL))
  | define _ _ _, L, K, start, code, _, h | ret _ none, L, K, start, code, _, h
  | invalid _ _, L, K, start, code, _, h => by
    cases h
    exact .refl L

theorem lowerAll_grows : (ss : List Stmt) → ∀ {L K : Layout} {start : Nat}
    {code : List Instruction}, L.scopes ≠ [] → lowerAll L start ss = .ok (code, K) → Grows L K
  | [], L, K, start, code, _, h => by
    cases h
    exact .refl L
  | s :: ss, L, K, start, code, hL, h => by
    simp only [lowerAll, bind_eq_ok] at h
    obtain ⟨⟨first, M⟩, hs, ⟨more, N⟩, hss, hc⟩ := h
    cases hc
    have hfirst := lower_grows s hL hs
    exact hfirst.trans (lowerAll_grows ss (hfirst.ne_nil hL) hss)

end

mutual

/-- A well-typed statement can be lowered. -/
theorem lower_total {R : Rules} {result : Ty} : (s : Stmt) → ∀ {S : Scopes} {L : Layout},
    s.Typed R result S → L.Sees R result S → L.Placed → ∀ start, ∃ code K,
      s.lower L start = .ok (code, K) ∧ Behind L K R result (s.extend S)
  | print n e, S, L, ht, hL, hp, start => by
    obtain ⟨code, hc⟩ := Expr.lower_total hL e ht start
    exact ⟨_, L, by simp only [lower, hc]; rfl, .rfl hL hp⟩
  | call n e, S, L, ht, hL, hp, start => by
    obtain ⟨code, hc⟩ := Expr.lower_total hL e ht start
    exact ⟨_, L, by simp only [lower, hc]; rfl, .rfl hL hp⟩
  | forEach n x e body, S, L, ht, hL, hp, start => by
    obtain ⟨he, t, htt, hbody⟩ := ht
    obtain ⟨source, hsource⟩ := Expr.lower_total hL e he start
    obtain ⟨inner, K, hinner, hK⟩ := lowerAll_total body hbody (hL.loop hp x t) (hp.loop x t)
      (start + (source ++ [Instruction.getIterator, .storeLocal L.nextSlot]).length + 3 +
        ([Instruction.loadLocal L.nextSlot, .next] ++ coercion .object t ++
          [(L.allocate.2.push.declare x t).1.store]).length)
    obtain ⟨h1, h2, h3⟩ := ((loop_grows x t).trans hK.grows).leave hL.allocate hp.allocate
    exact ⟨_, K.pop, by
      simp only [lower, bind_eq_ok, htt, Option.getD_some]
      exact ⟨source, hsource, (inner, K), hinner, rfl⟩,
      h1, h2, L.allocate_grows.trans h3⟩
  | cond n e yes none, S, L, ht, hL, hp, start => by
    obtain ⟨he, -, hyes⟩ := ht
    obtain ⟨test, htest⟩ := Expr.lower_total hL e he start
    obtain ⟨inner, K, hinner, hK⟩ := lowerAll_total yes hyes hL.push hp.push (start + test.length + 1)
    obtain ⟨h1, h2, h3⟩ := hK.grows.leave hL hp
    exact ⟨_, K.pop, by
      simp only [lower, bind_eq_ok]
      exact ⟨test, htest, (inner, K), hinner, rfl⟩,
      h1, h2, h3⟩
  | cond n e yes (some no), S, L, ht, hL, hp, start => by
    obtain ⟨he, -, hyes, hno⟩ := ht
    obtain ⟨test, htest⟩ := Expr.lower_total hL e he start
    obtain ⟨inner, K, hinner, hK⟩ := lowerAll_total yes hyes hL.push hp.push (start + test.length + 1)
    obtain ⟨h1, h2, h3⟩ := hK.grows.leave hL hp
    obtain ⟨other, K', hother, hK'⟩ := lowerAll_total no hno h1.push h2.push
      (start + test.length + 1 + inner.length + 1)
    obtain ⟨h1', h2', h3'⟩ := hK'.grows.leave h1 h2
    exact ⟨_, K'.pop, by
      simp only [lower, bind_eq_ok]
      exact ⟨test, htest, (inner, K), hinner, (other, K'), hother, rfl⟩,
      h1', h2', h3.trans h3'⟩
  | declare n x t e, S, L, ht, hL, hp, start => by
    obtain ⟨he, -, hx, -⟩ := ht
    obtain ⟨code, hc⟩ := Expr.lower_total hL e he start
    exact ⟨_, (L.declare x (declaredTy t e)).2, by
      simp only [lower, bind_eq_ok]
      exact ⟨code, hc, rfl⟩,
      hL.declare hp x _,
      hp.declare _ (hL.head_none hx), declare_grows hp.ne_nil x _⟩
  | assign n x e, S, L, ht, hL, hp, start => by
    obtain ⟨he, t, hx, -⟩ := ht
    obtain ⟨v, hv, -⟩ := hL.find hx
    obtain ⟨code, hc⟩ := Expr.lower_total hL e he start
    exact ⟨_, L, by
      simp only [lower, bind_eq_ok]
      exact ⟨v, hv, code, hc, rfl⟩,
      .rfl hL hp⟩
  | define _ _ _, S, L, _, hL, hp, _ | ret _ none, S, L, _, hL, hp, _
  | invalid _ _, S, L, _, hL, hp, _ => ⟨_, L, rfl, .rfl hL hp⟩
  | ret n (some e), S, L, ht, hL, hp, start => by
    obtain ⟨code, hc⟩ := Expr.lower_total hL e ht.2.1 start
    exact ⟨_, L, by simp only [lower, hc]; rfl, .rfl hL hp⟩

theorem lowerAll_total {R : Rules} {result : Ty} : (ss : List Stmt) → ∀ {S : Scopes} {L : Layout},
    TypedAll R result S ss → L.Sees R result S → L.Placed → ∀ start, ∃ code K,
      lowerAll L start ss = .ok (code, K) ∧ Behind L K R result (extendAll S ss)
  | [], S, L, _, hL, hp, _ => ⟨[], L, rfl, .rfl hL hp⟩
  | s :: ss, S, L, ht, hL, hp, start => by
    obtain ⟨code, K, hc, hK⟩ := lower_total s ht.1 hL hp start
    obtain ⟨more, K', hm, hK'⟩ := lowerAll_total ss ht.2 hK.sees hK.placed (start + code.length)
    exact ⟨_, K', by
      simp only [lowerAll, bind_eq_ok]
      exact ⟨(code, K), hc, (more, K'), hm, rfl⟩,
      hK'.sees, hK'.placed, hK.grows.trans hK'.grows⟩

end

/-- The layout behind a well-typed statement. -/
theorem lower_behind {R : Rules} {result : Ty} {S : Scopes} {L K : Layout} {s : Stmt} {start : Nat}
    {code : List Instruction} (ht : s.Typed R result S) (hL : L.Sees R result S) (hp : L.Placed)
    (h : s.lower L start = .ok (code, K)) : Behind L K R result (s.extend S) := by
  obtain ⟨code', K', h', hK⟩ := lower_total s ht hL hp start
  rw [h] at h'
  cases h'
  exact hK

theorem lowerAll_behind {R : Rules} {result : Ty} {S : Scopes} {L K : Layout} {ss : List Stmt}
    {start : Nat} {code : List Instruction} (ht : TypedAll R result S ss)
    (hL : L.Sees R result S) (hp : L.Placed) (h : lowerAll L start ss = .ok (code, K)) :
    Behind L K R result (extendAll S ss) := by
  obtain ⟨code', K', h', hK⟩ := lowerAll_total ss ht hL hp start
  rw [h] at h'
  cases h'
  exact hK

end Stmt

end CatScript
