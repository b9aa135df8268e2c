import CatScript.Proofs.Eval.Watch

/-!
# Watching changes nothing

A watched run ends as the run itself does (`Program.run_eq_watch`). A scene shows a store: the
scopes of all its calls one behind the other, with the globals last. An action on stores mirrors
an action on scenes if they agree on every scene and the store it shows, and the two evaluators
are built from parts that mirror each other.
-/
namespace CatScript

open Typing

namespace Eval

namespace Scene

/-- How many scopes lie around the running call. -/
def base (σ : Scene) : Nat := if σ.callers = [] then 0 else σ.callers.flatten.length + 1

/-- The store that a scene shows, in a program with the given functions. -/
def store (functions : Table Function) (σ : Scene) : Store :=
  ⟨(σ.locals ++ σ.callers.flatten ++ [σ.globals]).map (Table.mapValues Binding.value), σ.base,
    functions, σ.output⟩

/-- A call has a scope of its own. -/
def Active (σ : Scene) : Prop := σ.callers ≠ [] → σ.locals ≠ []

/-- `τ` has the calls and scopes of `σ`, with whatever in them. -/
structure Keeps (σ τ : Scene) : Prop where
  callers : τ.callers = σ.callers
  locals : τ.locals.length = σ.locals.length

variable {σ τ υ : Scene} {functions : Table Function}

theorem Keeps.refl (σ : Scene) : Keeps σ σ := ⟨rfl, rfl⟩

theorem Keeps.trans (h : Keeps σ τ) (h' : Keeps τ υ) : Keeps σ υ :=
  ⟨h'.callers.trans h.callers, h'.locals.trans h.locals⟩

theorem Keeps.active (h : Keeps σ τ) (hσ : σ.Active) : τ.Active := by
  intro hc
  rw [h.callers] at hc
  have := List.length_pos_iff.2 (hσ hc)
  rw [← h.locals] at this
  exact List.length_pos_iff.1 this

private theorem length_scopes (σ : Scene) :
    (σ.store functions).scopes.length = σ.locals.length + σ.callers.flatten.length + 1 := by
  simp only [store, List.length_map, List.length_append, List.length_singleton]

/-- The scopes of the running call and those around it. -/
theorem split_scopes (functions : Table Function) (σ : Scene) (hc : σ.callers ≠ []) :
    (σ.store functions).locals = σ.locals.map (Table.mapValues Binding.value) ∧
      (σ.store functions).outer =
        (σ.callers.flatten ++ [σ.globals]).map (Table.mapValues Binding.value) := by
  have hb : (σ.store functions).scopes.length - (σ.store functions).base = σ.locals.length := by
    rw [length_scopes]
    simp only [store, base, if_neg hc]
    omega
  unfold Store.locals Store.outer
  rw [hb]
  simp only [store, List.append_assoc, List.map_append]
  constructor
  · exact List.take_left' (by simp)
  · exact List.drop_left' (by simp)

theorem split_main (functions : Table Function) (σ : Scene) (hc : σ.callers = []) :
    (σ.store functions).locals =
      (σ.locals ++ [σ.globals]).map (Table.mapValues Binding.value) ∧
      (σ.store functions).outer = [] := by
  simp only [Store.locals, Store.outer, store, base, hc, if_true, List.flatten_nil,
    List.append_nil, Nat.sub_zero, List.take_length, List.drop_length, and_self]

theorem find?_store (σ : Scene) (x : String) :
    (σ.store functions).find? x = (σ.find? x).map Binding.value := by
  unfold Store.find? Scene.find?
  by_cases hc : σ.callers = []
  · rw [(split_main functions σ hc).1, Table.findIn?_mapValues]
    simp [store, base, hc]
  · have hl : (σ.store functions).scopes.getLast? = some (σ.globals.mapValues Binding.value) := by
      simp [store]
    have hb : (σ.store functions).base > 0 := by
      simp [store, base, hc]
    rw [(split_scopes functions σ hc).1, if_pos hb, hl, Table.findIn?_append, Table.findIn?_mapValues]
    cases Table.findIn? x σ.locals <;> simp

theorem define_store (hσ : σ.Active) (x : String) (b : Binding) :
    (σ.store functions).define x b.value = (σ.define x b).store functions := by
  cases hl : σ.locals with
  | nil =>
    have hc : σ.callers = [] := by
      by_cases hc : σ.callers = []
      · exact hc
      · exact absurd hl (hσ hc)
    simp [Store.define, Scene.define, store, hl, hc, base]
  | cons scope scopes => simp [Store.define, Scene.define, store, hl, base]

private theorem assignLast?_append (x : String) (v : Value) (scopes : List (Table Value))
    (last : Table Value) :
    Store.assignLast? x v (scopes ++ [last]) =
      if last.contains x then some (scopes ++ [last.insert x v]) else none := by
  induction scopes with
  | nil => rfl
  | cons scope scopes ih =>
    cases scopes with
    | nil =>
      simp only [List.cons_append, List.nil_append, Store.assignLast?]
      split <;> rfl
    | cons next scopes =>
      simp only [List.cons_append, Store.assignLast?] at ih ⊢
      rw [ih]
      split <;> rfl

theorem assign?_store (σ : Scene) (x : String) (b : Binding) :
    (σ.store functions).assign? x b.value = (σ.assign? x b).map (store functions) := by
  unfold Store.assign? Scene.assign?
  by_cases hc : σ.callers = []
  · obtain ⟨h1, h2⟩ := split_main functions σ hc
    rw [h1, h2, Table.assignIn?_mapValues, Table.assignIn?_append]
    cases Table.assignIn? x b σ.locals with
    | some locals => simp [store, hc, base]
    | none =>
      by_cases hx : σ.globals.contains x = true
      · simp [Table.assignIn?, hx, store, hc, base]
      · simp [Table.assignIn?, hx, store, hc, base]
  · obtain ⟨h1, h2⟩ := split_scopes functions σ hc
    rw [h1, h2, Table.assignIn?_mapValues]
    cases Table.assignIn? x b σ.locals with
    | some locals => simp [store, base]
    | none =>
      have hb : (σ.store functions).base > 0 := by
        simp [store, base, hc]
      have hs : (σ.store functions).scopes =
          (σ.locals ++ σ.callers.flatten).map (Table.mapValues Binding.value) ++
            [σ.globals.mapValues Binding.value] := by
        simp [store]
      simp only [Option.map_none, if_pos hb]
      rw [hs, assignLast?_append, Table.contains_mapValues]
      split <;> simp [store, base]

theorem push_store (σ : Scene) :
    (σ.store functions).push = store functions { σ with locals := [] :: σ.locals } := by
  simp [Store.push, store, base]

/-- Leaving a scope that was opened in `σ`. -/
theorem pop_store (hσ : σ.Active) (hk : Keeps { σ with locals := [] :: σ.locals } τ) :
    (τ.store functions).pop = store functions { τ with locals := τ.locals.tail } := by
  obtain ⟨scope, scopes, hl⟩ : ∃ scope scopes, τ.locals = scope :: scopes :=
    List.exists_cons_of_length_pos (by rw [hk.locals]; simp)
  have hlen : scopes.length = σ.locals.length := by
    have := hk.locals
    rw [hl] at this
    simpa using this
  have hgt : (τ.store functions).scopes.length > (τ.store functions).base + 1 := by
    rw [length_scopes, hl]
    simp only [store, base]
    split
    · simp only [List.length_cons]; omega
    · next hc =>
      have := List.length_pos_iff.2 (hσ (by rw [hk.callers] at hc; exact hc))
      simp only [List.length_cons]
      omega
  unfold Store.pop
  rw [if_pos hgt]
  simp [store, hl, base]

theorem enter_store (σ : Scene) (params : Table Binding) :
    (σ.store functions).enter (params.mapValues Binding.value) =
      store functions { σ with locals := [params], callers := σ.locals :: σ.callers } := by
  simp only [Store.enter, store, base, List.length_map, List.length_append, List.length_singleton,
    List.flatten_cons, List.cons_append, List.nil_append, List.map_cons, reduceCtorEq, if_false]

/-- Ending a call that was made from `σ`. -/
theorem leave_store (hk : τ.callers = σ.locals :: σ.callers) :
    (τ.store functions).leave (σ.store functions).base =
      store functions { τ with locals := σ.locals, callers := σ.callers } := by
  have hc : τ.callers ≠ [] := by simp [hk]
  have ho := (split_scopes functions τ hc).2
  unfold Store.outer at ho
  unfold Store.leave
  rw [ho]
  simp [store, hk, base]

end Scene

/-! ## Actions -/

open Scene

/-- The end of a run from `σ` and that of its mirror, which gives what `f` makes of a value. -/
def Agree {α β : Type} (functions : Table Function) (f : α → β) (σ : Scene) :
    Except Halt (α × Scene) → EStateM.Result Halt Store β → Prop
  | .ok (v, τ), .ok v' s => v' = f v ∧ s = τ.store functions ∧ Keeps σ τ
  | .error h, .error h' _ => h' = h
  | _, _ => False

theorem Agree.of_keeps {α β : Type} {functions : Table Function} {f : α → β} {σ τ : Scene}
    {r : Except Halt (α × Scene)} {s : EStateM.Result Halt Store β}
    (h : Agree functions f τ r s) (hk : Keeps σ τ) : Agree functions f σ r s := by
  cases r with
  | error e =>
    cases s with
    | error e' s => exact h
    | ok v s => exact h.elim
  | ok a =>
    cases s with
    | error e s => exact h.elim
    | ok v s => exact ⟨h.1, h.2.1, hk.trans h.2.2⟩

/-- The actions do the same on every scene and the store it shows, and the one gives what `f`
makes of what the other gives. -/
def MirrorsWith {α β : Type} (functions : Table Function) (f : α → β) (a : Action β)
    (w : Watched α) : Prop :=
  ∀ σ : Scene, σ.Active → Agree functions f σ (w σ).result (a (σ.store functions))

/-- The actions do the same and give the same. -/
def Mirrors {α : Type} (functions : Table Function) (a : Action α) (w : Watched α) : Prop :=
  MirrorsWith functions (fun v => v) a w

theorem MirrorsWith.bind {α β γ δ : Type} {functions : Table Function} {f : α → β} {g : γ → δ}
    {a : Action β} {w : Watched α} {k : β → Action δ} {l : α → Watched γ}
    (ha : MirrorsWith functions f a w) (hk : ∀ v, MirrorsWith functions g (k (f v)) (l v)) :
    MirrorsWith functions g (a >>= k) (w >>= l) := by
  intro σ hσ
  have ha := ha σ hσ
  show Agree functions g σ (Watched.bind w l σ).result (EStateM.bind a k (σ.store functions))
  unfold Watched.bind EStateM.bind
  cases hw : (w σ).result with
  | error h =>
    rw [hw] at ha
    cases hs : a (σ.store functions) with
    | ok v s => rw [hs] at ha; exact ha.elim
    | error h' s => rw [hs] at ha; exact ha
  | ok r =>
    obtain ⟨v, τ⟩ := r
    rw [hw] at ha
    cases hs : a (σ.store functions) with
    | error h' s => rw [hs] at ha; exact ha.elim
    | ok v' s =>
      rw [hs] at ha
      obtain ⟨rfl, rfl, hkeeps⟩ := ha
      exact (hk v τ (hkeeps.active hσ)).of_keeps hkeeps

namespace Mirrors

variable {α β : Type} {functions : Table Function}

theorem pure (v : α) : Mirrors functions (pure v) (pure v) := fun σ _ => ⟨rfl, rfl, .refl σ⟩

theorem fail {f : Fault} : Mirrors functions (Eval.fail f : Action α) (Watched.fail f) :=
  fun _ _ => rfl

theorem ofExcept (r : Except Fault α) :
    Mirrors functions (Action.ofExcept r) (Watched.ofExcept r) := by
  cases r with
  | ok v => exact pure v
  | error f => exact fail

theorem bind {a : Action α} {w : Watched α} {f : α → Action β} {g : α → Watched β}
    (ha : Mirrors functions a w) (hf : ∀ v, Mirrors functions (f v) (g v)) :
    Mirrors functions (a >>= f) (w >>= g) :=
  MirrorsWith.bind ha hf

/-- Writing down an event does nothing. -/
theorem record {a : Action α} {w : Watched α} (event : Event) (h : Mirrors functions a w) :
    Mirrors functions a (do Watched.record event; w) := h

theorem value (e : Expr) (v : Value) : Mirrors functions (Pure.pure v) (Watched.value e v) :=
  record _ (pure v)

/-- An action that writes its value down. -/
theorem andValue {a : Action Value} {w : Watched Value} (e : Expr) (h : Mirrors functions a w) :
    Mirrors functions a (do let v ← w; Watched.value e v) := by
  have := bind h fun v => value e v
  rwa [bind_pure] at this

theorem change {f : Store → Store} {g : Scene → Scene}
    (h : ∀ σ : Scene, σ.Active → f (σ.store functions) = (g σ).store functions)
    (hk : ∀ σ, Keeps σ (g σ)) : Mirrors functions (modify f) (Watched.modify g) :=
  fun σ hσ => ⟨rfl, h σ hσ, hk σ⟩

theorem lookUp (access : Access) (x : String) :
    MirrorsWith functions Binding.value (Eval.lookUp x) (Watched.lookUp access x) := by
  intro σ hσ
  rw [lookUp_apply, find?_store]
  show Agree functions _ σ (Watched.find x σ).result _
  unfold Watched.find
  cases σ.find? x with
  | none => exact rfl
  | some b => exact ⟨rfl, rfl, .refl σ⟩

theorem lookUpFunction (symbol : String) :
    Mirrors functions (Eval.lookUpFunction symbol) (Watched.lookUpFunction functions symbol) := by
  intro σ hσ
  have hfunctions : (σ.store functions).functions = functions := rfl
  rw [lookUpFunction_apply, hfunctions]
  unfold Watched.lookUpFunction
  cases functions.find? symbol with
  | none => exact fail σ hσ
  | some f => exact pure f σ hσ

theorem keeps_define (σ : Scene) (x : String) (b : Binding) : Keeps σ (σ.define x b) := by
  unfold Scene.define
  cases h : σ.locals with
  | nil => exact ⟨rfl, by simp [h]⟩
  | cons scope scopes => exact ⟨rfl, by simp [h]⟩

theorem define (x : String) (b : Binding) :
    Mirrors functions (modify (Store.define · x b.value)) (Watched.define x b) := by
  have h : Mirrors functions (modify (Store.define · x b.value))
      (Watched.modify (Scene.define · x b)) :=
    change (fun σ hσ => define_store hσ x b) fun σ => keeps_define σ x b
  exact bind h fun _ => record _ (pure ())

theorem print (v : Value) : Mirrors functions (modify (Store.print · v))
    (Watched.modify fun σ => { σ with output := v.display :: σ.output }) :=
  change (fun _ _ => rfl) fun _ => ⟨rfl, rfl⟩

theorem isSome_assign? (σ : Scene) (x : String) (b : Binding) :
    (σ.assign? x b).isSome = (σ.find? x).isSome := by
  unfold Scene.assign? Scene.find?
  have h := Table.isSome_assignIn? x b σ.locals
  rw [Table.findIn?_append]
  cases ha : Table.assignIn? x b σ.locals with
  | some locals =>
    rw [ha] at h
    cases hf : Table.findIn? x σ.locals with
    | none => rw [hf] at h; cases h
    | some c => rfl
  | none =>
    rw [ha] at h
    cases hf : Table.findIn? x σ.locals with
    | some c => rw [hf] at h; cases h
    | none => cases hg : σ.globals.find? x <;> simp [Table.contains, hg]

theorem keeps_assign? {σ τ : Scene} {x : String} {b : Binding} (h : σ.assign? x b = some τ) :
    Keeps σ τ := by
  unfold Scene.assign? at h
  split at h
  · next locals hl => cases h; exact ⟨rfl, Table.length_assignIn? hl⟩
  · split at h
    · cases h; exact ⟨rfl, rfl⟩
    · cases h

theorem assign (x : String) (v : Value) :
    Mirrors functions (Eval.assign x v) (Watched.assign x v) := by
  intro σ hσ
  rw [assign_apply]
  have hfind : (Watched.lookUp .write x σ).result = (Watched.find x σ).result := rfl
  show Agree functions _ σ (Watched.bind (Watched.lookUp .write x) _ σ).result _
  unfold Watched.bind
  rw [hfind]
  unfold Watched.find
  cases hf : σ.find? x with
  | none =>
    have ha : σ.assign? x ⟨.object, v⟩ = none := by
      have := isSome_assign? σ x ⟨.object, v⟩
      simpa [hf] using this
    rw [assign?_store σ x ⟨.object, v⟩, ha]
    exact fail σ hσ
  | some b =>
    obtain ⟨τ, ha⟩ : ∃ τ, σ.assign? x ⟨b.ty, v⟩ = some τ := by
      rw [← Option.isSome_iff_exists, isSome_assign?, hf]
      rfl
    rw [assign?_store σ x ⟨b.ty, v⟩, ha]
    refine ⟨rfl, ?_, ?_⟩
    · simp only [ha, Option.getD_some]
    · simp only [ha, Option.getD_some]
      exact keeps_assign? ha

theorem inScope {a : Action α} {w : Watched α} (h : Mirrors functions a w) :
    Mirrors functions (Eval.inScope a) (Watched.inScope w) := by
  intro σ hσ
  have ha := h { σ with locals := [] :: σ.locals } (by intro _; simp)
  rw [← push_store] at ha
  unfold Eval.inScope Eval.ending Watched.inScope Report.ending
  simp only
  cases hw : (w { σ with locals := [] :: σ.locals }).result with
  | error e =>
    rw [hw] at ha
    cases hs : a (σ.store functions).push with
    | ok v s => rw [hs] at ha; exact ha.elim
    | error e' s => rw [hs] at ha; exact ha
  | ok r =>
    obtain ⟨v, τ⟩ := r
    rw [hw] at ha
    cases hs : a (σ.store functions).push with
    | error e' s => rw [hs] at ha; exact ha.elim
    | ok v' s =>
      rw [hs] at ha
      obtain ⟨rfl, rfl, hk⟩ := ha
      refine ⟨rfl, pop_store hσ hk, hk.callers, ?_⟩
      have := hk.locals
      simp only [List.length_tail, this, List.length_cons, Nat.add_one_sub_one]

theorem inCall {a : Action α} {w : Watched α} (params : Table Binding) (h : Mirrors functions a w) :
    Mirrors functions (Eval.inCall (params.mapValues Binding.value) a)
      (Watched.inCall params w) := by
  intro σ hσ
  have ha := h { σ with locals := [params], callers := σ.locals :: σ.callers } (by intro _; simp)
  rw [← enter_store] at ha
  unfold Eval.inCall Eval.ending Watched.inCall Report.ending
  simp only
  cases hw : (w { σ with locals := [params], callers := σ.locals :: σ.callers }).result with
  | error e =>
    rw [hw] at ha
    cases hs : a ((σ.store functions).enter (params.mapValues Binding.value)) with
    | ok v s => rw [hs] at ha; exact ha.elim
    | error e' s => rw [hs] at ha; exact ha
  | ok r =>
    obtain ⟨v, τ⟩ := r
    rw [hw] at ha
    cases hs : a ((σ.store functions).enter (params.mapValues Binding.value)) with
    | error e' s => rw [hs] at ha; exact ha.elim
    | ok v' s =>
      rw [hs] at ha
      obtain ⟨rfl, rfl, hk⟩ := ha
      exact ⟨rfl, leave_store hk.callers, rfl, rfl⟩

theorem items (v : Value) : Mirrors functions (Eval.items v) (Watched.items v) := by
  cases v with
  | list vs => exact pure vs
  | _ => exact fail

theorem forItems (x : String) (t : Ty) {a : Action Flow} {w : Watched Flow}
    (h : Mirrors functions a w) (vs : List Value) :
    Mirrors functions (Eval.forItems x a vs) (Watched.forItems x t w vs) := by
  induction vs with
  | nil => exact pure _
  | cons v vs ih =>
    simp only [Eval.forItems, Watched.forItems]
    refine bind (inScope (bind (define x ⟨t, v⟩) fun _ => h)) fun flow => ?_
    cases flow with
    | normal => exact ih
    | returned r => exact pure _

end Mirrors

/-- A call and its watched form do the same. -/
def MirrorsCalls (functions : Table Function) (invoke : Eval.Invoke) (watched : Watched.Invoke) :
    Prop :=
  ∀ f params, Mirrors functions (invoke f (params.mapValues Binding.value)) (watched f params)

end Eval

open Eval

/-! ## Expressions and statements -/

namespace Expr

mutual

theorem watch_mirrors {functions : Table Function} {invoke : Eval.Invoke}
    {watched : Watched.Invoke} (hc : MirrorsCalls functions invoke watched) :
    (e : Expr) → Mirrors functions (e.eval invoke) (e.watch functions watched)
  | int n v | str n v | bool n v | null n => by
    simp only [eval, watch]
    exact .value _ _
  | var n x => by
    simp only [eval, watch]
    have h : Mirrors functions (Eval.lookUp x >>= pure) _ :=
      (Mirrors.lookUp .read x).bind fun b => Mirrors.value (var n x) b.value
    rwa [bind_pure] at h
  | unary n op e => by
    simp only [eval, watch]
    exact (watch_mirrors hc e).bind fun v => (Mirrors.ofExcept _).andValue _
  | binary n op l r => by
    simp only [eval, watch]
    exact (watch_mirrors hc l).bind fun v => (Mirrors.ofExcept _).bind fun _ =>
      (watch_mirrors hc r).bind fun w => (Mirrors.ofExcept _).andValue _
  | paren n e => by
    simp only [eval, watch]
    exact (watch_mirrors hc e).andValue _
  | list n es => by
    simp only [eval, watch]
    exact (watchAll_mirrors hc es).bind fun vs => .value _ _
  | call n f es symbol => by
    simp only [eval, watch]
    refine (Mirrors.lookUpFunction _).bind fun function => ?_
    refine (watchArgs_mirrors hc function.header.params es).bind fun params => ?_
    rw [← Table.mapValues_ofList]
    exact (hc function _).andValue _

theorem watchAll_mirrors {functions : Table Function} {invoke : Eval.Invoke}
    {watched : Watched.Invoke} (hc : MirrorsCalls functions invoke watched) :
    (es : List Expr) → Mirrors functions (evalAll invoke es) (watchAll functions watched es)
  | [] => .pure _
  | e :: es => by
    simp only [evalAll, watchAll]
    exact (watch_mirrors hc e).bind fun v => (watchAll_mirrors hc es).bind fun vs => .pure _

theorem watchArgs_mirrors {functions : Table Function} {invoke : Eval.Invoke}
    {watched : Watched.Invoke} (hc : MirrorsCalls functions invoke watched) :
    (ps : List Param) → (es : List Expr) →
      MirrorsWith functions (List.map fun b => (b.1, b.2.value)) (evalArgs invoke ps es)
        (watchArgs functions watched ps es)
  | [], [] | [], _ :: _ | _ :: _, [] => fun σ _ => ⟨rfl, rfl, .refl σ⟩
  | p :: ps, e :: es => by
    simp only [evalArgs, watchArgs]
    refine MirrorsWith.bind (watch_mirrors hc e) fun v => ?_
    exact (watchArgs_mirrors hc ps es).bind fun more σ _ => ⟨rfl, rfl, .refl σ⟩

end

end Expr

namespace Stmt

mutual

theorem watch_mirrors {functions : Table Function} {invoke : Eval.Invoke}
    {watched : Watched.Invoke} (hc : MirrorsCalls functions invoke watched) (result : Ty) :
    (s : Stmt) → Mirrors functions (s.exec invoke) (s.watch functions watched result)
  | print n e => by
    simp only [exec, watch]
    exact (Expr.watch_mirrors hc e).bind fun v => (Mirrors.print v).bind fun _ => .pure _
  | forEach n x e body => by
    simp only [exec, watch]
    exact (Expr.watch_mirrors hc e).bind fun v => Mirrors.record _
      ((Mirrors.items v).bind fun vs => .forItems x _ (watchAll_mirrors hc result body) vs)
  | cond n e yes none => by
    simp only [exec, watch]
    refine (Expr.watch_mirrors hc e).bind fun v => (Mirrors.ofExcept _).bind fun b => ?_
    cases b with
    | true => exact .inScope (watchAll_mirrors hc result yes)
    | false => exact .pure _
  | cond n e yes (some no) => by
    simp only [exec, watch]
    refine (Expr.watch_mirrors hc e).bind fun v => (Mirrors.ofExcept _).bind fun b => ?_
    cases b with
    | true => exact .inScope (watchAll_mirrors hc result yes)
    | false => exact .inScope (watchAll_mirrors hc result no)
  | declare n x none e => by
    simp only [exec, watch]
    exact (Expr.watch_mirrors hc e).bind fun v => (Mirrors.define x ⟨e.ty, v⟩).bind fun _ => .pure _
  | declare n x (some t) e => by
    simp only [exec, watch]
    exact (Expr.watch_mirrors hc e).bind fun v => Mirrors.record _
      ((Mirrors.define x ⟨t.ty, v⟩).bind fun _ => .pure _)
  | assign n x e => by
    simp only [exec, watch]
    exact (Expr.watch_mirrors hc e).bind fun v => (Mirrors.assign x v).bind fun _ => .pure _
  | call n e => by
    simp only [exec, watch]
    exact (Expr.watch_mirrors hc e).bind fun v => .pure _
  | define _ _ _ | ret _ none | invalid _ _ => by
    simp only [exec, watch]
    exact .pure _
  | ret n (some e) => by
    simp only [exec, watch]
    exact (Expr.watch_mirrors hc e).bind fun v => Mirrors.record _ (.pure _)

theorem watchAll_mirrors {functions : Table Function} {invoke : Eval.Invoke}
    {watched : Watched.Invoke} (hc : MirrorsCalls functions invoke watched) (result : Ty) :
    (ss : List Stmt) → Mirrors functions (execAll invoke ss) (watchAll functions watched result ss)
  | [] => .pure _
  | s :: ss => by
    simp only [execAll, watchAll]
    refine (watch_mirrors hc result s).bind fun flow => ?_
    cases flow with
    | normal => exact watchAll_mirrors hc result ss
    | returned v => exact .pure _

end

end Stmt

namespace Eval

theorem invoke_mirrors (functions : Table Function) (depth : Nat) :
    MirrorsCalls functions (invoke depth) (Watched.invoke functions depth) := by
  induction depth with
  | zero => exact fun f params σ _ => rfl
  | succ depth ih =>
    intro f params
    simp only [invoke, Watched.invoke]
    exact (Mirrors.inCall params (Mirrors.record _ (Stmt.watchAll_mirrors ih _ f.body))).bind
      fun flow => .pure _

end Eval

/-- What a watched run prints, or why it stops. -/
def Eval.Report.printed (r : Report Unit) : Except Halt String :=
  r.result.map fun a => a.2.printed

/-- Watching a run does not change what it does. -/
theorem Program.run_eq_watch (depth : Nat) (p : Program) :
    p.run depth = (p.watch depth).printed := by
  have hc := invoke_mirrors p.functionTable depth
  have hm : Agree p.functionTable (fun v => v) .initial (p.watch depth).result
      (p.action depth (.initial p.functions)) := by
    obtain ⟨body, span⟩ := p
    cases body with
    | expression e =>
      have hp := (Expr.watch_mirrors hc e).bind fun v => Mirrors.print v
      exact hp .initial fun h => absurd rfl h
    | statements ss =>
      have hp := (Stmt.watchAll_mirrors hc .void ss).bind fun flow => .pure ()
      exact hp .initial fun h => absurd rfl h
  unfold run Report.printed
  cases hw : (p.watch depth).result with
  | error h =>
    rw [hw] at hm
    cases hs : p.action depth (.initial p.functions) with
    | ok v s => rw [hs] at hm; exact hm.elim
    | error h' s => rw [hs] at hm; cases hm; rfl
  | ok r =>
    rw [hw] at hm
    cases hs : p.action depth (.initial p.functions) with
    | error h' s => rw [hs] at hm; exact hm.elim
    | ok v s => rw [hs] at hm; obtain ⟨-, rfl, -⟩ := hm; rfl

theorem Program.watch_of_run_ok {p : Program} {depth : Nat} {out : String}
    (h : p.run depth = .ok out) : ∃ τ, (p.watch depth).result = .ok ((), τ) ∧ τ.printed = out := by
  rw [run_eq_watch, Report.printed] at h
  cases hr : (p.watch depth).result with
  | error halt =>
    rw [hr] at h
    cases h
  | ok a =>
    rw [hr] at h
    cases h
    exact ⟨a.2, rfl, rfl⟩

theorem Program.watch_of_run_error {p : Program} {depth : Nat} {halt : Halt}
    (h : p.run depth = .error halt) : (p.watch depth).result = .error halt := by
  rw [run_eq_watch, Report.printed] at h
  cases hr : (p.watch depth).result with
  | error halt' =>
    rw [hr] at h
    cases h
    rfl
  | ok a =>
    rw [hr] at h
    cases h

end CatScript
