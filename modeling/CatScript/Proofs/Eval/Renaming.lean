import CatScript.Eval.Run
import CatScript.Proofs.Typing.Renaming

/-!
# Running up to symbols

A run reads a symbol only to look a function up. Where related symbols find functions that are the
same up to symbols, programs that are the same up to symbols do the same: they print the same and
stop for the same reason, whatever the depth of calls.

The two stores differ in the functions alone (`Twin`), and nothing that a run does changes these.

Results:
* `Stmt.execAll_parallel`: statements that are the same up to symbols act alike.
* `Eval.invoke_parallel`: so do calls, by induction on their depth.
-/
namespace CatScript

namespace Eval

/-! ## Stores that differ in functions -/

/-- The stores hold the functions `F` and `G`, and are otherwise the same. -/
structure Twin (F G : Table Function) (s t : Store) : Prop where
  functions : s.functions = F
  eq : t = { s with functions := G }

/-- Two runs that end alike. -/
inductive TwinEnds {α : Type} (F G : Table Function) :
    EStateM.Result Halt Store α → EStateM.Result Halt Store α → Prop
  | ok (v : α) {s t : Store} : Twin F G s t → TwinEnds F G (.ok v s) (.ok v t)
  | error (h : Halt) {s t : Store} : Twin F G s t → TwinEnds F G (.error h s) (.error h t)

/-- Actions that act alike on stores that differ in functions. -/
def Parallel {α : Type} (F G : Table Function) (a b : Action α) : Prop :=
  ∀ s t, Twin F G s t → TwinEnds F G (a s) (b t)

variable {F G : Table Function} {s t : Store}

namespace Twin

theorem define (h : Twin F G s t) (x : String) (v : Value) :
    Twin F G (s.define x v) (t.define x v) := by
  obtain ⟨hf, rfl⟩ := h
  obtain ⟨scopes, base, functions, output⟩ := s
  cases scopes <;> exact ⟨hf, rfl⟩

theorem push (h : Twin F G s t) : Twin F G s.push t.push := ⟨h.functions, by rw [h.eq]; rfl⟩

theorem enter (h : Twin F G s t) (bindings : Table Value) :
    Twin F G (s.enter bindings) (t.enter bindings) := ⟨h.functions, by rw [h.eq]; rfl⟩

theorem leave (h : Twin F G s t) (base : Nat) : Twin F G (s.leave base) (t.leave base) :=
  ⟨h.functions, by rw [h.eq]; rfl⟩

theorem pop (h : Twin F G s t) : Twin F G s.pop t.pop := by
  obtain ⟨hf, rfl⟩ := h
  unfold Store.pop
  split <;> exact ⟨hf, rfl⟩

theorem assign? (h : Twin F G s t) (x : String) (v : Value) :
    t.assign? x v = (s.assign? x v).map fun s => { s with functions := G } := by
  obtain ⟨-, rfl⟩ := h
  have hlocals : Store.locals { s with functions := G } = s.locals := rfl
  unfold Store.assign?
  rw [hlocals]
  cases Table.assignIn? x v s.locals with
  | some locals => rfl
  | none =>
    dsimp only
    split
    · rw [Option.map_map]
      rfl
    · rfl

end Twin

theorem functions_assign? {x : String} {v : Value} {s' : Store} (h : s.assign? x v = some s') :
    s'.functions = s.functions := by
  unfold Store.assign? at h
  split at h
  · cases h
    rfl
  · split at h
    · obtain ⟨_, _, rfl⟩ := Option.map_eq_some_iff.1 h
      rfl
    · cases h

namespace Parallel

variable {α β : Type} {a b : Action α}

theorem pure (v : α) : Parallel F G (Pure.pure v) (Pure.pure v) := fun _ _ h => .ok v h

theorem fail (f : Fault) : Parallel F G (Eval.fail f : Action α) (Eval.fail f) :=
  fun _ _ h => .error _ h

theorem ofExcept (r : Except Fault α) :
    Parallel F G (Action.ofExcept r) (Action.ofExcept r) := by
  cases r with
  | ok v => exact pure v
  | error f => exact fail f

theorem bind {k m : α → Action β} (h : Parallel F G a b) (hk : ∀ v, Parallel F G (k v) (m v)) :
    Parallel F G (a >>= k) (b >>= m) := by
  intro s t hst
  show TwinEnds F G (EStateM.bind a k s) (EStateM.bind b m t)
  have hab := h s t hst
  unfold EStateM.bind
  generalize a s = r, b t = r' at hab
  cases hab with
  | ok v hend => exact hk v _ _ hend
  | error e hend => exact .error e hend

/-- A change that neither reads nor changes the functions. -/
theorem update {f : Store → Store} (h : ∀ s t, Twin F G s t → Twin F G (f s) (f t)) :
    Parallel F G (modify f) (modify f) := fun s t hst => .ok () (h s t hst)

theorem print (v : Value) :
    Parallel F G (modify (Store.print · v)) (modify (Store.print · v)) :=
  update fun _ _ h => ⟨h.functions, by rw [h.eq]; rfl⟩

theorem define (x : String) (v : Value) :
    Parallel F G (modify (Store.define · x v)) (modify (Store.define · x v)) :=
  update fun _ _ h => h.define x v

theorem lookUp (x : String) : Parallel F G (Eval.lookUp x) (Eval.lookUp x) := by
  intro s t h
  have hfind : t.find? x = s.find? x := by rw [h.eq]; rfl
  rw [lookUp_apply, lookUp_apply, hfind]
  cases s.find? x with
  | none => exact fail _ s t h
  | some v => exact .ok v h

theorem assign (x : String) (v : Value) : Parallel F G (Eval.assign x v) (Eval.assign x v) := by
  intro s t h
  rw [assign_apply, assign_apply, h.assign? x v]
  cases hs : s.assign? x v with
  | none => exact fail _ s t h
  | some s' => exact .ok () ⟨(functions_assign? hs).trans h.functions, rfl⟩

theorem ending {f g : Store → Store} (h : Parallel F G a b)
    (hfg : ∀ s t, Twin F G s t → Twin F G (f s) (g t)) :
    Parallel F G (Eval.ending a f) (Eval.ending b g) := by
  intro s t hst
  have hab := h s t hst
  unfold Eval.ending
  generalize a s = r, b t = r' at hab
  cases hab with
  | ok v hend => exact .ok v (hfg _ _ hend)
  | error e hend => exact .error e (hfg _ _ hend)

theorem inScope (h : Parallel F G a b) : Parallel F G (Eval.inScope a) (Eval.inScope b) :=
  fun _ _ hst => h.ending (fun _ _ => Twin.pop) _ _ hst.push

theorem inCall (h : Parallel F G a b) (bindings : Table Value) :
    Parallel F G (Eval.inCall bindings a) (Eval.inCall bindings b) := by
  intro s t hst
  have hbase : t.base = s.base := by rw [hst.eq]
  unfold Eval.inCall
  rw [hbase]
  exact h.ending (fun _ _ hend => hend.leave s.base) _ _ (hst.enter bindings)

theorem items (v : Value) : Parallel F G (Eval.items v) (Eval.items v) := by
  cases v with
  | list vs => exact pure vs
  | _ => exact fail _

theorem forItems (x : String) {a b : Action Flow} (h : Parallel F G a b) (vs : List Value) :
    Parallel F G (Eval.forItems x a vs) (Eval.forItems x b vs) := by
  induction vs with
  | nil => exact pure _
  | cons v vs ih =>
    simp only [Eval.forItems]
    refine (inScope ((define x v).bind fun _ => h)).bind fun flow => ?_
    cases flow with
    | normal => exact ih
    | returned r => exact pure _

end Parallel

/-! ## Calls -/

/-- Related symbols find functions that are the same up to symbols and have no diagnostics. -/
def Linked (R : String → String → Prop) (F G : Table Function) : Prop :=
  ∀ a b, R a b → ∃ f g, F.find? a = some f ∧ G.find? b = some g ∧ f.Renamed R g ∧
    Stmt.diagnosticsOfAll f.body = []

/-- Calls of functions that are the same up to symbols act alike. -/
def CallsParallel (R : String → String → Prop) (F G : Table Function) (invoke : Invoke) : Prop :=
  ∀ f g, f.Renamed R g → Stmt.diagnosticsOfAll f.body = [] → ∀ bindings,
    Parallel F G (invoke f bindings) (invoke g bindings)

variable {R : String → String → Prop}

theorem Linked.lookUpFunction {α : Type} (h : Linked R F G) {a b : String} (hab : R a b)
    {k m : Function → Action α}
    (hk : ∀ f g, f.Renamed R g → Stmt.diagnosticsOfAll f.body = [] → Parallel F G (k f) (m g)) :
    Parallel F G (lookUpFunction a >>= k) (lookUpFunction b >>= m) := by
  intro s t hst
  obtain ⟨f, g, hf, hg, hfg, hd⟩ := h a b hab
  have hs : s.functions.find? a = some f := by rw [hst.functions, hf]
  have ht : t.functions.find? b = some g := by rw [hst.eq, hg]
  show TwinEnds F G (EStateM.bind _ k s) (EStateM.bind _ m t)
  unfold EStateM.bind
  rw [lookUpFunction_apply, lookUpFunction_apply, hs, ht]
  exact hk f g hfg hd s t hst

end Eval

open Eval

variable {R : String → String → Prop} {F G : Table Function} {invoke : Invoke}

/-! ## Expressions and statements -/

namespace Expr

mutual

theorem eval_parallel (hl : Linked R F G) (hc : CallsParallel R F G invoke) :
    (e : Expr) → ∀ {e' : Expr}, e.Renamed R e' → e.diagnostics = [] →
      Parallel F G (e.eval invoke) (e'.eval invoke)
  | int _ _, _, rfl, _ | str _ _, _, rfl, _ | bool _ _, _, rfl, _ | null _, _, rfl, _ => by
    simp only [eval]
    exact .pure _
  | var _ x, _, rfl, _ => by
    simp only [eval]
    exact .lookUp x
  | unary _ op e, _, ⟨_, rfl, he⟩, hd => by
    simp only [diagnostics, List.append_eq_nil_iff] at hd
    simp only [eval]
    exact (eval_parallel hl hc e he hd.2).bind fun v => .ofExcept _
  | binary _ op l r, _, ⟨_, _, rfl, hle, hre⟩, hd => by
    simp only [diagnostics, List.append_eq_nil_iff] at hd
    simp only [eval]
    exact (eval_parallel hl hc l hle hd.1.2).bind fun v => (Parallel.ofExcept _).bind fun _ =>
      (eval_parallel hl hc r hre hd.2).bind fun w => .ofExcept _
  | paren _ e, _, ⟨_, rfl, he⟩, hd => by
    simp only [diagnostics, List.append_eq_nil_iff] at hd
    simp only [eval]
    exact eval_parallel hl hc e he hd.2
  | list _ es, _, ⟨_, rfl, hes⟩, hd => by
    simp only [diagnostics, List.append_eq_nil_iff] at hd
    simp only [eval]
    exact (evalAll_parallel hl hc es hes hd.2).bind fun vs => .pure _
  | call _ f es none, _, ⟨_, rfl, hn, _⟩, hd => by
    simp only [diagnostics, List.append_eq_nil_iff] at hd
    exact absurd hd.1 hn
  | call _ f es (some _), _, ⟨_, _, rfl, hab, hes⟩, hd => by
    simp only [diagnostics, List.append_eq_nil_iff] at hd
    simp only [eval, Option.getD_some]
    refine hl.lookUpFunction hab fun f g hfg hclean => ?_
    have hparams : g.header.params = f.header.params := by
      obtain ⟨_, _, rfl, _⟩ := hfg
      rfl
    rw [hparams]
    exact (evalArgs_parallel hl hc f.header.params es hes hd.2).bind fun bindings =>
      hc f g hfg hclean _

theorem evalAll_parallel (hl : Linked R F G) (hc : CallsParallel R F G invoke) :
    (es : List Expr) → ∀ {es' : List Expr}, RenamedAll R es es' → diagnosticsOfAll es = [] →
      Parallel F G (evalAll invoke es) (evalAll invoke es')
  | [], _, rfl, _ => .pure _
  | e :: es, _, ⟨_, _, rfl, he, hes⟩, hd => by
    simp only [diagnosticsOfAll, List.append_eq_nil_iff] at hd
    simp only [evalAll]
    exact (eval_parallel hl hc e he hd.1).bind fun v =>
      (evalAll_parallel hl hc es hes hd.2).bind fun vs => .pure _

theorem evalArgs_parallel (hl : Linked R F G) (hc : CallsParallel R F G invoke) :
    (ps : List Param) → (es : List Expr) → ∀ {es' : List Expr}, RenamedAll R es es' →
      diagnosticsOfAll es = [] → Parallel F G (evalArgs invoke ps es) (evalArgs invoke ps es')
  | [], [], _, rfl, _ | [], _ :: _, _, ⟨_, _, rfl, _, _⟩, _ | _ :: _, [], _, rfl, _ => .pure _
  | p :: ps, e :: es, _, ⟨_, _, rfl, he, hes⟩, hd => by
    simp only [diagnosticsOfAll, List.append_eq_nil_iff] at hd
    simp only [evalArgs]
    exact (eval_parallel hl hc e he hd.1).bind fun v =>
      (evalArgs_parallel hl hc ps es hes hd.2).bind fun more => .pure _

end

end Expr

namespace Stmt

mutual

theorem exec_parallel (hl : Linked R F G) (hc : CallsParallel R F G invoke) :
    (s : Stmt) → ∀ {s' : Stmt}, s.Renamed R s' → s.diagnostics = [] →
      Parallel F G (s.exec invoke) (s'.exec invoke)
  | print _ e, _, ⟨_, rfl, he⟩, hd => by
    simp only [diagnostics, List.append_eq_nil_iff] at hd
    simp only [exec]
    exact (e.eval_parallel hl hc he hd.2).bind fun v => (Parallel.print v).bind fun _ => .pure _
  | forEach _ x e body, _, ⟨_, _, rfl, he, hbody⟩, hd => by
    simp only [diagnostics, List.append_eq_nil_iff] at hd
    simp only [exec]
    exact (e.eval_parallel hl hc he hd.1.2).bind fun v => (Parallel.items v).bind fun vs =>
      .forItems x (execAll_parallel hl hc body hbody hd.2) vs
  | cond _ e yes none, _, ⟨_, _, rfl, he, hyes⟩, hd => by
    simp only [diagnostics, List.append_eq_nil_iff] at hd
    simp only [exec]
    refine (e.eval_parallel hl hc he hd.1.2).bind fun v => (Parallel.ofExcept _).bind fun b => ?_
    cases b with
    | true => exact .inScope (execAll_parallel hl hc yes hyes hd.2)
    | false => exact .pure _
  | cond _ e yes (some no), _, ⟨_, _, _, rfl, he, hyes, hno⟩, hd => by
    simp only [diagnostics, List.append_eq_nil_iff] at hd
    simp only [exec]
    refine (e.eval_parallel hl hc he hd.1.1.2).bind fun v => (Parallel.ofExcept _).bind fun b => ?_
    cases b with
    | true => exact .inScope (execAll_parallel hl hc yes hyes hd.1.2)
    | false => exact .inScope (execAll_parallel hl hc no hno hd.2)
  | declare _ x none e, _, ⟨_, rfl, he⟩, hd | declare _ x (some _) e, _, ⟨_, rfl, he⟩, hd => by
    simp only [diagnostics, List.append_eq_nil_iff] at hd
    simp only [exec]
    exact (e.eval_parallel hl hc he hd.2).bind fun v => (Parallel.define x v).bind fun _ => .pure _
  | assign _ x e, _, ⟨_, rfl, he⟩, hd => by
    simp only [diagnostics, List.append_eq_nil_iff] at hd
    simp only [exec]
    exact (e.eval_parallel hl hc he hd.2).bind fun v => (Parallel.assign x v).bind fun _ => .pure _
  | call _ e, _, ⟨_, rfl, he⟩, hd => by
    simp only [diagnostics, List.append_eq_nil_iff] at hd
    simp only [exec]
    exact (e.eval_parallel hl hc he hd.2).bind fun v => .pure _
  | define _ _ _, _, ⟨_, _, rfl, _⟩, _ | ret _ none, _, rfl, _ | invalid _ _, _, rfl, _ => by
    simp only [exec]
    exact .pure _
  | ret _ (some e), _, ⟨_, rfl, he⟩, hd => by
    simp only [diagnostics, List.append_eq_nil_iff] at hd
    simp only [exec]
    exact (e.eval_parallel hl hc he hd.2).bind fun v => .pure _

theorem execAll_parallel (hl : Linked R F G) (hc : CallsParallel R F G invoke) :
    (ss : List Stmt) → ∀ {ss' : List Stmt}, RenamedAll R ss ss' → diagnosticsOfAll ss = [] →
      Parallel F G (execAll invoke ss) (execAll invoke ss')
  | [], _, rfl, _ => .pure _
  | s :: ss, _, ⟨_, _, rfl, hs, hss⟩, hd => by
    simp only [diagnosticsOfAll, List.append_eq_nil_iff] at hd
    simp only [execAll]
    refine (exec_parallel hl hc s hs hd.1).bind fun flow => ?_
    cases flow with
    | normal => exact execAll_parallel hl hc ss hss hd.2
    | returned v => exact .pure _

end

end Stmt

namespace Eval

theorem invoke_parallel (hl : Linked R F G) (depth : Nat) :
    CallsParallel R F G (Eval.invoke depth) := by
  induction depth with
  | zero => exact fun f g _ _ bindings s t hst => .error .tooDeep hst
  | succ depth ih =>
    intro f g hfg hd bindings
    obtain ⟨_, _, rfl, _, hbody⟩ := hfg
    simp only [Eval.invoke]
    exact (Parallel.inCall (Stmt.execAll_parallel hl ih f.body hbody hd) bindings).bind
      fun flow => .pure _

end Eval

end CatScript
