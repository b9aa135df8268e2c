import CatScript.Proofs.Eval.Ledger

/-!
# Keeping a ledger changes nothing

A run with a ledger ends as the run itself does (`Program.run_eq_trace`). Erasing the places and
declarations from a ledger leaves a store, and every part of the evaluator does to the store
what its counterpart does to the ledger, on success and on failure.
-/
namespace CatScript

namespace Eval

/-! ## Stores -/

/-- The store with a stack of values. -/
def Stack.store (functions : Table Function) (output : List String) (s : Stack Value) : Store :=
  ⟨s.scopes, s.base, functions, output⟩

namespace Stack

variable {functions : Table Function} {output : List String} (s : Stack Value)

theorem store_pop : (s.store functions output).pop = s.pop.store functions output := by
  by_cases h : s.scopes.length > s.base + 1 <;> simp [Store.pop, store, pop, h]

theorem store_define (x : String) (v : Value) :
    (s.store functions output).define x v = (s.define x v).store functions output := by
  obtain ⟨scopes, base⟩ := s
  cases scopes <;> rfl

theorem store_assignLast? (x : String) (v : Value) (scopes : List (Table Value)) :
    Store.assignLast? x v scopes = Table.assignLast? x v scopes := by
  fun_induction Store.assignLast? x v scopes with
  | case1 => rfl
  | case2 scope h => simp [Table.assignLast?, h]
  | case3 scope h => simp [Table.assignLast?, h]
  | case4 scope next scopes ih => simp [Table.assignLast?, ih]

theorem store_assign? (x : String) (v : Value) :
    (s.store functions output).assign? x v = (s.assign? x v).map (store functions output) := by
  unfold Store.assign? assign?
  have hl : (s.store functions output).locals = s.locals := rfl
  rw [hl]
  cases Table.assignIn? x v s.locals with
  | some locals => rfl
  | none =>
    by_cases hb : s.base > 0
    · simp only [store, hb, if_true, store_assignLast?, Option.map_map]
      rfl
    · simp only [store, hb, if_false, Option.map_none]

end Stack

namespace Ledger

/-- The store of a run with the given functions that keeps this ledger. -/
def store (functions : Table Placed) (l : Ledger) : Store :=
  (l.stack.map Cell.value).store (functions.mapValues Placed.function) l.output

variable {functions : Table Placed} (l : Ledger)

/-- A change of the stack that works alike on cells and on values. -/
theorem store_change {f : Stack Cell → Stack Cell} {g : Stack Value → Stack Value}
    {h : Store → Store} (hfg : ∀ s, (f s).map Cell.value = g (s.map Cell.value))
    (hgh : ∀ fs output s, h (Stack.store fs output s) = (g s).store fs output) :
    h (l.store functions) = (l.change f).store functions := by
  simp only [store, change, hfg, hgh]

theorem find?_store (x : String) :
    (l.store functions).find? x = (l.stack.find? x).map Cell.value :=
  Stack.find?_map Cell.value l.stack x

theorem assign?_store (x : String) (c : Cell) :
    (l.store functions).assign? x c.value =
      (l.stack.assign? x c).map fun s => (l.change fun _ => s).store functions := by
  simp only [store, change, Stack.store_assign?, Stack.assign?_map, Option.map_map]
  rfl

end Ledger

/-! ## Actions -/

/-- The end of a run without its ledger, with what `f` makes of the value. -/
def erased {α β : Type} (functions : Table Placed) (f : α → β) :
    EStateM.Result Halt Ledger α → EStateM.Result Halt Store β
  | .ok a l => .ok (f a) (l.store functions)
  | .error h l => .error h (l.store functions)

/-- An action and its counterpart that keeps a ledger, which gives what `f` makes into the value
of the action. -/
def ErasesWith {α β : Type} (functions : Table Placed) (f : α → β) (w : Traced α) (a : Action β) :
    Prop :=
  ∀ l : Ledger, a (l.store functions) = erased functions f (w l)

/-- An action and its counterpart, which give the same. -/
def Erases {α : Type} (functions : Table Placed) (w : Traced α) (a : Action α) : Prop :=
  ErasesWith functions (fun v => v) w a

theorem ErasesWith.bind {α β γ δ : Type} {functions : Table Placed} {f : α → β} {g : γ → δ}
    {w : Traced α} {a : Action β} {k : α → Traced γ} {m : β → Action δ}
    (ha : ErasesWith functions f w a) (hk : ∀ v, ErasesWith functions g (k v) (m (f v))) :
    ErasesWith functions g (w >>= k) (a >>= m) := by
  intro l
  have hl := ha l
  show EStateM.bind a m (l.store functions) = erased functions g (EStateM.bind w k l)
  unfold EStateM.bind
  rw [hl]
  cases w l with
  | ok v l' => exact hk v l'
  | error h l' => rfl

namespace Erases

variable {α β : Type} {functions : Table Placed}

theorem pure (v : α) : Erases functions (Pure.pure v) (Pure.pure v) := fun _ => rfl

theorem fail (f : Fault) : Erases functions (Traced.fail f : Traced α) (Eval.fail f) :=
  fun _ => rfl

theorem ofExcept (r : Except Fault α) :
    Erases functions (Traced.ofExcept r) (Action.ofExcept r) := by
  cases r with
  | ok v => exact pure v
  | error f => exact fail f

theorem bind {w : Traced α} {a : Action α} {k : α → Traced β} {m : α → Action β}
    (ha : Erases functions w a) (hk : ∀ v, Erases functions (k v) (m v)) :
    Erases functions (w >>= k) (a >>= m) :=
  ErasesWith.bind ha hk

theorem print (v : Value) :
    Erases functions (modify (Ledger.print · v)) (modify (Store.print · v)) := fun _ => rfl

theorem define (here : Place) (x : String) (c : Cell) :
    Erases functions (Traced.define here x c) (modify (Store.define · x c.value)) := by
  intro l
  have h : (l.store functions).define x c.value =
      (l.change (Stack.define · x c)).store functions :=
    l.store_change (h := (Store.define · x c.value)) (fun s => s.map_define Cell.value x c)
      fun _ _ s => s.store_define x c.value
  exact congrArg _ h

/-- What reaching for a name does: it is written down, whether it finds a binding or not. -/
theorem reach_eq (here : Place) (x : String) (l : Ledger) :
    Traced.reach here x l =
      (match l.stack.find? x with
        | some c => Pure.pure c
        | none => Traced.fail (.unboundVariable x) : Traced Cell)
        { l with entries := ⟨here, l.stack.base > 0,
            .used x ((l.stack.find? x).map Cell.origin)⟩ :: l.entries } := rfl

theorem reach (here : Place) (x : String) :
    ErasesWith functions Cell.value (Traced.reach here x) (Eval.lookUp x) := by
  intro l
  rw [lookUp_apply, reach_eq, Ledger.find?_store]
  cases l.stack.find? x <;> rfl

/-- What assigning does: the name is reached for first. -/
theorem assign_eq (here : Place) (x : String) (v : Value) (l : Ledger) :
    Traced.assign here x v l =
      (match l.stack.find? x with
        | some c => modify (Ledger.change · fun s => (s.assign? x ⟨c.origin, v⟩).getD s)
        | none => Traced.fail (.unboundVariable x) : Traced Unit)
        { l with entries := ⟨here, l.stack.base > 0,
            .used x ((l.stack.find? x).map Cell.origin)⟩ :: l.entries } := by
  unfold Traced.assign
  show EStateM.bind _ _ l = _
  unfold EStateM.bind
  rw [reach_eq]
  cases l.stack.find? x <;> rfl

theorem assign (here : Place) (x : String) (v : Value) :
    Erases functions (Traced.assign here x v) (Eval.assign x v) := by
  intro l
  rw [assign_apply, assign_eq]
  cases hf : l.stack.find? x with
  | none =>
    have ha : l.stack.assign? x ⟨.variable here x, v⟩ = none := by
      have := l.stack.isSome_assign? x ⟨.variable here x, v⟩
      simpa [hf] using this
    rw [l.assign?_store x ⟨.variable here x, v⟩, ha]
    rfl
  | some c =>
    obtain ⟨s, ha⟩ : ∃ s, l.stack.assign? x ⟨c.origin, v⟩ = some s := by
      rw [← Option.isSome_iff_exists, Stack.isSome_assign?, hf]
      rfl
    rw [l.assign?_store x ⟨c.origin, v⟩, ha]
    have hs : (l.stack.assign? x ⟨c.origin, v⟩).getD l.stack = s := by rw [ha]; rfl
    exact congrArg (fun s => EStateM.Result.ok () ((l.change fun _ => s).store functions)) hs.symm

theorem lookUpFunction (symbol : String) :
    ErasesWith functions Placed.function (Traced.lookUpFunction functions symbol)
      (Eval.lookUpFunction symbol) := by
  intro l
  have hfunctions : (l.store functions).functions = functions.mapValues Placed.function := rfl
  rw [lookUpFunction_apply, hfunctions, Table.find?_mapValues]
  unfold Traced.lookUpFunction
  cases functions.find? symbol <;> rfl

/-- Both runs change what they end in alike. -/
theorem ending {w : Traced α} {a : Action α} (ha : Erases functions w a)
    {f : Stack Cell → Stack Cell} {g : Store → Store}
    (hfg : ∀ l : Ledger, g (l.store functions) = (l.change f).store functions) :
    Erases functions (Traced.ending w f) (Eval.ending a g) := by
  intro l
  unfold Eval.ending Traced.ending
  rw [ha l]
  cases w l with
  | ok v l' => exact congrArg (EStateM.Result.ok v) (hfg l')
  | error h l' => exact congrArg (EStateM.Result.error h) (hfg l')

theorem inScope {w : Traced α} {a : Action α} (ha : Erases functions w a) :
    Erases functions (Traced.inScope w) (Eval.inScope a) := by
  intro l
  have hpush : (l.store functions).push = (l.change Stack.push).store functions :=
    l.store_change (Stack.map_push Cell.value) fun _ _ _ => rfl
  have hend := ha.ending (f := Stack.pop) (g := Store.pop) fun l =>
    l.store_change (Stack.map_pop Cell.value) fun _ _ s => s.store_pop
  unfold Eval.inScope
  rw [hpush]
  exact hend _

theorem inCall {w : Traced α} {a : Action α} (params : Table Cell) (ha : Erases functions w a) :
    Erases functions (Traced.inCall params w) (Eval.inCall (params.mapValues Cell.value) a) := by
  intro l
  have henter : (l.store functions).enter (params.mapValues Cell.value) =
      (l.change (Stack.enter · params)).store functions :=
    l.store_change (g := (Stack.enter · (params.mapValues Cell.value)))
      (h := (Store.enter · (params.mapValues Cell.value)))
      (fun s => s.map_enter Cell.value params) fun _ _ _ => rfl
  have hend := ha.ending (f := (Stack.leave · l.stack.base)) (g := (Store.leave · l.stack.base))
    fun l' => l'.store_change (g := (Stack.leave · l.stack.base))
      (h := (Store.leave · l.stack.base)) (fun s => s.map_leave Cell.value _) fun _ _ _ => rfl
  unfold Eval.inCall
  rw [henter]
  exact hend _

theorem items (v : Value) : Erases functions (Traced.items v) (Eval.items v) := by
  cases v with
  | list vs => exact pure vs
  | _ => exact fail _

theorem forItems (here : Place) (x : String) {w : Traced Flow} {a : Action Flow}
    (ha : Erases functions w a) (vs : List Value) :
    Erases functions (Traced.forItems here x w vs) (Eval.forItems x a vs) := by
  induction vs with
  | nil => exact pure _
  | cons v vs ih =>
    simp only [Eval.forItems, Traced.forItems]
    refine bind (inScope (bind (define here x ⟨.loop here x, v⟩) fun _ => ha)) fun flow => ?_
    cases flow with
    | normal => exact ih
    | returned r => exact pure _

end Erases

/-- A call and its counterpart. -/
def ErasesCalls (functions : Table Placed) (traced : Traced.Invoke) (invoke : Eval.Invoke) : Prop :=
  ∀ q params, Erases functions (traced q params) (invoke q.function (params.mapValues Cell.value))

end Eval

open Eval

/-! ## Expressions and statements -/

namespace Expr

mutual

theorem trace_erases {functions : Table Placed} {traced : Traced.Invoke} {invoke : Eval.Invoke}
    (hc : ErasesCalls functions traced invoke) (here : Place) :
    (e : Expr) → Erases functions (e.trace functions traced here) (e.eval invoke)
  | int n v | str n v | bool n v | null n => by
    simp only [eval, trace]
    exact .pure _
  | var n x => by
    simp only [eval, trace]
    have h : Erases functions _ (Eval.lookUp x >>= pure) :=
      (Erases.reach here x).bind fun c => Erases.pure c.value
    rwa [bind_pure] at h
  | unary n op e => by
    simp only [eval, trace]
    exact (trace_erases hc here e).bind fun v => .ofExcept _
  | binary n op l r => by
    simp only [eval, trace]
    exact (trace_erases hc here l).bind fun v => (Erases.ofExcept _).bind fun _ =>
      (trace_erases hc here r).bind fun w => .ofExcept _
  | paren n e => by
    simp only [eval, trace]
    exact trace_erases hc here e
  | list n es => by
    simp only [eval, trace]
    exact (traceAll_erases hc here es).bind fun vs => .pure _
  | call n f es symbol => by
    simp only [eval, trace]
    refine (Erases.lookUpFunction _).bind fun q => ?_
    refine (traceArgs_erases hc here q.function.header.params es).bind fun bindings => ?_
    have h := hc q (.ofList (bindings.map fun b => (b.1, ⟨.parameter q.place b.1, b.2⟩)))
    rw [Table.mapValues_ofList, List.map_map] at h
    simpa [Function.comp_def] using h

theorem traceAll_erases {functions : Table Placed} {traced : Traced.Invoke}
    {invoke : Eval.Invoke} (hc : ErasesCalls functions traced invoke) (here : Place) :
    (es : List Expr) → Erases functions (traceAll functions traced here es) (evalAll invoke es)
  | [] => .pure _
  | e :: es => by
    simp only [evalAll, traceAll]
    exact (trace_erases hc here e).bind fun v => (traceAll_erases hc here es).bind fun vs => .pure _

theorem traceArgs_erases {functions : Table Placed} {traced : Traced.Invoke}
    {invoke : Eval.Invoke} (hc : ErasesCalls functions traced invoke) (here : Place) :
    (ps : List Param) → (es : List Expr) →
      Erases functions (traceArgs functions traced here ps es) (evalArgs invoke ps es)
  | [], [] | [], _ :: _ | _ :: _, [] => .pure _
  | p :: ps, e :: es => by
    simp only [evalArgs, traceArgs]
    exact (trace_erases hc here e).bind fun v =>
      (traceArgs_erases hc here ps es).bind fun more => .pure _

end

end Expr

namespace Stmt

mutual

theorem trace_erases {functions : Table Placed} {traced : Traced.Invoke} {invoke : Eval.Invoke}
    (hc : ErasesCalls functions traced invoke) : (s : Stmt) → ∀ here : Place,
    Erases functions (s.trace functions traced here) (s.exec invoke)
  | print n e, here => by
    simp only [exec, trace]
    exact (Expr.trace_erases hc here e).bind fun v => (Erases.print v).bind fun _ => .pure _
  | forEach n x e body, here => by
    simp only [exec, trace]
    exact (Expr.trace_erases hc here e).bind fun v => (Erases.items v).bind fun vs =>
      .forItems here x (traceAll_erases hc body _ _) vs
  | cond n e yes none, here => by
    simp only [exec, trace]
    refine (Expr.trace_erases hc here e).bind fun v => (Erases.ofExcept _).bind fun b => ?_
    cases b with
    | true => exact .inScope (traceAll_erases hc yes _ _)
    | false => exact .pure _
  | cond n e yes (some no), here => by
    simp only [exec, trace]
    refine (Expr.trace_erases hc here e).bind fun v => (Erases.ofExcept _).bind fun b => ?_
    cases b with
    | true => exact .inScope (traceAll_erases hc yes _ _)
    | false => exact .inScope (traceAll_erases hc no _ _)
  | declare n x t e, here => by
    simp only [exec, trace]
    exact (Expr.trace_erases hc here e).bind fun v =>
      (Erases.define here x ⟨.variable here x, v⟩).bind fun _ => .pure _
  | assign n x e, here => by
    simp only [exec, trace]
    exact (Expr.trace_erases hc here e).bind fun v => (Erases.assign here x v).bind fun _ => .pure _
  | call n e, here => by
    simp only [exec, trace]
    exact (Expr.trace_erases hc here e).bind fun v => .pure _
  | define _ _ _, _ | ret _ none, _ | invalid _ _, _ => by
    simp only [exec, trace]
    exact .pure _
  | ret n (some e), here => by
    simp only [exec, trace]
    exact (Expr.trace_erases hc here e).bind fun v => .pure _

theorem traceAll_erases {functions : Table Placed} {traced : Traced.Invoke}
    {invoke : Eval.Invoke} (hc : ErasesCalls functions traced invoke) : (ss : List Stmt) →
    ∀ (block : Place) (i : Nat),
    Erases functions (traceAll functions traced block i ss) (execAll invoke ss)
  | [], _, _ => .pure _
  | s :: ss, block, i => by
    simp only [execAll, traceAll]
    refine (trace_erases hc s _).bind fun flow => ?_
    cases flow with
    | normal => exact traceAll_erases hc ss block (i + 1)
    | returned v => exact .pure _

end

end Stmt

namespace Eval

theorem invoke_erases (functions : Table Placed) (depth : Nat) :
    ErasesCalls functions (Traced.invoke functions depth) (invoke depth) := by
  induction depth with
  | zero => exact fun q params l => rfl
  | succ depth ih =>
    intro q params
    simp only [invoke, Traced.invoke]
    exact (Erases.inCall params (Stmt.traceAll_erases ih q.function.body _ _)).bind
      fun flow => .pure _

end Eval

namespace Program

/-- The functions of a program by symbol, without their places. -/
theorem mapValues_placedTable (p : Program) :
    p.placedTable.mapValues Placed.function =
      Table.ofList (p.functions.map fun f => (f.header.symbol, f)) := by
  rw [placedTable, Table.mapValues_ofList, functions, ← Stmt.map_placedAll p.statements [] 0,
    List.map_map, List.map_map]
  rfl

/-- Keeping a ledger does not change what a run prints or why it stops. -/
theorem run_eq_trace (depth : Nat) (p : Program) : p.run depth = p.tracedRun depth := by
  have hc := invoke_erases p.placedTable depth
  have ha : Erases p.placedTable (p.tracedAction depth) (p.action depth) := by
    obtain ⟨body, span⟩ := p
    cases body with
    | expression e => exact (Expr.trace_erases hc [] e).bind fun v => .print v
    | statements ss => exact (Stmt.traceAll_erases hc ss [] 0).bind fun flow => .pure ()
  have hinit : Store.initial p.functions = Ledger.initial.store p.placedTable := by
    rw [Ledger.store, mapValues_placedTable]
    rfl
  unfold run tracedRun trace
  rw [hinit, ha Ledger.initial]
  cases p.tracedAction depth .initial <;> rfl

end Program

end CatScript
