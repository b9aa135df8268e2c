import CatScript.Eval.Run
import CatScript.Proofs.Typing.Origins

/-!
# Runs that keep a ledger

A run that keeps a ledger knows of every binding which declaration has made it, and writes down
what happens to names: that a declaration has been executed, and which binding a name has
reached when it was read or assigned to. Beside that it does what the run itself does
(`Program.run_eq_trace`).

The scopes of a run are a stack that may hold anything. The stack of a ledger holds values with
their declarations. Its values are those of the store, and its declarations alone are a stack as
well, on which scopes and calls work in the same way.
-/
namespace CatScript

namespace Table

variable {α β : Type}

/-- Overwrites a binding of the last scope. -/
def assignLast? (name : String) (a : α) : List (Table α) → Option (List (Table α))
  | [] => none
  | [scope] => if scope.contains name then some [scope.insert name a] else none
  | scope :: next :: scopes => (assignLast? name a (next :: scopes)).map (scope :: ·)

theorem assignLast?_mapValues (f : α → β) (name : String) (a : α) (scopes : List (Table α)) :
    assignLast? name (f a) (scopes.map (mapValues f)) =
      (assignLast? name a scopes).map (·.map (mapValues f)) := by
  fun_induction assignLast? name a scopes with
  | case1 => rfl
  | case2 scope h => simp [assignLast?, h]
  | case3 scope h => simp [assignLast?, h]
  | case4 scope next scopes ih =>
    simp only [List.map_cons, assignLast?] at ih ⊢
    rw [ih]
    cases assignLast? name a (next :: scopes) <;> rfl

theorem isSome_assignLast? (name : String) (a : α) (scopes : List (Table α)) :
    (assignLast? name a scopes).isSome = (scopes.getLast?.bind (·.find? name)).isSome := by
  fun_induction assignLast? name a scopes with
  | case1 => rfl
  | case2 scope h => simpa [contains] using h
  | case3 scope h => simpa [contains] using h
  | case4 scope next scopes ih => simpa [List.getLast?_cons_cons] using ih

/-- Overwriting a binding with what it is already leaves the scopes as they are. -/
theorem assignLast?_find? {name : String} {a : α} {scopes : List (Table α)}
    (h : scopes.getLast?.bind (·.find? name) = some a) :
    assignLast? name a scopes = some scopes := by
  fun_induction assignLast? name a scopes with
  | case1 => cases h
  | case2 scope hc => simp only [insert_find? (show scope.find? name = some a from h)]
  | case3 scope hc =>
    have hf : scope.find? name = some a := h
    simp [contains, hf] at hc
  | case4 scope next scopes ih =>
    rw [List.getLast?_cons_cons] at h
    rw [ih h]
    rfl

theorem insertIn_mapValues (f : α → β) (name : String) (a : α) (scopes : List (Table α)) :
    (insertIn name a scopes).map (mapValues f) = insertIn name (f a) (scopes.map (mapValues f)) := by
  cases scopes <;> simp [insertIn]

end Table

namespace Eval

/-! ## Stacks -/

/-- The scopes of a run and how many of them lie around the running call. -/
structure Stack (α : Type) where
  scopes : List (Table α)  -- innermost first
  base : Nat

namespace Stack

variable {α β : Type}

def push (s : Stack α) : Stack α := { s with scopes := [] :: s.scopes }

/-- Leaves the innermost scope, unless the running call has no other. -/
def pop (s : Stack α) : Stack α :=
  if s.scopes.length > s.base + 1 then { s with scopes := s.scopes.tail } else s

/-- Starts a call whose first scope holds the given bindings. -/
def enter (s : Stack α) (bindings : Table α) : Stack α := ⟨bindings :: s.scopes, s.scopes.length⟩

/-- Ends the running call and goes back to one with `base` scopes around it. -/
def leave (s : Stack α) (base : Nat) : Stack α :=
  ⟨s.scopes.drop (s.scopes.length - s.base), base⟩

/-- The scopes of the running call. -/
def locals (s : Stack α) : List (Table α) := s.scopes.take (s.scopes.length - s.base)

/-- The scopes around the running call. -/
def outer (s : Stack α) : List (Table α) := s.scopes.drop (s.scopes.length - s.base)

def find? (s : Stack α) (name : String) : Option α :=
  (Table.findIn? name s.locals).or
    (if s.base > 0 then s.scopes.getLast?.bind (·.find? name) else none)

/-- Binds a name in the innermost scope. -/
def define (s : Stack α) (name : String) (a : α) : Stack α :=
  { s with scopes := Table.insertIn name a s.scopes }

/-- Overwrites the binding that a look-up of the name finds. -/
def assign? (s : Stack α) (name : String) (a : α) : Option (Stack α) :=
  match Table.assignIn? name a s.locals with
  | some locals => some { s with scopes := locals ++ s.outer }
  | none =>
    if s.base > 0 then
      (Table.assignLast? name a s.scopes).map fun scopes => { s with scopes := scopes }
    else none

def map (f : α → β) (s : Stack α) : Stack β := ⟨s.scopes.map (Table.mapValues f), s.base⟩

variable (f : α → β) (s : Stack α)

@[simp] theorem map_base : (s.map f).base = s.base := rfl

@[simp] theorem map_push : s.push.map f = (s.map f).push := by simp [push, map]

@[simp] theorem map_pop : s.pop.map f = (s.map f).pop := by
  unfold pop
  simp only [map, List.length_map]
  split <;> simp

@[simp] theorem map_enter (bindings : Table α) :
    (s.enter bindings).map f = (s.map f).enter (bindings.mapValues f) := by
  simp [enter, map]

@[simp] theorem map_leave (base : Nat) : (s.leave base).map f = (s.map f).leave base := by
  simp [leave, map, List.map_drop]

@[simp] theorem map_define (name : String) (a : α) :
    (s.define name a).map f = (s.map f).define name (f a) := by
  simp [define, map, Table.insertIn_mapValues]

theorem locals_map : (s.map f).locals = s.locals.map (Table.mapValues f) := by
  simp [locals, map, List.map_take]

theorem outer_map : (s.map f).outer = s.outer.map (Table.mapValues f) := by
  simp [outer, map, List.map_drop]

@[simp] theorem find?_map (name : String) : (s.map f).find? name = (s.find? name).map f := by
  unfold find?
  rw [locals_map, Table.findIn?_mapValues]
  by_cases hb : s.base > 0
  · simp only [map, hb, if_true, List.getLast?_map]
    cases Table.findIn? name s.locals <;> cases s.scopes.getLast? <;> simp
  · simp only [map, hb, if_false, Option.or_none]

@[simp] theorem assign?_map (name : String) (a : α) :
    (s.map f).assign? name (f a) = (s.assign? name a).map (map f) := by
  unfold assign?
  rw [locals_map, outer_map, Table.assignIn?_mapValues]
  cases Table.assignIn? name a s.locals with
  | some locals => simp [map]
  | none =>
    by_cases hb : s.base > 0
    · simp only [Option.map_none, map_base, hb, if_true]
      simp only [map, Table.assignLast?_mapValues]
      cases Table.assignLast? name a s.scopes <;> rfl
    · simp only [Option.map_none, map_base, hb, if_false]

theorem isSome_assign? (name : String) (a : α) :
    (s.assign? name a).isSome = (s.find? name).isSome := by
  unfold assign? find?
  have h := Table.isSome_assignIn? name a s.locals
  cases ha : Table.assignIn? name a s.locals with
  | some locals =>
    rw [ha] at h
    obtain ⟨b, hb⟩ := Option.isSome_iff_exists.1 h.symm
    simp [hb]
  | none =>
    rw [ha] at h
    have hn : Table.findIn? name s.locals = none := by simpa using h.symm
    by_cases hb : s.base > 0
    · simp only [hn, hb, if_true, Option.none_or, Option.isSome_map, Table.isSome_assignLast?]
    · simp [hn, hb]

/-- Overwriting a binding with what it is already leaves the stack as it is. -/
theorem assign?_find? {s : Stack α} {name : String} {a : α} (h : s.find? name = some a) :
    s.assign? name a = some s := by
  unfold find? at h
  unfold assign?
  cases hf : Table.findIn? name s.locals with
  | some b =>
    rw [hf] at h
    cases h
    simp only [Table.assignIn?_findIn? hf]
    simp only [locals, outer, List.take_append_drop]
  | none =>
    have hn : Table.assignIn? name a s.locals = none := by
      have := Table.isSome_assignIn? name a s.locals
      simpa [hf] using this
    rw [hf, Option.none_or] at h
    split at h
    · next hb => simp only [hn, hb, if_true, Table.assignLast?_find? h, Option.map_some]
    · cases h

end Stack

/-! ## Ledgers -/

/-- A value with the declaration that has made its binding. -/
structure Cell where
  origin : Declaration
  value : Value

/-- What happens to names. -/
inductive Entry.Event where
  | declared (declaration : Declaration)                   -- it has bound its variable
  | used (name : String) (reached : Option Declaration)    -- a name is read or assigned to

/-- What happens in the statement at a place, inside a function or not. -/
structure Entry where
  place : Place
  called : Bool
  event : Entry.Event

structure Ledger where
  stack : Stack Cell
  output : List String    -- latest line first
  entries : List Entry    -- latest first

/-- A function with the place of its definition. -/
structure Placed where
  place : Place
  function : Function

namespace Ledger

/-- The ledger at the start of a run. -/
def initial : Ledger := ⟨⟨[[]], 0⟩, [], []⟩

def change (l : Ledger) (f : Stack Cell → Stack Cell) : Ledger := { l with stack := f l.stack }

def print (l : Ledger) (v : Value) : Ledger := { l with output := v.display :: l.output }

end Ledger

abbrev Traced (α : Type) := EStateM Halt Ledger α

namespace Traced

variable {α : Type}

/-- What calling a function with the given parameters does. -/
abbrev Invoke := Placed → Table Cell → Traced Value

def fail (f : Fault) : Traced α := throw (.fault f)

def ofExcept : Except Fault α → Traced α
  | .ok a => pure a
  | .error f => fail f

def record (here : Place) (event : Entry.Event) : Traced Unit := modify fun l =>
  { l with entries := ⟨here, l.stack.base > 0, event⟩ :: l.entries }

/-- Runs an action and changes the stack it ends with, on success and on failure. -/
def ending (w : Traced α) (f : Stack Cell → Stack Cell) : Traced α := fun l =>
  match w l with
  | .ok v l => .ok v (l.change f)
  | .error h l => .error h (l.change f)

def inScope (w : Traced α) : Traced α := fun l => ending w Stack.pop (l.change Stack.push)

def inCall (params : Table Cell) (w : Traced α) : Traced α := fun l =>
  ending w (Stack.leave · l.stack.base) (l.change (Stack.enter · params))

/-- The binding that a name reaches. -/
def reach (here : Place) (x : String) : Traced Cell := do
  let found := (← get).stack.find? x
  record here (.used x (found.map Cell.origin))
  match found with
  | some c => pure c
  | none => fail (.unboundVariable x)

def define (here : Place) (x : String) (c : Cell) : Traced Unit := do
  modify (Ledger.change · (Stack.define · x c))
  record here (.declared c.origin)

/-- Overwrites the value of the binding that the name reaches. -/
def assign (here : Place) (x : String) (v : Value) : Traced Unit := do
  let c ← reach here x
  modify (Ledger.change · fun s => (s.assign? x ⟨c.origin, v⟩).getD s)

def lookUpFunction (functions : Table Placed) (symbol : String) : Traced Placed :=
  match functions.find? symbol with
  | some f => pure f
  | none => fail (.unknownFunction symbol)

/-- Runs the body of the loop that stands here once for each item. -/
def forItems (here : Place) (x : String) (body : Traced Flow) : List Value → Traced Flow
  | [] => pure .normal
  | v :: vs => do
    match ← inScope (do define here x ⟨.loop here x, v⟩; body) with
    | .normal => forItems here x body vs
    | .returned r => pure (.returned r)

def items : Value → Traced (List Value)
  | .list vs => pure vs
  | v => fail (.notIterable v.display)

end Traced

end Eval

open Eval Traced

namespace Expr

mutual

/-- Evaluates an expression of the statement that stands `here`. -/
def trace (functions : Table Placed) (invoke : Traced.Invoke) (here : Place) : Expr → Traced Value
  | int _ v => pure (.int v)
  | str _ v => pure (.str v)
  | bool _ v => pure (.bool v)
  | null _ => pure .null
  | var _ x => do
    let c ← reach here x
    pure c.value
  | unary _ op e => do
    let v ← e.trace functions invoke here
    .ofExcept (op.apply v)
  | binary _ op l r => do
    let v ← l.trace functions invoke here
    .ofExcept (op.leftOperand v)
    let w ← r.trace functions invoke here
    .ofExcept (op.apply v w)
  | paren _ e => e.trace functions invoke here
  | list _ es => do
    let vs ← traceAll functions invoke here es
    pure (.list vs)
  | call _ f es symbol => do
    let q ← lookUpFunction functions (symbol.getD f)
    let bindings ← traceArgs functions invoke here q.function.header.params es
    invoke q (.ofList (bindings.map fun b => (b.1, ⟨.parameter q.place b.1, b.2⟩)))

def traceAll (functions : Table Placed) (invoke : Traced.Invoke) (here : Place) :
    List Expr → Traced (List Value)
  | [] => pure []
  | e :: es => do
    let v ← e.trace functions invoke here
    let vs ← traceAll functions invoke here es
    pure (v :: vs)

def traceArgs (functions : Table Placed) (invoke : Traced.Invoke) (here : Place) :
    List Param → List Expr → Traced (List (String × Value))
  | p :: ps, e :: es => do
    let v ← e.trace functions invoke here
    let more ← traceArgs functions invoke here ps es
    pure ((p.name, v) :: more)
  | _, _ => pure []

end

end Expr

namespace Stmt

mutual

/-- Runs the statement that stands `here`. -/
def trace (functions : Table Placed) (invoke : Traced.Invoke) (here : Place) : Stmt → Traced Flow
  | print _ e => do
    let v ← e.trace functions invoke here
    modify (Ledger.print · v)
    pure .normal
  | forEach _ x e body => do
    let v ← e.trace functions invoke here
    let vs ← items v
    forItems here x (traceAll functions invoke (here ++ [0]) 0 body) vs
  | cond _ e yes none => do
    let v ← e.trace functions invoke here
    let b ← Traced.ofExcept (v.asBool "if")
    if b then inScope (traceAll functions invoke (here ++ [0]) 0 yes) else pure .normal
  | cond _ e yes (some no) => do
    let v ← e.trace functions invoke here
    let b ← Traced.ofExcept (v.asBool "if")
    if b then inScope (traceAll functions invoke (here ++ [0]) 0 yes)
    else inScope (traceAll functions invoke (here ++ [1]) 0 no)
  | declare _ x _ e => do
    let v ← e.trace functions invoke here
    Traced.define here x ⟨.variable here x, v⟩
    pure .normal
  | assign _ x e => do
    let v ← e.trace functions invoke here
    Traced.assign here x v
    pure .normal
  | call _ e => do
    let _ ← e.trace functions invoke here
    pure .normal
  | define _ _ _ => pure .normal
  | ret _ none => pure (.returned none)
  | ret _ (some e) => do
    let v ← e.trace functions invoke here
    pure (.returned (some v))
  | invalid _ _ => pure .normal

/-- Runs statements of a block, of which the first has the number `i`. -/
def traceAll (functions : Table Placed) (invoke : Traced.Invoke) (block : Place) (i : Nat) :
    List Stmt → Traced Flow
  | [] => pure .normal
  | s :: ss => do
    match ← s.trace functions invoke (block ++ [i]) with
    | .normal => traceAll functions invoke block (i + 1) ss
    | .returned v => pure (.returned v)

end

mutual

/-- The functions defined in a statement, with their places. -/
def placed (here : Place) : Stmt → List Placed
  | define _ h body => ⟨here, ⟨h, body⟩⟩ :: placedAll (here ++ [0]) 0 body
  | forEach _ _ _ body => placedAll (here ++ [0]) 0 body
  | cond _ _ yes none => placedAll (here ++ [0]) 0 yes
  | cond _ _ yes (some no) => placedAll (here ++ [0]) 0 yes ++ placedAll (here ++ [1]) 0 no
  | _ => []

def placedAll (block : Place) (i : Nat) : List Stmt → List Placed
  | [] => []
  | s :: ss => s.placed (block ++ [i]) ++ placedAll block (i + 1) ss

end

mutual

theorem map_placed : (s : Stmt) → ∀ here : Place,
    (s.placed here).map Placed.function = s.functions
  | define n h body, here => by simp only [placed, functions, List.map_cons, map_placedAll body]
  | forEach n x e body, here => by simp only [placed, functions, map_placedAll body]
  | cond n e yes none, here => by simp only [placed, functions, map_placedAll yes]
  | cond n e yes (some no), here => by
    simp only [placed, functions, List.map_append, map_placedAll yes, map_placedAll no]
  | print _ _, _ | declare _ _ _ _, _ | assign _ _ _, _ | call _ _, _ | ret _ _, _
  | invalid _ _, _ => by simp only [placed, functions, List.map_nil]

theorem map_placedAll : (ss : List Stmt) → ∀ (block : Place) (i : Nat),
    (placedAll block i ss).map Placed.function = functionsOfAll ss
  | [], _, _ => rfl
  | s :: ss, block, i => by
    simp only [placedAll, functionsOfAll, List.map_append, map_placed s, map_placedAll ss]

end

end Stmt

namespace Eval.Traced

/-- Calls a function, with at most `depth` calls inside each other. -/
def invoke (functions : Table Placed) : Nat → Invoke
  | 0, _, _ => throw .tooDeep
  | depth + 1, q, params => do
    let flow ← inCall params
      (Stmt.traceAll functions (invoke functions depth) (q.place ++ [0]) 0 q.function.body)
    pure flow.value

end Eval.Traced

namespace Program

/-- The functions of the program and their places, by symbol. -/
def placedTable (p : Program) : Table Placed :=
  .ofList ((Stmt.placedAll [] 0 p.statements).map fun q => (q.function.header.symbol, q))

/-- What the program does, with a ledger kept. -/
def tracedAction (depth : Nat) (p : Program) : Traced Unit :=
  let invoke := Traced.invoke p.placedTable depth
  match p.body with
  | .expression e => do
    let v ← e.trace p.placedTable invoke []
    modify (Ledger.print · v)
  | .statements ss => do
    let _ ← Stmt.traceAll p.placedTable invoke [] 0 ss
    pure ()

/-- The run of a program with a ledger. -/
def trace (depth : Nat) (p : Program) : EStateM.Result Halt Ledger Unit :=
  p.tracedAction depth .initial

/-- What the run with a ledger prints, or why it stops. -/
def tracedRun (depth : Nat) (p : Program) : Except Halt String :=
  match p.trace depth with
  | .ok _ l => .ok ("\n".intercalate l.output.reverse)
  | .error h _ => .error h

/-- The entries made in a run, the latest first. -/
def entries (depth : Nat) (p : Program) : List Entry :=
  match p.trace depth with
  | .ok _ l => l.entries
  | .error _ l => l.entries

end Program

end CatScript
