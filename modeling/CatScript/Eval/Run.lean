import CatScript.Eval.Operator
import CatScript.Eval.Store
import CatScript.Program

/-!
# Running programs (specification §4.3)

Expressions and statements act on a store, and the store of a run that stops with a fault is
kept. Every scope and every call that a run has entered is left again, also on a fault.

Evaluation recurs over the tree, and only a call leads out of it. What a call does is a
parameter of the evaluation, and `invoke` closes the circle with a bound on the depth of
calls, so a run ends in a value, in a fault or by exceeding that depth.
-/
namespace CatScript

namespace Eval

/-- A piece of a run. The store is there behind a halt as well. -/
abbrev Action (α : Type) := EStateM Halt Store α

/-- How a statement ended: in the next one, or in a return with or without a value. -/
inductive Flow where
  | normal
  | returned (value : Option Value)
  deriving DecidableEq, Repr

/-- The value of a call whose body ended in this way. -/
def Flow.value : Flow → Value
  | normal => .null
  | returned none => .null
  | returned (some v) => v

/-- What calling a function with the given parameters does. -/
abbrev Invoke := Function → Table Value → Action Value

def fail {α : Type} (f : Fault) : Action α := throw (.fault f)

def Action.ofExcept {α : Type} : Except Fault α → Action α
  | .ok a => pure a
  | .error f => fail f

/-- Runs an action and changes the store it ends in, on success and on failure. -/
def ending {α : Type} (a : Action α) (f : Store → Store) : Action α := fun s =>
  match a s with
  | .ok v s => .ok v (f s)
  | .error e s => .error e (f s)

/-- Runs an action in a scope of its own. -/
def inScope {α : Type} (a : Action α) : Action α := fun s => ending a Store.pop s.push

/-- Runs an action in a call of its own. -/
def inCall {α : Type} (bindings : Table Value) (a : Action α) : Action α := fun s =>
  ending a (Store.leave · s.base) (s.enter bindings)

/-- The value of a variable. Reading one that is not there is a fault. -/
def lookUp (name : String) : Action Value := do
  match (← get).find? name with
  | some v => pure v
  | none => fail (.unboundVariable name)

/-- Overwrites a variable that is there. An assignment never makes one. -/
def assign (name : String) (value : Value) : Action Unit := do
  match (← get).assign? name value with
  | some s => set s
  | none => fail (.unboundVariable name)

/-- The function of a symbol, before any argument of the call is evaluated. -/
def lookUpFunction (symbol : String) : Action Function := do
  match (← get).functions.find? symbol with
  | some f => pure f
  | none => fail (.unknownFunction symbol)

theorem lookUp_apply (name : String) (s : Store) :
    lookUp name s = (match s.find? name with
      | some v => pure v
      | none => fail (.unboundVariable name) : Action Value) s := rfl

theorem assign_apply (name : String) (value : Value) (s : Store) :
    assign name value s = (match s.assign? name value with
      | some s => set s
      | none => fail (.unboundVariable name) : Action Unit) s := rfl

theorem lookUpFunction_apply (symbol : String) (s : Store) :
    lookUpFunction symbol s = (match s.functions.find? symbol with
      | some f => pure f
      | none => fail (.unknownFunction symbol) : Action Function) s := rfl

/-- Runs a loop's body once for each item, until one of them returns. -/
def forItems (name : String) (body : Action Flow) : List Value → Action Flow
  | [] => pure .normal
  | v :: vs => do
    match ← inScope (do modify (Store.define · name v); body) with
    | .normal => forItems name body vs
    | .returned r => pure (.returned r)

/-- The values over which a loop runs, fixed before its first round. -/
def items : Value → Action (List Value)
  | .list vs => pure vs
  | v => fail (.notIterable v.display)

end Eval

open Eval

namespace Expr

mutual

/-- The value of an expression, its parts from left to right. -/
def eval (invoke : Invoke) : Expr → Action Value
  | int _ v => pure (.int v)
  | str _ v => pure (.str v)
  | bool _ v => pure (.bool v)
  | null _ => pure .null
  | var _ x => lookUp x
  | unary _ op e => do
    let v ← e.eval invoke
    .ofExcept (op.apply v)
  | binary _ op l r => do
    let v ← l.eval invoke
    .ofExcept (op.leftOperand v)
    let w ← r.eval invoke
    .ofExcept (op.apply v w)
  | paren _ e => e.eval invoke
  | list _ es => do
    let vs ← evalAll invoke es
    pure (.list vs)
  | call _ f es symbol => do
    let function ← lookUpFunction (symbol.getD f)
    let bindings ← evalArgs invoke function.header.params es
    invoke function (.ofList bindings)

def evalAll (invoke : Invoke) : List Expr → Action (List Value)
  | [] => pure []
  | e :: es => do
    let v ← e.eval invoke
    let vs ← evalAll invoke es
    pure (v :: vs)

/-- The parameters with the values of their arguments. What has no partner is left out, and
not evaluated. -/
def evalArgs (invoke : Invoke) : List Param → List Expr → Action (List (String × Value))
  | p :: ps, e :: es => do
    let v ← e.eval invoke
    let more ← evalArgs invoke ps es
    pure ((p.name, v) :: more)
  | _, _ => pure []

end

end Expr

namespace Stmt

mutual

/-- What a statement does. A definition does nothing: its function is known from the start. -/
def exec (invoke : Invoke) : Stmt → Action Flow
  | print _ e => do
    let v ← e.eval invoke
    modify (Store.print · v)
    pure .normal
  | forEach _ x e body => do
    let v ← e.eval invoke
    let vs ← items v
    forItems x (execAll invoke body) vs
  | cond _ e yes none => do
    let v ← e.eval invoke
    let b ← Action.ofExcept (v.asBool "if")
    if b then inScope (execAll invoke yes) else pure .normal
  | cond _ e yes (some no) => do
    let v ← e.eval invoke
    let b ← Action.ofExcept (v.asBool "if")
    if b then inScope (execAll invoke yes) else inScope (execAll invoke no)
  | declare _ x _ e => do
    let v ← e.eval invoke
    modify (Store.define · x v)
    pure .normal
  | assign _ x e => do
    let v ← e.eval invoke
    Eval.assign x v
    pure .normal
  | call _ e => do
    let _ ← e.eval invoke
    pure .normal
  | define _ _ _ => pure .normal
  | ret _ none => pure (.returned none)
  | ret _ (some e) => do
    let v ← e.eval invoke
    pure (.returned (some v))
  | invalid _ _ => pure .normal

/-- Runs statements until one of them returns. -/
def execAll (invoke : Invoke) : List Stmt → Action Flow
  | [] => pure .normal
  | s :: ss => do
    match ← s.exec invoke with
    | .normal => execAll invoke ss
    | .returned v => pure (.returned v)

end

end Stmt

namespace Eval

/-- Calls a function, with at most `depth` calls inside each other. -/
def invoke : Nat → Invoke
  | 0, _, _ => throw .tooDeep
  | depth + 1, f, bindings => do
    let flow ← inCall bindings (Stmt.execAll (invoke depth) f.body)
    pure flow.value

end Eval

/-- The value of an expression that has no variables and no functions around it. -/
def Expr.evaluate (depth : Nat) (e : Expr) : Except Halt Value :=
  match e.eval (invoke depth) (.initial []) with
  | .ok v _ => .ok v
  | .error h _ => .error h

namespace Program

/-- What the program does. An expression prints its value. -/
def action (depth : Nat) (p : Program) : Action Unit :=
  match p.body with
  | .expression e => do
    let v ← e.eval (invoke depth)
    modify (Store.print · v)
  | .statements ss => do
    let _ ← Stmt.execAll (invoke depth) ss
    pure ()

/-- The text that a run of the program prints, with calls at most `depth` deep. -/
def run (depth : Nat) (p : Program) : Except Halt String :=
  match p.action depth (.initial p.functions) with
  | .ok _ s => .ok s.printed
  | .error h _ => .error h

end Program

end CatScript
