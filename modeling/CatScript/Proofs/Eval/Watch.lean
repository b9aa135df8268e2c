import CatScript.Eval.Run
import CatScript.Proofs.Typing.Judgement

/-!
# Watched runs

A run that is watched keeps, beside every value, the type under which it was stored, and
writes down what happens in it: the value of each expression, each value that passes through a
declared type, each use of a variable, each store into one and the start of each loop. What is
written down are moments, an event with the scene in which it happened.

A scene holds the scopes of the running call, those of the calls it was made from and the
globals. The main program has no scope of its own: its variables are the globals.
-/
namespace CatScript

open Typing

namespace Eval

/-! ## Scenes -/

/-- A variable's value with the type it was declared with. -/
structure Binding where
  ty : Ty
  value : Value

structure Scene where
  locals : List (Table Binding)           -- of the running call, innermost first
  callers : List (List (Table Binding))   -- of the calls around it, the latest first
  globals : Table Binding
  output : List String                    -- latest line first

namespace Scene

/-- The scene at the start of a run. -/
def initial : Scene := ⟨[], [], [], []⟩

def find? (σ : Scene) (x : String) : Option Binding := Table.findIn? x (σ.locals ++ [σ.globals])

/-- Binds a name in the innermost scope. -/
def define (σ : Scene) (x : String) (b : Binding) : Scene :=
  match σ.locals with
  | [] => { σ with globals := σ.globals.insert x b }
  | scope :: scopes => { σ with locals := scope.insert x b :: scopes }

/-- Overwrites the binding that a look-up of the name finds. -/
def assign? (σ : Scene) (x : String) (b : Binding) : Option Scene :=
  match Table.assignIn? x b σ.locals with
  | some locals => some { σ with locals := locals }
  | none => if σ.globals.contains x then some { σ with globals := σ.globals.insert x b } else none

/-- All variables of the scene, those of the calls around the running one included. -/
def bindings (σ : Scene) : List Binding :=
  ((σ.locals ++ σ.callers.flatten ++ [σ.globals]).flatten).map (·.2)

def printed (σ : Scene) : String := "\n".intercalate σ.output.reverse

end Scene

/-! ## What is written down -/

/-- What a variable is looked up for. -/
inductive Access where
  | read
  | write
  deriving DecidableEq, Repr

inductive Event where
  | evaluated (e : Expr) (value : Value)
  | sought (access : Access) (name : String) -- a variable is looked up, whether it is found or not
  | passed (declared : Ty) (value : Value)   -- a value goes through a declared type
  | stored (name : Option String)            -- a variable, or the parameters of a call, are set
  | iterated (e : Expr) (value : Value)      -- a loop starts over the value of `e`

structure Moment where
  scene : Scene
  event : Event

structure Report (α : Type) where
  moments : List Moment
  result : Except Halt (α × Scene)

/-- Changes the scene in which a run ends. -/
def Report.ending {α : Type} (r : Report α) (f : Scene → Scene) : Report α :=
  ⟨r.moments, r.result.map fun a => (a.1, f a.2)⟩

def Watched (α : Type) := Scene → Report α

namespace Watched

variable {α β : Type}

protected def pure (a : α) : Watched α := fun σ => ⟨[], .ok (a, σ)⟩

protected def bind (w : Watched α) (f : α → Watched β) : Watched β := fun σ =>
  match (w σ).result with
  | .error h => ⟨(w σ).moments, .error h⟩
  | .ok (a, σ') => ⟨(w σ).moments ++ (f a σ').moments, (f a σ').result⟩

instance : Monad Watched where
  pure := Watched.pure
  bind := Watched.bind

def record (event : Event) : Watched Unit := fun σ => ⟨[⟨σ, event⟩], .ok ((), σ)⟩

def fail (f : Fault) : Watched α := fun _ => ⟨[], .error (.fault f)⟩

def ofExcept : Except Fault α → Watched α
  | .ok a => pure a
  | .error f => fail f

def modify (f : Scene → Scene) : Watched Unit := fun σ => ⟨[], .ok ((), f σ)⟩

/-- The value of an expression, written down. -/
def value (e : Expr) (v : Value) : Watched Value := do
  record (.evaluated e v)
  pure v

def find (x : String) : Watched Binding := fun σ =>
  match σ.find? x with
  | some b => Watched.pure b σ
  | none => fail (.unboundVariable x) σ

/-- Looks a variable up, and writes down what for. -/
def lookUp (access : Access) (x : String) : Watched Binding := do
  record (.sought access x)
  find x

/-- Binds a name in the innermost scope. -/
def define (x : String) (b : Binding) : Watched Unit := do
  modify (Scene.define · x b)
  record (.stored (some x))

/-- Overwrites the variable that the name means, through its declared type. -/
def assign (x : String) (v : Value) : Watched Unit := do
  let b ← lookUp .write x
  record (.passed b.ty v)
  modify fun σ => (σ.assign? x ⟨b.ty, v⟩).getD σ
  record (.stored (some x))

def lookUpFunction (functions : Table Function) (symbol : String) : Watched Function :=
  match functions.find? symbol with
  | some f => pure f
  | none => fail (.unknownFunction symbol)

def inScope (w : Watched α) : Watched α := fun σ =>
  (w { σ with locals := [] :: σ.locals }).ending fun τ => { τ with locals := τ.locals.tail }

/-- Runs a call with the given parameters, and goes back to the caller's scopes. -/
def inCall (params : Table Binding) (w : Watched α) : Watched α := fun σ =>
  (w { σ with locals := [params], callers := σ.locals :: σ.callers }).ending fun τ =>
    { τ with locals := σ.locals, callers := σ.callers }

def items : Value → Watched (List Value)
  | .list vs => pure vs
  | v => fail (.notIterable v.display)

def forItems (x : String) (element : Ty) (body : Watched Flow) : List Value → Watched Flow
  | [] => pure .normal
  | v :: vs => do
    match ← inScope (do define x ⟨element, v⟩; body) with
    | .normal => forItems x element body vs
    | .returned r => pure (.returned r)

/-- What calling a function with the given parameters does. -/
abbrev Invoke := Function → Table Binding → Watched Value

end Watched

end Eval

open Eval Watched

namespace Expr

mutual

def watch (functions : Table Function) (invoke : Watched.Invoke) : Expr → Watched Value
  | int n v => value (int n v) (.int v)
  | str n v => value (str n v) (.str v)
  | bool n v => value (bool n v) (.bool v)
  | null n => value (null n) .null
  | var n x => do
    let b ← lookUp .read x
    value (var n x) b.value
  | unary n op e => do
    let v ← e.watch functions invoke
    let u ← .ofExcept (op.apply v)
    value (unary n op e) u
  | binary n op l r => do
    let v ← l.watch functions invoke
    .ofExcept (op.leftOperand v)
    let w ← r.watch functions invoke
    let u ← .ofExcept (op.apply v w)
    value (binary n op l r) u
  | paren n e => do
    let v ← e.watch functions invoke
    value (paren n e) v
  | list n es => do
    let vs ← watchAll functions invoke es
    value (list n es) (.list vs)
  | call n f es symbol => do
    let function ← lookUpFunction functions (symbol.getD f)
    let params ← watchArgs functions invoke function.header.params es
    let v ← invoke function (.ofList params)
    value (call n f es symbol) v

def watchAll (functions : Table Function) (invoke : Watched.Invoke) :
    List Expr → Watched (List Value)
  | [] => pure []
  | e :: es => do
    let v ← e.watch functions invoke
    let vs ← watchAll functions invoke es
    pure (v :: vs)

def watchArgs (functions : Table Function) (invoke : Watched.Invoke) :
    List Param → List Expr → Watched (List (String × Binding))
  | p :: ps, e :: es => do
    let v ← e.watch functions invoke
    record (.passed p.ty v)
    let more ← watchArgs functions invoke ps es
    pure ((p.name, ⟨p.ty, v⟩) :: more)
  | _, _ => pure []

end

end Expr

namespace Stmt

mutual

/-- Runs a statement of a function with the given result type. -/
def watch (functions : Table Function) (invoke : Watched.Invoke) (result : Ty) :
    Stmt → Watched Flow
  | print _ e => do
    let v ← e.watch functions invoke
    modify fun σ => { σ with output := v.display :: σ.output }
    pure .normal
  | forEach _ x e body => do
    let v ← e.watch functions invoke
    record (.iterated e v)
    let vs ← items v
    forItems x (e.ty.element?.getD .object) (watchAll functions invoke result body) vs
  | cond _ e yes none => do
    let v ← e.watch functions invoke
    let b ← Watched.ofExcept (v.asBool "if")
    if b then inScope (watchAll functions invoke result yes) else pure .normal
  | cond _ e yes (some no) => do
    let v ← e.watch functions invoke
    let b ← Watched.ofExcept (v.asBool "if")
    if b then inScope (watchAll functions invoke result yes)
    else inScope (watchAll functions invoke result no)
  | declare _ x none e => do
    let v ← e.watch functions invoke
    Watched.define x ⟨e.ty, v⟩
    pure .normal
  | declare _ x (some t) e => do
    let v ← e.watch functions invoke
    record (.passed t.ty v)
    Watched.define x ⟨t.ty, v⟩
    pure .normal
  | assign _ x e => do
    let v ← e.watch functions invoke
    Watched.assign x v
    pure .normal
  | call _ e => do
    let _ ← e.watch functions invoke
    pure .normal
  | define _ _ _ => pure .normal
  | ret _ none => pure (.returned none)
  | ret _ (some e) => do
    let v ← e.watch functions invoke
    record (.passed result v)
    pure (.returned (some v))
  | invalid _ _ => pure .normal

def watchAll (functions : Table Function) (invoke : Watched.Invoke) (result : Ty) :
    List Stmt → Watched Flow
  | [] => pure .normal
  | s :: ss => do
    match ← s.watch functions invoke result with
    | .normal => watchAll functions invoke result ss
    | .returned v => pure (.returned v)

end

end Stmt

namespace Eval.Watched

/-- Calls a function, with at most `depth` calls inside each other. -/
def invoke (functions : Table Function) : Nat → Invoke
  | 0, _, _ => fun _ => ⟨[], .error .tooDeep⟩
  | depth + 1, f, params => do
    let flow ← inCall params (do
      record (.stored none)
      Stmt.watchAll functions (invoke functions depth) f.header.resultTy f.body)
    pure flow.value

end Eval.Watched

namespace Program

/-- The functions of the program by symbol. -/
def functionTable (p : Program) : Table Function :=
  .ofList (p.functions.map fun f => (f.header.symbol, f))

/-- The watched run of a program, with calls at most `depth` deep. -/
def watch (depth : Nat) (p : Program) : Report Unit :=
  let invoke := Watched.invoke p.functionTable depth
  let run : Watched Unit :=
    match p.body with
    | .expression e => do
      let v ← e.watch p.functionTable invoke
      modify fun σ => { σ with output := v.display :: σ.output }
    | .statements ss => do
      let _ ← Stmt.watchAll p.functionTable invoke .void ss
      pure ()
  run .initial

end Program

end CatScript
