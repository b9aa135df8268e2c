import CatScript.Program
import CatScript.Typing.Expr

/-!
# Checking statements (specification §4.2)

A block is checked in two passes. The first declares the functions that stand directly in it,
so they can be called before their definition; the second checks the statements in order. A
loop, a branch and a function body are blocks in a scope of their own, and a loop's variable
and a function's parameters belong to that scope.

A statement's diagnostics are those it had, then that of a second function of its name, then
those found by checking it.
-/
namespace CatScript

open Typing

namespace Typing

/-! ## Declaring the functions of a block -/

/-- What declaring a statement in front of its block gave. -/
inductive Hoisted where
  | nothing
  | symbol (symbol : String)
  | duplicate (d : Diagnostic)
  deriving DecidableEq, Repr

def hoistOne (Γ : Context) : Stmt → Hoisted × Context
  | .define n h _ =>
    match Γ.declareFunction h.signature n.span with
    | .ok (symbol, Δ) => (.symbol symbol, Δ)
    | .error d => (.duplicate d, Γ)
  | _ => (.nothing, Γ)

/-- Declares the functions of a block, with an outcome for each of its statements. -/
def hoist (Γ : Context) : List Stmt → List Hoisted × Context
  | [] => ([], Γ)
  | s :: ss =>
    let one := hoistOne Γ s
    let more := hoist one.2 ss
    (one.1 :: more.1, more.2)

/-- A header with the symbol that declaring it gave. -/
def Hoisted.header (slot : Hoisted) (h : Header) : Header :=
  match slot with
  | .symbol s => { h with symbol := s }
  | _ => h

def Hoisted.errors : Hoisted → List Diagnostic
  | .duplicate d => [d]
  | _ => []

/-! ## Pieces of a check -/

/-- Declares a variable and reports it if its name is taken. -/
def bind (Γ : Context) (name : String) (ty : Ty) (span : Span) : List Diagnostic × Context :=
  match Γ.declareVariable name ty span with
  | .ok Δ => ([], Δ)
  | .error d => ([d], Γ)

/-- Declares the parameters of a function. Of two with one name the first counts. -/
def bindAll (Γ : Context) (span : Span) : List Param → List Diagnostic × Context
  | [] => ([], Γ)
  | p :: ps =>
    let one := bind Γ p.name p.ty span
    let more := bindAll one.2 span ps
    (one.1 ++ more.1, more.2)

/-- The type of a loop's variable, given the checked expression it runs over. -/
def loopTyping (e : Expr) : Ty × List Diagnostic :=
  match e.ty.element? with
  | some t => (t, [])
  | none => (.object, [(incompatible (.list .object) e.ty).at e.span])

/-- The type of a declared variable, given its checked value. -/
def declareTyping (declared : Option TypeName) (e : Expr) : Ty × List Diagnostic :=
  match declared with
  | some t => (t.ty, fits t.ty e)
  | none => (e.ty, [])

def assignErrors (Γ : Context) (name : String) (span : Span) (e : Expr) : List Diagnostic :=
  match Γ.typeOf? name with
  | some t => fits t e
  | none => [(Cause.unresolvedSymbol name).at span]

/-- What is wrong with returning a checked value. A `void` function returns none. -/
def returnErrors (expected : Ty) (e : Expr) : List Diagnostic :=
  if expected = .void then [(incompatible expected e.ty).at e.span] else fits expected e

def bareReturnErrors (expected : Ty) (span : Span) : List Diagnostic :=
  if expected = .void then [] else [(incompatible expected .void).at span]

/-- Reports a function that can end without the value it promises. -/
def endErrors (h : Header) (body : List Stmt) (span : Span) : List Diagnostic :=
  if h.resultTy ≠ .void ∧ Stmt.lastReturns body = false then [(Cause.missingReturn h.name).at span]
  else []

end Typing

/-- Adds diagnostics behind those the statement has. -/
def Stmt.Note.report (n : Stmt.Note) (errors : List Diagnostic) : Stmt.Note :=
  { n with errors := n.errors ++ errors }

namespace Stmt

mutual

/-- Checks a statement whose block has been hoisted with the given outcome for it. -/
def check (Γ : Context) (slot : Hoisted) : Stmt → Stmt × Context
  | print n e => (print n (e.check Γ), Γ)
  | call n e => (call n (e.check Γ), Γ)
  | forEach n x e body =>
    let e := e.check Γ
    let variableTyping := loopTyping e
    let bound := bind Γ.push x variableTyping.1 n.span
    let hoisted := hoist bound.2 body
    let inner := checkAll hoisted.2 hoisted.1 body
    (forEach (n.report (variableTyping.2 ++ bound.1)) x e inner.1, inner.2.pop)
  | cond n e yes none =>
    let e := e.check Γ
    let hoisted := hoist Γ.push yes
    let inner := checkAll hoisted.2 hoisted.1 yes
    (cond (n.report (wants .bool e)) e inner.1 none, inner.2.pop)
  | cond n e yes (some no) =>
    let e := e.check Γ
    let hoistedYes := hoist Γ.push yes
    let innerYes := checkAll hoistedYes.2 hoistedYes.1 yes
    let hoistedNo := hoist innerYes.2.pop.push no
    let innerNo := checkAll hoistedNo.2 hoistedNo.1 no
    (cond (n.report (wants .bool e)) e innerYes.1 (some innerNo.1), innerNo.2.pop)
  | declare n x t e =>
    let e := e.check Γ
    let typing := declareTyping t e
    let bound := bind Γ x typing.1 n.span
    (declare (n.report (typing.2 ++ bound.1)) x t e, bound.2)
  | assign n x e =>
    let e := e.check Γ
    (assign (n.report (assignErrors Γ x n.span e)) x e, Γ)
  | define n h body =>
    let bound := bindAll (Γ.enter h.resultTy) n.span h.params
    let hoisted := hoist bound.2 body
    let inner := checkAll hoisted.2 hoisted.1 body
    (define (n.report (slot.errors ++ bound.1 ++ endErrors h body n.span)) (slot.header h) inner.1,
      inner.2.leave Γ)
  | ret n none => (ret (n.report (bareReturnErrors Γ.result n.span)) none, Γ)
  | ret n (some e) =>
    let e := e.check Γ
    (ret (n.report (returnErrors Γ.result e)) (some e), Γ)
  | invalid n t => (invalid n t, Γ)

/-- Checks the statements of a hoisted block in order. -/
def checkAll (Γ : Context) : List Hoisted → List Stmt → List Stmt × Context
  | _, [] => ([], Γ)
  | slots, s :: ss =>
    let one := s.check Γ (slots.head?.getD .nothing)
    let more := checkAll one.2 slots.tail ss
    (one.1 :: more.1, more.2)

end

/-- Checks a block in the innermost scope. -/
def checkBlock (Γ : Context) (body : List Stmt) : List Stmt × Context :=
  let hoisted := hoist Γ body
  checkAll hoisted.2 hoisted.1 body

end Stmt

/-- Checks a whole program. -/
def Program.check (p : Program) : Program :=
  match p.body with
  | .expression e => { p with body := .expression (e.check .empty) }
  | .statements ss => { p with body := .statements (Stmt.checkBlock .empty ss).1 }

end CatScript
