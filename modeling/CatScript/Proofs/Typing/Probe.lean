import CatScript.Typing.Stmt

/-!
# Probed checks

A check that is probed writes down every look-up it makes, with the context in which it makes it.
Its text is that of the check, with `seek` and `seekFunction` where the check looks a name up; that
it finds and reports the same is `Expr.value_probe`, `Stmt.value_probe` and `Program.value_probe`.

A variable is looked up where its name is an expression or the target of an assignment. Such a
place is an occurrence, told from others by its span, which for the target of an assignment is the
span of the statement.
-/
namespace CatScript

open Typing Context

/-- A place at which a name stands for a variable. -/
structure Occurrence where
  span : Span
  name : String
  deriving DecidableEq, Repr

namespace Typing

/-- A look-up in a context. -/
inductive Query where
  | variable (Γ : Context) (occurrence : Occurrence)
  | function (Γ : Context) (name : String)

namespace Query

def context : Query → Context
  | .variable Γ _ | .function Γ _ => Γ

/-- An occurrence of a variable with the type that is found for it. -/
def found? : Query → Option (Occurrence × Option Ty)
  | .variable Γ o => some (o, Γ.typeOf? o.name)
  | .function _ _ => none

end Query

/-- What a part of a check gives, and the look-ups it makes. -/
structure Probed (α : Type) where
  value : α
  queries : List Query

namespace Probed

variable {α β : Type}

instance : Monad Probed where
  pure a := ⟨a, []⟩
  bind x f := ⟨(f x.value).value, x.queries ++ (f x.value).queries⟩

@[simp] theorem value_pure (a : α) : (pure a : Probed α).value = a := rfl

@[simp] theorem value_bind (x : Probed α) (f : α → Probed β) :
    (x >>= f).value = (f x.value).value := rfl

@[simp] theorem queries_pure (a : α) : (pure a : Probed α).queries = [] := rfl

@[simp] theorem queries_bind (x : Probed α) (f : α → Probed β) :
    (x >>= f).queries = x.queries ++ (f x.value).queries := rfl

/-- The occurrences that have been looked up, with the types found. -/
def found (x : Probed α) : List (Occurrence × Option Ty) := x.queries.filterMap Query.found?

@[simp] theorem found_pure (a : α) : (pure a : Probed α).found = [] := rfl

@[simp] theorem found_bind (x : Probed α) (f : α → Probed β) :
    (x >>= f).found = x.found ++ (f x.value).found :=
  List.filterMap_append

end Probed

/-- Looks a variable up. -/
def seek (Γ : Context) (span : Span) (name : String) : Probed (Option Ty) :=
  ⟨Γ.typeOf? name, [.variable Γ ⟨span, name⟩]⟩

/-- Looks a function up. -/
def seekFunction (Γ : Context) (name : String) : Probed (Option Signature) :=
  ⟨Γ.signatureOf? name, [.function Γ name]⟩

@[simp] theorem value_seek (Γ : Context) (span : Span) (name : String) :
    (seek Γ span name).value = Γ.typeOf? name := rfl

@[simp] theorem found_seek (Γ : Context) (span : Span) (name : String) :
    (seek Γ span name).found = [(⟨span, name⟩, Γ.typeOf? name)] := rfl

@[simp] theorem value_seekFunction (Γ : Context) (name : String) :
    (seekFunction Γ name).value = Γ.signatureOf? name := rfl

@[simp] theorem found_seekFunction (Γ : Context) (name : String) :
    (seekFunction Γ name).found = [] := rfl

end Typing

/-! ## The check with its look-ups -/

namespace Expr

mutual

def probe (Γ : Context) : Expr → Probed Expr
  | int n v => pure (int (n.typed (.int, [])) v)
  | str n v => pure (str (n.typed (.string, [])) v)
  | bool n v => pure (bool (n.typed (.bool, [])) v)
  | null n => pure (null (n.typed (.object, [])))
  | var n x => do
    match ← seek Γ n.span x with
    | some t => pure (var (n.typed (t, [])) x)
    | none => pure (var (n.typed (.object, [(Cause.unresolvedSymbol x).at n.span])) x)
  | unary n op e => do
    let e ← e.probe Γ
    pure (unary (n.typed (op.ty, wants op.ty e)) op e)
  | binary n op l r => do
    let l ← l.probe Γ
    let r ← r.probe Γ
    pure (binary (n.typed (op.typing l r)) op l r)
  | paren n e => do
    let e ← e.probe Γ
    pure (paren (n.typed (e.ty, [])) e)
  | list n es => do
    let es ← probeAll Γ es
    pure (list (n.typed (.list (.join (es.map ty)), [])) es)
  | call n f es _ => do
    let es ← probeAll Γ es
    match ← seekFunction Γ f with
    | none => pure (call (n.typed (.object, [(Cause.unresolvedSymbol f).at n.span])) f es none)
    | some s => pure (call (n.typed (callTyping s n.span es)) f es (some s.symbol))

def probeAll (Γ : Context) : List Expr → Probed (List Expr)
  | [] => pure []
  | e :: es => do
    let e ← e.probe Γ
    let es ← probeAll Γ es
    pure (e :: es)

end

mutual

@[simp] theorem value_probe (Γ : Context) : (e : Expr) → (e.probe Γ).value = e.check Γ
  | int _ _ | str _ _ | bool _ _ | null _ => by simp only [probe, check, Probed.value_pure]
  | var n x => by
    simp only [probe, check, Probed.value_bind, value_seek]
    cases Γ.typeOf? x <;> rfl
  | unary _ _ e | paren _ e => by
    simp only [probe, check, Probed.value_bind, Probed.value_pure, value_probe Γ e]
  | binary _ _ l r => by
    simp only [probe, check, Probed.value_bind, Probed.value_pure, value_probe Γ l, value_probe Γ r]
  | list _ es => by
    simp only [probe, check, Probed.value_bind, Probed.value_pure, value_probeAll Γ es]
  | call n f es _ => by
    simp only [probe, check, Probed.value_bind, value_probeAll Γ es, value_seekFunction]
    cases Γ.signatureOf? f <;> rfl

@[simp] theorem value_probeAll (Γ : Context) :
    (es : List Expr) → (probeAll Γ es).value = checkAll Γ es
  | [] => rfl
  | e :: es => by
    simp only [probeAll, checkAll, Probed.value_bind, Probed.value_pure, value_probe Γ e,
      value_probeAll Γ es]

end

end Expr

namespace Stmt

mutual

/-- Checks a statement whose block has been hoisted with the given outcome for it. -/
def probe (Γ : Context) (slot : Hoisted) : Stmt → Probed (Stmt × Context)
  | print n e => do
    let e ← e.probe Γ
    pure (print n e, Γ)
  | call n e => do
    let e ← e.probe Γ
    pure (call n e, Γ)
  | forEach n x e body => do
    let e ← e.probe Γ
    let variableTyping := loopTyping e
    let bound := Typing.bind Γ.push x variableTyping.1 n.span
    let hoisted := hoist bound.2 body
    let inner ← probeAll hoisted.2 hoisted.1 body
    pure (forEach (n.report (variableTyping.2 ++ bound.1)) x e inner.1, inner.2.pop)
  | cond n e yes none => do
    let e ← e.probe Γ
    let hoisted := hoist Γ.push yes
    let inner ← probeAll hoisted.2 hoisted.1 yes
    pure (cond (n.report (wants .bool e)) e inner.1 none, inner.2.pop)
  | cond n e yes (some no) => do
    let e ← e.probe Γ
    let hoistedYes := hoist Γ.push yes
    let innerYes ← probeAll hoistedYes.2 hoistedYes.1 yes
    let hoistedNo := hoist innerYes.2.pop.push no
    let innerNo ← probeAll hoistedNo.2 hoistedNo.1 no
    pure (cond (n.report (wants .bool e)) e innerYes.1 (some innerNo.1), innerNo.2.pop)
  | declare n x t e => do
    let e ← e.probe Γ
    let typing := declareTyping t e
    let bound := Typing.bind Γ x typing.1 n.span
    pure (declare (n.report (typing.2 ++ bound.1)) x t e, bound.2)
  | assign n x e => do
    let e ← e.probe Γ
    match ← seek Γ n.span x with
    | some t => pure (assign (n.report (fits t e)) x e, Γ)
    | none => pure (assign (n.report [(Cause.unresolvedSymbol x).at n.span]) x e, Γ)
  | define n h body => do
    let bound := bindAll (Γ.enter h.resultTy) n.span h.params
    let hoisted := hoist bound.2 body
    let inner ← probeAll hoisted.2 hoisted.1 body
    pure (define (n.report (slot.errors ++ bound.1 ++ endErrors h body n.span)) (slot.header h)
      inner.1, inner.2.leave Γ)
  | ret n none => pure (ret (n.report (bareReturnErrors Γ.result n.span)) none, Γ)
  | ret n (some e) => do
    let e ← e.probe Γ
    pure (ret (n.report (returnErrors Γ.result e)) (some e), Γ)
  | invalid n t => pure (invalid n t, Γ)

/-- Checks the statements of a hoisted block in order. -/
def probeAll (Γ : Context) : List Hoisted → List Stmt → Probed (List Stmt × Context)
  | _, [] => pure ([], Γ)
  | slots, s :: ss => do
    let one ← s.probe Γ (slots.head?.getD .nothing)
    let more ← probeAll one.2 slots.tail ss
    pure (one.1 :: more.1, more.2)

end

/-- Checks a block in the innermost scope. -/
def probeBlock (Γ : Context) (body : List Stmt) : Probed (List Stmt × Context) :=
  let hoisted := hoist Γ body
  probeAll hoisted.2 hoisted.1 body

mutual

@[simp] theorem value_probe (Γ : Context) (slot : Hoisted) :
    (s : Stmt) → (s.probe Γ slot).value = s.check Γ slot
  | print _ e | call _ e | declare _ _ _ e | ret _ (some e) => by
    simp only [probe, check, Probed.value_bind, Probed.value_pure, Expr.value_probe]
  | forEach _ _ e body => by
    simp only [probe, check, Probed.value_bind, Probed.value_pure, Expr.value_probe,
      value_probeAll _ _ body]
  | cond _ e yes none => by
    simp only [probe, check, Probed.value_bind, Probed.value_pure, Expr.value_probe,
      value_probeAll _ _ yes]
  | cond _ e yes (some no) => by
    simp only [probe, check, Probed.value_bind, Probed.value_pure, Expr.value_probe,
      value_probeAll _ _ yes, value_probeAll _ _ no]
  | assign _ x e => by
    simp only [probe, check, Probed.value_bind, Expr.value_probe, value_seek, assignErrors]
    cases Γ.typeOf? x <;> rfl
  | define _ _ body => by
    simp only [probe, check, Probed.value_bind, Probed.value_pure, value_probeAll _ _ body]
  | ret _ none | invalid _ _ => by simp only [probe, check, Probed.value_pure]

@[simp] theorem value_probeAll (Γ : Context) (slots : List Hoisted) :
    (ss : List Stmt) → (probeAll Γ slots ss).value = checkAll Γ slots ss
  | [] => by simp only [probeAll, checkAll, Probed.value_pure]
  | s :: ss => by
    simp only [probeAll, checkAll, Probed.value_bind, Probed.value_pure, value_probe _ _ s,
      value_probeAll _ _ ss]

end

theorem value_probeBlock (Γ : Context) (body : List Stmt) :
    (probeBlock Γ body).value = checkBlock Γ body :=
  value_probeAll ..

end Stmt

namespace Program

/-- Checks a whole program. -/
def probe (p : Program) : Probed Program :=
  match p.body with
  | .expression e => do
    let e ← e.probe .empty
    pure { p with body := .expression e }
  | .statements ss => do
    let checked ← Stmt.probeBlock .empty ss
    pure { p with body := .statements checked.1 }

theorem value_probe (p : Program) : p.probe.value = p.check := by
  obtain ⟨body, span⟩ := p
  cases body with
  | expression e => simp only [probe, check, Probed.value_bind, Probed.value_pure, Expr.value_probe]
  | statements ss =>
    simp only [probe, check, Probed.value_bind, Probed.value_pure, Stmt.value_probeBlock]

end Program

end CatScript
