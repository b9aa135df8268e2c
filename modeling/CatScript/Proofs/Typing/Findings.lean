import CatScript.Proofs.Typing.Annotations
import Mathlib.Data.List.Forall2

/-!
# What checking finds

At each node checking finds diagnostics, and a type for an expression, a symbol for a call and
for a function definition. A function that is reported as the second one of its name gets no
symbol. What is found is put into the annotations: diagnostics behind those that are there, a
type and a symbol in the place of the old one.

Results:
* `Program.findings_bare`: what is found does not depend on annotations.
* `Program.check_updates`: checking puts the findings into the annotations.
-/
namespace CatScript

open Typing

/-! ## Findings -/

/-- What is found at a node besides diagnostics. -/
inductive Verdict where
  | plain
  | function (name symbol : String)
  | duplicate (name : String)  -- the symbol stays as it is
  | expr (ty : Ty)
  | call (ty : Ty) (symbol : Option String)
  deriving DecidableEq, Repr

structure Finding where
  verdict : Verdict
  errors : List Diagnostic
  deriving DecidableEq, Repr

/-- The mark of a node before and after a verdict. -/
inductive Verdict.Turns : Verdict → Annotation.Mark → Annotation.Mark → Prop
  | plain : Turns .plain .plain .plain
  | function {name symbol old : String} :
      Turns (.function name symbol) (.function name old) (.function name symbol)
  | duplicate {name symbol : String} :
      Turns (.duplicate name) (.function name symbol) (.function name symbol)
  | expr {ty : Ty} {old : Option Ty} : Turns (.expr ty) (.expr old) (.expr (some ty))
  | call {ty : Ty} {symbol : Option String} {oldTy : Option Ty} {oldSymbol : Option String} :
      Turns (.call ty symbol) (.call oldTy oldSymbol) (.call (some ty) symbol)

/-- The annotations of all nodes before and after the findings are put into them. -/
inductive Updates : List Finding → List Annotation → List Annotation → Prop
  | nil : Updates [] [] []
  | cons {verdict : Verdict} {old new : Annotation.Mark} {errors added : List Diagnostic}
      {found : List Finding} {before after : List Annotation} :
      verdict.Turns old new → Updates found before after →
      Updates (⟨verdict, added⟩ :: found) (⟨old, errors⟩ :: before) (⟨new, errors ++ added⟩ :: after)

theorem Updates.append {found found' : List Finding} {before before' after after' : List Annotation}
    (h : Updates found before after) (h' : Updates found' before' after') :
    Updates (found ++ found') (before ++ before') (after ++ after') := by
  induction h with
  | nil => exact h'
  | cons ht _ ih => exact .cons ht ih

/-! ## Types and headers -/

/-- Nothing is found at a type that is written in the source. -/
def TypeName.findings (t : Option TypeName) : List Finding := t.toList.map fun _ => ⟨.plain, []⟩

def Header.findings (h : Header) : List Finding :=
  h.params.flatMap (fun p => TypeName.findings p.declared) ++ TypeName.findings h.result

theorem TypeName.findings_bare (t : Option TypeName) : findings (t.map bare) = findings t := by
  cases t <;> rfl

theorem Header.findings_bare (h : Header) : h.bare.findings = h.findings := by
  simp [findings, bare, Param.bare, TypeName.findings_bare, List.flatMap_map]

/-- Where nothing is found, nothing changes. -/
theorem Updates.nothing {mark : Annotation.Mark} {errors : List Diagnostic} {found : List Finding}
    {before after : List Annotation} {verdict : Verdict} (ht : verdict.Turns mark mark)
    (h : Updates found before after) :
    Updates (⟨verdict, []⟩ :: found) (⟨mark, errors⟩ :: before) (⟨mark, errors⟩ :: after) := by
  have hcons : Updates (⟨verdict, []⟩ :: found) (⟨mark, errors⟩ :: before)
      (⟨mark, errors ++ []⟩ :: after) := .cons ht h
  rwa [List.append_nil] at hcons

theorem TypeName.updates (t : Option TypeName) :
    Updates (findings t) (annotations t) (annotations t) := by
  cases t with
  | none => exact .nil
  | some t => exact .nothing .plain .nil

theorem Header.updates (h : Header) : Updates h.findings h.annotations h.annotations := by
  refine .append ?_ (TypeName.updates h.result)
  induction h.params with
  | nil => exact .nil
  | cons p ps ih => exact .append (TypeName.updates p.declared) ih

/-! ## Expressions -/

namespace Expr

mutual

/-- What checking finds in an expression and its parts. -/
def findings (Γ : Context) : Expr → List Finding
  | int _ _ => [⟨.expr .int, []⟩]
  | str _ _ => [⟨.expr .string, []⟩]
  | bool _ _ => [⟨.expr .bool, []⟩]
  | null _ => [⟨.expr .object, []⟩]
  | var n x =>
    match Γ.typeOf? x with
    | some t => [⟨.expr t, []⟩]
    | none => [⟨.expr .object, [(Cause.unresolvedSymbol x).at n.span]⟩]
  | unary _ op e => ⟨.expr op.ty, wants op.ty (e.check Γ)⟩ :: e.findings Γ
  | binary _ op l r =>
    let typing := op.typing (l.check Γ) (r.check Γ)
    ⟨.expr typing.1, typing.2⟩ :: (l.findings Γ ++ r.findings Γ)
  | paren _ e => ⟨.expr (e.check Γ).ty, []⟩ :: e.findings Γ
  | list _ es => ⟨.expr (.list (.join ((checkAll Γ es).map ty))), []⟩ :: findingsOfAll Γ es
  | call n f es _ =>
    match Γ.signatureOf? f with
    | none =>
      ⟨.call .object none, [(Cause.unresolvedSymbol f).at n.span]⟩ :: findingsOfAll Γ es
    | some s =>
      let typing := callTyping s n.span (checkAll Γ es)
      ⟨.call typing.1 (some s.symbol), typing.2⟩ :: findingsOfAll Γ es

def findingsOfAll (Γ : Context) : List Expr → List Finding
  | [] => []
  | e :: es => e.findings Γ ++ findingsOfAll Γ es

end

mutual

theorem check_updates (Γ : Context) :
    (e : Expr) → Updates (e.findings Γ) e.annotations (e.check Γ).annotations
  | int _ _ | str _ _ | bool _ _ | null _ => .cons .expr .nil
  | var _ x => by
    cases h : Γ.typeOf? x <;> simp only [findings, check, h] <;> exact .cons .expr .nil
  | unary _ _ e | paren _ e => .cons .expr (check_updates Γ e)
  | binary _ _ l r => .cons .expr (.append (check_updates Γ l) (check_updates Γ r))
  | list _ es => .cons .expr (checkAll_updates Γ es)
  | call _ f es _ => by
    cases h : Γ.signatureOf? f <;> simp only [findings, check, h] <;>
      exact .cons .call (checkAll_updates Γ es)

theorem checkAll_updates (Γ : Context) :
    (es : List Expr) →
      Updates (findingsOfAll Γ es) (annotationsOfAll es) (annotationsOfAll (checkAll Γ es))
  | [] => .nil
  | e :: es => .append (check_updates Γ e) (checkAll_updates Γ es)

end

/-- All that checking reads of a part of an expression. -/
structure Alike (e e' : Expr) : Prop where
  ty : e.ty = e'.ty
  span : e.span = e'.span

end Expr

namespace Typing

open CatScript.Expr (Alike)

variable {e e' : Expr}

theorem wants_congr (h : Alike e e') (t : Ty) : wants t e = wants t e' := by
  simp only [wants, h.ty, h.span]

theorem fits_congr (h : Alike e e') (t : Ty) : fits t e = fits t e' := by
  simp only [fits, h.ty, h.span]

theorem callTyping_congr {es es' : List Expr} (h : List.Forall₂ Alike es es') (s : Signature)
    (span : Span) : callTyping s span es = callTyping s span es' := by
  have hfits (ps : List (String × Ty)) :
      List.zipWith (fun p e => fits p.2 e) ps es = List.zipWith (fun p e => fits p.2 e) ps es' := by
    induction h generalizing ps with
    | nil => simp
    | cons h _ ih =>
      cases ps with
      | nil => rfl
      | cons p ps => simp only [List.zipWith_cons_cons, fits_congr h, ih]
  simp only [callTyping, h.length_eq, hfits]

end Typing

theorem BinaryOp.typing_congr {l l' r r' : Expr} (hl : l.Alike l') (hr : r.Alike r')
    (op : BinaryOp) : op.typing l r = op.typing l' r' := by
  cases op <;> simp only [typing, wants_congr hl, wants_congr hr, hl.ty, hr.ty]

namespace Expr

theorem map_ty_of_alike {es es' : List Expr} (h : List.Forall₂ Alike es es') :
    es.map ty = es'.map ty := by
  induction h with
  | nil => rfl
  | cons h _ ih => simp only [List.map_cons, h.ty, ih]

theorem span_check (Γ : Context) (e : Expr) : (e.check Γ).span = e.span := by
  cases e with
  | var n x =>
    simp only [check]
    split <;> rfl
  | call n f es s =>
    simp only [check]
    split <;> rfl
  | _ => rfl

theorem span_bare (e : Expr) : e.bare.span = e.span := by cases e <;> rfl

mutual

theorem ty_check_bare (Γ : Context) : (e : Expr) → (e.bare.check Γ).ty = (e.check Γ).ty
  | int _ _ | str _ _ | bool _ _ | null _ | unary _ _ _ => rfl
  | var _ x => by
    simp only [bare, check]
    split <;> rfl
  | binary _ op l r => by
    have h := BinaryOp.typing_congr (check_alike Γ l) (check_alike Γ r) op
    simp [bare, check, ty, note, Note.typed, h]
  | paren _ e => ty_check_bare Γ e
  | list _ es => by
    have h := map_ty_of_alike (checkAll_alike Γ es)
    simp [bare, check, ty, note, Note.typed, h]
  | call _ f es _ => by
    simp only [bare, check]
    split
    · rfl
    · next s _ =>
      have h := callTyping_congr (checkAll_alike Γ es) s
      simp [ty, note, Note.typed, h, Note.bare, Note.fresh]

theorem check_alike (Γ : Context) (e : Expr) : (e.bare.check Γ).Alike (e.check Γ) :=
  ⟨ty_check_bare Γ e, by rw [span_check, span_check, span_bare]⟩

theorem checkAll_alike (Γ : Context) :
    (es : List Expr) → List.Forall₂ Alike (checkAll Γ (bareOfAll es)) (checkAll Γ es)
  | [] => .nil
  | e :: es => .cons (check_alike Γ e) (checkAll_alike Γ es)

end

mutual

theorem findings_bare (Γ : Context) : (e : Expr) → e.bare.findings Γ = e.findings Γ
  | int _ _ | str _ _ | bool _ _ | null _ | var _ _ => rfl
  | unary _ op e => by
    simp [bare, findings, wants_congr (check_alike Γ e), findings_bare Γ e]
  | binary _ op l r => by
    simp [bare, findings, BinaryOp.typing_congr (check_alike Γ l) (check_alike Γ r),
      findings_bare Γ l, findings_bare Γ r]
  | paren _ e => by simp [bare, findings, ty_check_bare Γ e, findings_bare Γ e]
  | list _ es => by
    simp [bare, findings, map_ty_of_alike (checkAll_alike Γ es), findingsOfAll_bare Γ es]
  | call _ f es _ => by
    simp [bare, findings, callTyping_congr (checkAll_alike Γ es), findingsOfAll_bare Γ es,
      Note.bare, Note.fresh]

theorem findingsOfAll_bare (Γ : Context) :
    (es : List Expr) → findingsOfAll Γ (bareOfAll es) = findingsOfAll Γ es
  | [] => rfl
  | e :: es => by simp [bareOfAll, findingsOfAll, findings_bare Γ e, findingsOfAll_bare Γ es]

end

end Expr

/-! ## Statements -/

/-- What is found for the symbol of a function with the given name. -/
def Typing.Hoisted.verdict (name : String) : Hoisted → Verdict
  | .symbol s => .function name s
  | _ => .duplicate name

namespace Stmt

mutual

/-- What checking finds in a statement and its parts. -/
def findings (Γ : Context) (slot : Hoisted) : Stmt → List Finding
  | print _ e | call _ e => ⟨.plain, []⟩ :: e.findings Γ
  | forEach n x e body =>
    let variableTyping := loopTyping (e.check Γ)
    let bound := bind Γ.push x variableTyping.1 n.span
    let hoisted := hoist bound.2 body
    ⟨.plain, variableTyping.2 ++ bound.1⟩ ::
      (e.findings Γ ++ findingsOfAll hoisted.2 hoisted.1 body)
  | cond _ e yes none =>
    let hoisted := hoist Γ.push yes
    ⟨.plain, wants .bool (e.check Γ)⟩ :: (e.findings Γ ++ findingsOfAll hoisted.2 hoisted.1 yes)
  | cond _ e yes (some no) =>
    let hoistedYes := hoist Γ.push yes
    let hoistedNo := hoist (checkAll hoistedYes.2 hoistedYes.1 yes).2.pop.push no
    ⟨.plain, wants .bool (e.check Γ)⟩ ::
      (e.findings Γ ++ (findingsOfAll hoistedYes.2 hoistedYes.1 yes ++
        findingsOfAll hoistedNo.2 hoistedNo.1 no))
  | declare n x t e =>
    let typing := declareTyping t (e.check Γ)
    ⟨.plain, typing.2 ++ (bind Γ x typing.1 n.span).1⟩ :: (TypeName.findings t ++ e.findings Γ)
  | assign n x e => ⟨.plain, assignErrors Γ x n.span (e.check Γ)⟩ :: e.findings Γ
  | define n h body =>
    let bound := bindAll (Γ.enter h.resultTy) n.span h.params
    let hoisted := hoist bound.2 body
    ⟨slot.verdict h.name, slot.errors ++ bound.1 ++ endErrors h body n.span⟩ ::
      (h.findings ++ findingsOfAll hoisted.2 hoisted.1 body)
  | ret n none => [⟨.plain, bareReturnErrors Γ.result n.span⟩]
  | ret _ (some e) => ⟨.plain, returnErrors Γ.result (e.check Γ)⟩ :: e.findings Γ
  | invalid _ _ => [⟨.plain, []⟩]

def findingsOfAll (Γ : Context) : List Hoisted → List Stmt → List Finding
  | _, [] => []
  | slots, s :: ss =>
    let slot := slots.head?.getD .nothing
    s.findings Γ slot ++ findingsOfAll (s.check Γ slot).2 slots.tail ss

end

end Stmt

theorem Typing.Hoisted.turns (slot : Hoisted) (h : Header) :
    (slot.verdict h.name).Turns (.function h.name h.symbol)
      (.function (slot.header h).name (slot.header h).symbol) := by
  cases slot with
  | symbol s => exact .function
  | nothing => exact .duplicate
  | duplicate d => exact .duplicate

theorem Typing.Hoisted.annotations_header (slot : Hoisted) (h : Header) :
    (slot.header h).annotations = h.annotations := by
  cases slot <;> rfl

namespace Stmt

mutual

theorem check_updates (Γ : Context) (slot : Hoisted) :
    (s : Stmt) → Updates (s.findings Γ slot) s.annotations (s.check Γ slot).1.annotations
  | print _ e | call _ e => .nothing .plain (e.check_updates Γ)
  | assign _ _ e | ret _ (some e) => .cons .plain (e.check_updates Γ)
  | ret _ none => .cons .plain .nil
  | invalid _ _ => .nothing .plain .nil
  | forEach _ _ e body | cond _ e body none =>
    .cons .plain (.append (e.check_updates Γ) (checkAll_updates _ _ body))
  | cond _ e yes (some no) =>
    .cons .plain (.append (e.check_updates Γ)
      (.append (checkAll_updates _ _ yes) (checkAll_updates _ _ no)))
  | declare _ _ t e => .cons .plain (.append (TypeName.updates t) (e.check_updates Γ))
  | define n h body => by
    simp only [check, annotations, slot.annotations_header]
    exact .cons (slot.turns h) (.append h.updates (checkAll_updates _ _ body))

theorem checkAll_updates (Γ : Context) (slots : List Hoisted) :
    (ss : List Stmt) → Updates (findingsOfAll Γ slots ss) (annotationsOfAll ss)
      (annotationsOfAll (checkAll Γ slots ss).1)
  | [] => .nil
  | s :: ss => .append (check_updates _ _ s) (checkAll_updates _ _ ss)

end

end Stmt

/-! ## Contexts do not depend on annotations -/

theorem Param.name_bare (p : Param) : p.bare.name = p.name := rfl

theorem Param.ty_bare (p : Param) : p.bare.ty = p.ty := by
  obtain ⟨name, declared⟩ := p
  cases declared <;> rfl

theorem Header.resultTy_bare (h : Header) : h.bare.resultTy = h.resultTy := by
  obtain ⟨name, symbol, params, result⟩ := h
  cases result <;> rfl

theorem Header.signature_bare (h : Header) :
    h.bare.signature = { h.signature with symbol := h.name } := by
  have hparams : h.bare.params.map (fun p => (p.name, p.ty)) =
      h.params.map fun p => (p.name, p.ty) := by
    simp [bare, Function.comp_def, Param.name_bare, Param.ty_bare]
  simp only [signature, hparams, resultTy_bare]
  rfl

namespace Typing

theorem hoistOne_bare (Γ : Context) (s : Stmt) : hoistOne Γ s.bare = hoistOne Γ s := by
  cases s with
  | define n h body =>
    -- a function is declared under a new symbol, whatever symbol it has
    simp only [Stmt.bare, hoistOne, h.signature_bare]
    rfl
  | cond n e yes no => cases no <;> rfl
  | ret n e => cases e <;> rfl
  | _ => rfl

theorem hoist_bare (Γ : Context) (ss : List Stmt) : hoist Γ (Stmt.bareOfAll ss) = hoist Γ ss := by
  induction ss generalizing Γ with
  | nil => rfl
  | cons s ss ih => simp only [Stmt.bareOfAll, hoist, hoistOne_bare, ih]

theorem bindAll_bare (Γ : Context) (span : Span) (ps : List Param) :
    bindAll Γ span (ps.map Param.bare) = bindAll Γ span ps := by
  induction ps generalizing Γ with
  | nil => rfl
  | cons p ps ih => simp only [List.map_cons, bindAll, p.name_bare, p.ty_bare, ih]

variable {e e' : Expr}

theorem loopTyping_congr (h : e.Alike e') : loopTyping e = loopTyping e' := by
  simp only [loopTyping, h.ty, h.span]

theorem declareTyping_congr (h : e.Alike e') (t : Option TypeName) :
    declareTyping (t.map TypeName.bare) e = declareTyping t e' := by
  cases t with
  | none => simp only [declareTyping, Option.map_none, h.ty]
  | some t => simp only [declareTyping, Option.map_some, TypeName.bare, fits_congr h]

theorem assignErrors_congr (h : e.Alike e') (Γ : Context) (x : String) (span : Span) :
    assignErrors Γ x span e = assignErrors Γ x span e' := by
  simp only [assignErrors, fits_congr h]

theorem returnErrors_congr (h : e.Alike e') (t : Ty) : returnErrors t e = returnErrors t e' := by
  simp only [returnErrors, fits_congr h, h.ty, h.span]

end Typing

namespace Stmt

mutual

theorem returns_bare : (s : Stmt) → s.bare.returns = s.returns
  | cond _ _ yes (some no) => by simp only [bare, returns, lastReturns_bare yes, lastReturns_bare no]
  | cond _ _ _ none | print _ _ | call _ _ | forEach _ _ _ _ | declare _ _ _ _ | assign _ _ _
  | define _ _ _ | ret _ none | ret _ (some _) | invalid _ _ => rfl

theorem lastReturns_bare : (ss : List Stmt) → lastReturns (bareOfAll ss) = lastReturns ss
  | [] => rfl
  | [s] => by simp only [bareOfAll, lastReturns, returns_bare s]
  | _ :: s :: ss => by simpa only [bareOfAll, lastReturns] using lastReturns_bare (s :: ss)

end

mutual

theorem context_bare (Γ : Context) (slot : Hoisted) :
    (s : Stmt) → (s.bare.check Γ slot).2 = (s.check Γ slot).2
  | print _ _ | call _ _ | assign _ _ _ | ret _ none | ret _ (some _) | invalid _ _ => rfl
  | forEach _ _ e body => by
    simp only [bare, check, loopTyping_congr (e.check_alike Γ), hoist_bare, contextAll_bare _ _ body,
      Note.bare]
  | cond _ _ body none => by
    simp only [bare, check, hoist_bare, contextAll_bare _ _ body]
  | cond _ _ yes (some no) => by
    simp only [bare, check, hoist_bare, contextAll_bare _ _ yes, contextAll_bare _ _ no]
  | declare _ _ t e => by
    simp only [bare, check, declareTyping_congr (e.check_alike Γ), Note.bare]
  | define _ h body => by
    simp only [bare, check, h.resultTy_bare, hoist_bare, contextAll_bare _ _ body, Note.bare]
    simp only [Header.bare, bindAll_bare]

theorem contextAll_bare (Γ : Context) (slots : List Hoisted) :
    (ss : List Stmt) → (checkAll Γ slots (bareOfAll ss)).2 = (checkAll Γ slots ss).2
  | [] => rfl
  | s :: ss => by
    simp only [bareOfAll, checkAll, context_bare _ _ s, contextAll_bare _ _ ss]

end

/-! ## Findings do not depend on annotations -/

theorem endErrors_bare (h : Header) (body : List Stmt) (span : Span) :
    endErrors h.bare (bareOfAll body) span = endErrors h body span := by
  simp only [endErrors, h.resultTy_bare, lastReturns_bare]
  rfl

mutual

theorem findings_bare (Γ : Context) (slot : Hoisted) :
    (s : Stmt) → s.bare.findings Γ slot = s.findings Γ slot
  | print _ e | call _ e => by simp only [bare, findings, e.findings_bare]
  | assign _ _ e => by
    simp only [bare, findings, e.findings_bare, assignErrors_congr (e.check_alike Γ), Note.bare]
  | ret _ (some e) => by
    simp only [bare, findings, e.findings_bare, returnErrors_congr (e.check_alike Γ)]
  | ret _ none | invalid _ _ => rfl
  | forEach _ _ e body => by
    simp only [bare, findings, e.findings_bare, loopTyping_congr (e.check_alike Γ), hoist_bare,
      findingsOfAll_bare _ _ body, Note.bare]
  | cond _ e body none => by
    simp only [bare, findings, e.findings_bare, wants_congr (e.check_alike Γ), hoist_bare,
      findingsOfAll_bare _ _ body]
  | cond _ e yes (some no) => by
    simp only [bare, findings, e.findings_bare, wants_congr (e.check_alike Γ), hoist_bare,
      contextAll_bare, findingsOfAll_bare _ _ yes, findingsOfAll_bare _ _ no]
  | declare _ _ t e => by
    simp only [bare, findings, e.findings_bare, declareTyping_congr (e.check_alike Γ),
      TypeName.findings_bare, Note.bare]
  | define _ h body => by
    simp only [bare, findings, h.findings_bare, h.resultTy_bare, hoist_bare, endErrors_bare,
      findingsOfAll_bare _ _ body, Note.bare]
    simp only [Header.bare, bindAll_bare]

theorem findingsOfAll_bare (Γ : Context) (slots : List Hoisted) :
    (ss : List Stmt) → findingsOfAll Γ slots (bareOfAll ss) = findingsOfAll Γ slots ss
  | [] => rfl
  | s :: ss => by
    simp only [bareOfAll, findingsOfAll, context_bare, findings_bare _ _ s,
      findingsOfAll_bare _ _ ss]

end

end Stmt

/-! ## Programs -/

namespace Program

/-- What checking finds in a program. -/
def findings (p : Program) : List Finding :=
  match p.body with
  | .expression e => e.findings .empty
  | .statements ss =>
    let hoisted := hoist .empty ss
    Stmt.findingsOfAll hoisted.2 hoisted.1 ss

theorem findings_bare (p : Program) : p.bare.findings = p.findings := by
  obtain ⟨body, span⟩ := p
  cases body with
  | expression e => exact e.findings_bare _
  | statements ss => simp only [findings, bare, hoist_bare, Stmt.findingsOfAll_bare]

theorem check_updates (p : Program) : Updates p.findings p.annotations p.check.annotations := by
  obtain ⟨body, span⟩ := p
  cases body with
  | expression e => exact e.check_updates _
  | statements ss => exact Stmt.checkAll_updates _ _ ss

end Program

end CatScript
