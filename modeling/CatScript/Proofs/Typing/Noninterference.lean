import CatScript.Proofs.Typing.Findings
import CatScript.Proofs.Typing.Scoping

/-!
# Checking reads no annotation

What checking finds in a program is a function of its bare form. So it finds the same in all
programs of one bare form, and a second time what it found the first time. All that it reports
is about names and types, and a function keeps the symbol it had only if it is reported as the
second one of its name.

Results:
* `Program.findings_sound`: what may be found at a node.
* `Program.check_annotates`: checking changes annotations only, reads none of them, and changes
  nothing when it is repeated on a program without diagnostics about names and types.
-/
namespace CatScript

open Typing

/-! ## Only names and types are reported -/

/-- Diagnostics about names and types. -/
def Semantic (ds : List Diagnostic) : Prop := ∀ d ∈ ds, d.cause.isSemantic = true

theorem semantic_nil : Semantic [] := by simp [Semantic]

theorem semantic_at {cause : Cause} (h : cause.isSemantic = true) (span : Span) :
    Semantic [cause.at span] := by
  simpa [Semantic, Cause.at] using h

theorem Semantic.append {ds ds' : List Diagnostic} (h : Semantic ds) (h' : Semantic ds') :
    Semantic (ds ++ ds') := by
  intro d hd
  rcases List.mem_append.1 hd with hd | hd
  · exact h d hd
  · exact h' d hd

namespace Typing

theorem wants_semantic (t : Ty) (e : Expr) : Semantic (wants t e) := by
  unfold wants
  split
  · exact semantic_nil
  · exact semantic_at rfl _

theorem fits_semantic (t : Ty) (e : Expr) : Semantic (fits t e) := by
  unfold fits
  split
  · exact semantic_nil
  · exact semantic_at rfl _

theorem callTyping_semantic (s : Signature) (span : Span) (es : List Expr) :
    Semantic (callTyping s span es).2 := by
  unfold callTyping
  dsimp only
  split
  · exact semantic_at rfl _
  · intro d hd
    obtain ⟨ds, hds, hd⟩ := List.mem_flatten.1 hd
    obtain ⟨i, hi, rfl⟩ := List.getElem_of_mem hds
    rw [List.getElem_zipWith] at hd
    exact fits_semantic _ _ d hd

theorem bind_semantic (Γ : Context) (x : String) (t : Ty) (span : Span) :
    Semantic (bind Γ x t span).1 := by
  unfold bind
  split
  · exact semantic_nil
  · next d h =>
    rw [Context.declare_error h]
    exact semantic_at rfl _

theorem bindAll_semantic (Γ : Context) (span : Span) (ps : List Param) :
    Semantic (bindAll Γ span ps).1 := by
  induction ps generalizing Γ with
  | nil => exact semantic_nil
  | cons p ps ih => exact (bind_semantic Γ _ _ span).append (ih _)

theorem loopTyping_semantic (e : Expr) : Semantic (loopTyping e).2 := by
  unfold loopTyping
  split
  · exact semantic_nil
  · exact semantic_at rfl _

theorem declareTyping_semantic (t : Option TypeName) (e : Expr) :
    Semantic (declareTyping t e).2 := by
  cases t with
  | none => exact semantic_nil
  | some t => exact fits_semantic t.ty e

theorem assignErrors_semantic (Γ : Context) (x : String) (span : Span) (e : Expr) :
    Semantic (assignErrors Γ x span e) := by
  unfold assignErrors
  split
  · exact fits_semantic _ e
  · exact semantic_at rfl _

theorem returnErrors_semantic (t : Ty) (e : Expr) : Semantic (returnErrors t e) := by
  unfold returnErrors
  split
  · exact semantic_at rfl _
  · exact fits_semantic t e

theorem bareReturnErrors_semantic (t : Ty) (span : Span) : Semantic (bareReturnErrors t span) := by
  unfold bareReturnErrors
  split
  · exact semantic_nil
  · exact semantic_at rfl _

theorem endErrors_semantic (h : Header) (body : List Stmt) (span : Span) :
    Semantic (endErrors h body span) := by
  unfold endErrors
  split
  · exact semantic_at rfl _
  · exact semantic_nil

end Typing

theorem BinaryOp.typing_semantic (op : BinaryOp) (l r : Expr) : Semantic (op.typing l r).2 := by
  have hints := (wants_semantic .int l).append (wants_semantic .int r)
  cases op with
  | add =>
    unfold typing
    dsimp only
    split
    · exact semantic_nil
    · exact hints
  | eq | ne => exact semantic_nil
  | _ => exact hints

/-! ## What may be found -/

/-- Only diagnostics about names and types are found, and a function that gets no symbol is
reported as a duplicate. -/
structure Finding.Sound (f : Finding) : Prop where
  semantic : ∀ d ∈ f.errors, d.cause.isSemantic = true
  reported : ∀ name, f.verdict = .duplicate name → ∃ d ∈ f.errors, d.cause = .duplicateName name

theorem Finding.Sound.of_semantic {verdict : Verdict} {errors : List Diagnostic}
    (h : Semantic errors) (hv : ∀ name, verdict ≠ .duplicate name) :
    Finding.Sound ⟨verdict, errors⟩ :=
  ⟨h, fun name he => absurd he (hv name)⟩

theorem Finding.Sound.plain {errors : List Diagnostic} (h : Semantic errors) :
    Finding.Sound ⟨.plain, errors⟩ := .of_semantic h nofun

theorem Finding.Sound.expr {t : Ty} {errors : List Diagnostic} (h : Semantic errors) :
    Finding.Sound ⟨.expr t, errors⟩ := .of_semantic h nofun

/-- Every finding of a list is sound. -/
def AllSound (found : List Finding) : Prop := ∀ f ∈ found, f.Sound

theorem allSound_nil : AllSound [] := by simp [AllSound]

theorem AllSound.cons {f : Finding} {found : List Finding} (h : f.Sound) (h' : AllSound found) :
    AllSound (f :: found) := List.forall_mem_cons.2 ⟨h, h'⟩

theorem AllSound.append {found found' : List Finding} (h : AllSound found) (h' : AllSound found') :
    AllSound (found ++ found') := List.forall_mem_append.2 ⟨h, h'⟩

theorem TypeName.findings_sound (t : Option TypeName) : AllSound (findings t) := by
  cases t with
  | none => exact allSound_nil
  | some t => exact .cons (.plain semantic_nil) allSound_nil

theorem Header.findings_sound (h : Header) : AllSound h.findings := by
  refine .append ?_ (TypeName.findings_sound h.result)
  intro f hf
  obtain ⟨p, _, hp⟩ := List.mem_flatMap.1 hf
  exact TypeName.findings_sound p.declared f hp

namespace Expr

mutual

theorem findings_sound (Γ : Context) : (e : Expr) → AllSound (e.findings Γ)
  | int _ _ | str _ _ | bool _ _ | null _ => .cons (.expr semantic_nil) allSound_nil
  | var _ x => by
    simp only [findings]
    split
    · exact .cons (.expr semantic_nil) allSound_nil
    · exact .cons (.expr (semantic_at rfl _)) allSound_nil
  | unary _ _ e => .cons (.expr (wants_semantic _ _)) (findings_sound Γ e)
  | binary _ op l r =>
    .cons (.expr (op.typing_semantic _ _)) (.append (findings_sound Γ l) (findings_sound Γ r))
  | paren _ e => .cons (.expr semantic_nil) (findings_sound Γ e)
  | list _ es => .cons (.expr semantic_nil) (findingsOfAll_sound Γ es)
  | call _ f es _ => by
    simp only [findings]
    split
    · exact .cons (.of_semantic (semantic_at rfl _) nofun) (findingsOfAll_sound Γ es)
    · exact .cons (.of_semantic (callTyping_semantic _ _ _) nofun) (findingsOfAll_sound Γ es)

theorem findingsOfAll_sound (Γ : Context) : (es : List Expr) → AllSound (findingsOfAll Γ es)
  | [] => allSound_nil
  | e :: es => .append (findings_sound Γ e) (findingsOfAll_sound Γ es)

end

end Expr

namespace Stmt

/-- The outcome is one of declaring the statement in front of some block. -/
def Suits (slot : Hoisted) (s : Stmt) : Prop := ∃ Γ, slot = (hoistOne Γ s).1

theorem hoist_suits (Γ : Context) (ss : List Stmt) : List.Forall₂ Suits (hoist Γ ss).1 ss := by
  induction ss generalizing Γ with
  | nil => exact .nil
  | cons s ss ih => exact .cons ⟨Γ, rfl⟩ (ih _)

/-- A function that is declared without a symbol is reported for its name. -/
theorem define_sound {slot : Hoisted} {n : Note} {h : Header} {body : List Stmt}
    {errors : List Diagnostic} (hslot : Suits slot (define n h body)) (he : Semantic errors) :
    Finding.Sound ⟨slot.verdict h.name, slot.errors ++ errors⟩ := by
  obtain ⟨Γ, rfl⟩ := hslot
  unfold hoistOne
  dsimp only
  split
  · exact .of_semantic (semantic_nil.append he) nofun
  · next d hd =>
    have hd : d = (Cause.duplicateName h.name).at n.span := by
      unfold Context.declareFunction at hd
      dsimp only at hd
      split at hd
      · next hdeclare =>
        cases hd
        exact Context.declare_error hdeclare
      · cases hd
    subst hd
    refine ⟨(semantic_at rfl _).append he, ?_⟩
    intro name hname
    cases hname
    exact ⟨_, List.mem_cons_self, rfl⟩

mutual

theorem findings_sound (Γ : Context) {slot : Hoisted} :
    (s : Stmt) → Suits slot s → AllSound (s.findings Γ slot)
  | print _ e, _ | call _ e, _ => .cons (.plain semantic_nil) (e.findings_sound Γ)
  | assign _ _ e, _ => .cons (.plain (assignErrors_semantic _ _ _ _)) (e.findings_sound Γ)
  | ret _ none, _ => .cons (.plain (bareReturnErrors_semantic _ _)) allSound_nil
  | ret _ (some e), _ => .cons (.plain (returnErrors_semantic _ _)) (e.findings_sound Γ)
  | invalid _ _, _ => .cons (.plain semantic_nil) allSound_nil
  | forEach _ _ e body, _ =>
    .cons (.plain ((loopTyping_semantic _).append (bind_semantic _ _ _ _)))
      (.append (e.findings_sound Γ) (findingsOfAll_sound _ body (hoist_suits _ body)))
  | cond _ e body none, _ =>
    .cons (.plain (wants_semantic _ _))
      (.append (e.findings_sound Γ) (findingsOfAll_sound _ body (hoist_suits _ body)))
  | cond _ e yes (some no), _ =>
    .cons (.plain (wants_semantic _ _))
      (.append (e.findings_sound Γ) (.append (findingsOfAll_sound _ yes (hoist_suits _ yes))
        (findingsOfAll_sound _ no (hoist_suits _ no))))
  | declare _ _ t e, _ =>
    .cons (.plain ((declareTyping_semantic _ _).append (bind_semantic _ _ _ _)))
      (.append (TypeName.findings_sound t) (e.findings_sound Γ))
  | define n h body, hslot => by
    simp only [findings, List.append_assoc]
    exact .cons (define_sound hslot ((bindAll_semantic _ _ _).append (endErrors_semantic _ _ _)))
      (.append h.findings_sound (findingsOfAll_sound _ body (hoist_suits _ body)))

theorem findingsOfAll_sound (Γ : Context) {slots : List Hoisted} :
    (ss : List Stmt) → List.Forall₂ Suits slots ss → AllSound (findingsOfAll Γ slots ss)
  | [], _ => allSound_nil
  | s :: ss, .cons hs hss => .append (findings_sound Γ s hs) (findingsOfAll_sound _ ss hss)

end

end Stmt

theorem Program.findings_sound (p : Program) : AllSound p.findings := by
  obtain ⟨body, span⟩ := p
  cases body with
  | expression e => exact e.findings_sound _
  | statements ss => exact Stmt.findingsOfAll_sound _ ss (Stmt.hoist_suits _ ss)

/-! ## Repeated updates -/

namespace Annotation.Mark

/-- An expression has a type. -/
def Typed : Mark → Prop
  | expr none | call none _ => False
  | _ => True

end Annotation.Mark

theorem Verdict.Turns.typed {v : Verdict} {old new : Annotation.Mark} (h : v.Turns old new) :
    new.Typed := by
  cases h <;> trivial

/-- A verdict changes nothing the second time. -/
theorem Verdict.Turns.again {v : Verdict} {old new newer : Annotation.Mark} (h : v.Turns old new)
    (h' : v.Turns new newer) : newer = new := by
  cases h <;> cases h' <;> rfl

namespace Updates

variable {found : List Finding} {before between after : List Annotation}

theorem typed (h : Updates found before after) : ∀ a ∈ after, a.mark.Typed := by
  induction h with
  | nil => simp
  | cons ht _ ih => exact List.forall_mem_cons.2 ⟨ht.typed, ih⟩

theorem reports (h : Updates found before after) (hs : AllSound found) :
    List.Forall₂ (fun old new => ∃ added, new.errors = old.errors ++ added ∧ Semantic added)
      before after := by
  induction h with
  | nil => exact .nil
  | cons _ _ ih =>
    rw [AllSound, List.forall_mem_cons] at hs
    exact .cons ⟨_, rfl, hs.1.semantic⟩ (ih hs.2)

theorem marks_again (h : Updates found before between) (h' : Updates found between after) :
    after.map (·.mark) = between.map (·.mark) := by
  induction h generalizing after with
  | nil =>
    cases h'
    rfl
  | cons ht _ ih =>
    cases h' with
    | cons ht' h' => simp only [List.map_cons, ht.again ht', ih h']

/-- Where no diagnostic about names and types has been left, nothing has been found. -/
theorem again (h : Updates found before between) (h' : Updates found between after)
    (hs : AllSound found) (hclean : ∀ a ∈ between, ∀ d ∈ a.errors, d.cause.isSemantic = false) :
    after = between := by
  induction h generalizing after with
  | nil =>
    cases h'
    rfl
  | @cons _ _ _ errors added _ _ _ ht _ ih =>
    rw [AllSound, List.forall_mem_cons] at hs
    rw [List.forall_mem_cons] at hclean
    have hnone : added = [] := by
      apply List.eq_nil_iff_forall_not_mem.2
      intro d hd
      have hsemantic := hs.1.semantic d hd
      rw [hclean.1 d (List.mem_append_right _ hd)] at hsemantic
      cases hsemantic
    subst hnone
    cases h' with
    | cons ht' h' => rw [ht.again ht', ih h' hs.2 hclean.2, List.append_nil]

end Updates

/-! ## Programs -/

namespace Program

/-- What checking does to the annotations of a program. -/
structure Annotates (p : Program) : Prop where
  /-- Nothing but annotations changes. -/
  bare_eq : p.check.bare = p.bare
  /-- Every expression gets a type. -/
  typed : ∀ a ∈ p.check.annotations, a.mark.Typed
  /-- Diagnostics about names and types are added behind those of each node. -/
  reports : List.Forall₂
    (fun old new => ∃ added, new.errors = old.errors ++ added ∧ Semantic added)
    p.annotations p.check.annotations
  /-- The same is found in every program that differs in annotations only. -/
  same : ∀ q : Program, q.bare = p.bare → ∃ found, AllSound found ∧
    Updates found p.annotations p.check.annotations ∧
    Updates found q.annotations q.check.annotations
  /-- Types and symbols are the same after a second check. -/
  twice : p.check.check.bare = p.check.bare ∧
    p.check.check.annotations.map (·.mark) = p.check.annotations.map (·.mark)
  /-- A second check changes nothing if the first has left no diagnostic of its kind. -/
  stable : (∀ d ∈ p.check.diagnostics, d.cause.isSemantic = false) → p.check.check = p.check

theorem findings_eq {p q : Program} (h : q.bare = p.bare) : q.findings = p.findings := by
  rw [← p.findings_bare, ← q.findings_bare, h]

/-- Checking annotates, and depends on no annotation, whatever the program is. -/
theorem check_annotates (p : Program) : p.Annotates := by
  have hfirst := p.check_updates
  have hsecond : Updates p.findings p.check.annotations p.check.check.annotations :=
    findings_eq p.check_bare ▸ p.check.check_updates
  constructor
  case bare_eq => exact p.check_bare
  case typed => exact hfirst.typed
  case reports => exact hfirst.reports p.findings_sound
  case same =>
    intro q hq
    exact ⟨p.findings, p.findings_sound, hfirst, findings_eq hq ▸ q.check_updates⟩
  case twice => exact ⟨p.check.check_bare, hfirst.marks_again hsecond⟩
  case stable =>
    intro hclean
    refine eq_of_annotations p.check.check_bare (hfirst.again hsecond p.findings_sound ?_)
    intro a ha d hd
    apply hclean d
    rw [← p.check.annotations_errors]
    exact List.mem_flatMap.2 ⟨a, ha, hd⟩

end Program

end CatScript
