import CatScript.Proofs.Grammar.Anchors
import CatScript.Proofs.Typing.Scoping

/-!
# Where what is checked stands

Checking leaves the spans of a tree as they are, and it reports at the start of the span of a node
only. So what holds of the offsets at which a tree stands holds of them afterwards too, and of those
of all diagnostics.

Results:
* `Expr.StandsOn.check`, `Stmt.StandsOn.check`: a checked tree stands where it stood before.
* `Program.check_reportedAt`: the diagnostics of the checked program of some tokens stand where
  these start, in the middle of a `>=`, or where one of them stops.
-/
namespace CatScript

open Typing

/-! ## What is reported -/

namespace Typing

variable {P : Nat → Prop} {Γ : Context} {e : Expr} {span : Span}

theorem wants_reportedAt (t : Ty) (h : P e.span.start) : ReportedAt P (wants t e) :=
  .unless h

theorem fits_reportedAt (t : Ty) (h : P e.span.start) : ReportedAt P (fits t e) :=
  .unless h

theorem callTyping_reportedAt {es : List Expr} (s : Signature) (h : P span.start)
    (hes : Expr.StandsOnAll P es) : ReportedAt P (callTyping s span es).2 := by
  have hfits (ps : List (String × Ty)) :
      ReportedAt P (List.zipWith (fun p e => fits p.2 e) ps es).flatten := by
    induction es generalizing ps with
    | nil => simp [ReportedAt]
    | cons e es ih =>
      cases ps with
      | nil => exact .nil
      | cons p ps => exact (fits_reportedAt p.2 hes.1.start).append (ih hes.2 ps)
  unfold callTyping
  dsimp only
  split
  · exact .one h
  · exact hfits _

theorem loopTyping_reportedAt (h : P e.span.start) : ReportedAt P (loopTyping e).2 := by
  unfold loopTyping
  split
  · exact .nil
  · exact .one h

theorem assignErrors_reportedAt (x : String) (h : P span.start) (he : P e.span.start) :
    ReportedAt P (assignErrors Γ x span e) := by
  unfold assignErrors
  split
  · exact fits_reportedAt _ he
  · exact .one h

theorem returnErrors_reportedAt (t : Ty) (h : P e.span.start) :
    ReportedAt P (returnErrors t e) := by
  unfold returnErrors
  split
  · exact .one h
  · exact fits_reportedAt t h

theorem bareReturnErrors_reportedAt (t : Ty) (h : P span.start) :
    ReportedAt P (bareReturnErrors t span) :=
  .unless h

theorem endErrors_reportedAt (head : Header) (body : List Stmt) (h : P span.start) :
    ReportedAt P (endErrors head body span) := by
  unfold endErrors
  split
  · exact .one h
  · exact .nil

theorem declare_offset {x : String} {entity : Entity} {d : Diagnostic}
    (h : Γ.declare x entity span = .error d) : d.offset = span.start := by
  rw [Context.declare_error h]
  rfl

theorem bind_reportedAt (x : String) (t : Ty) (h : P span.start) :
    ReportedAt P (bind Γ x t span).1 := by
  unfold Typing.bind
  split
  · exact .nil
  · next d hd => exact .one ((declare_offset hd).symm ▸ h)

theorem bindAll_reportedAt (ps : List Param) (h : P span.start) :
    ReportedAt P (bindAll Γ span ps).1 := by
  induction ps generalizing Γ with
  | nil => exact .nil
  | cons p ps ih => exact (bind_reportedAt p.name p.ty h).append ih

theorem declareFunction_offset {s : Signature} {d : Diagnostic}
    (h : Γ.declareFunction s span = .error d) : d.offset = span.start := by
  unfold Context.declareFunction at h
  dsimp only at h
  split at h
  · next he =>
    cases h
    exact declare_offset he
  · cases h

theorem hoistOne_reportedAt {s : Stmt} (h : s.StandsOn P) :
    ReportedAt P (hoistOne Γ s).1.errors := by
  unfold hoistOne
  split
  · split
    · exact .nil
    · next hd => exact .one ((declareFunction_offset hd).symm ▸ h.1.start)
  · exact .nil

/-- Whatever declaring the functions of a block reports stands where they do. -/
theorem hoist_reportedAt {ss : List Stmt} (h : Stmt.StandsOnAll P ss) :
    ∀ slot ∈ (hoist Γ ss).1, ReportedAt P slot.errors := by
  induction ss generalizing Γ with
  | nil => exact List.forall_mem_nil _
  | cons s ss ih => exact List.forall_mem_cons.2 ⟨hoistOne_reportedAt h.1, ih h.2⟩

end Typing

theorem BinaryOp.typing_reportedAt {P : Nat → Prop} {l r : Expr} (op : BinaryOp)
    (hl : P l.span.start) (hr : P r.span.start) : ReportedAt P (op.typing l r).2 := by
  have hboth := (wants_reportedAt .int hl).append (wants_reportedAt .int hr)
  cases op with
  | add =>
    unfold typing
    dsimp only
    split
    · exact .nil
    · exact hboth
  | sub | mul | div | gt | ge | lt | le => exact hboth
  | eq | ne => exact .nil

/-! ## Trees -/

namespace Expr

variable {P : Nat → Prop}

mutual

theorem StandsOn.check (Γ : Context) : {e : Expr} → e.StandsOn P → (e.check Γ).StandsOn P
  | int _ _, h | str _ _, h | bool _ _, h | null _, h => NodeAt.append h .nil
  | var _ _, h => by
    simp only [Expr.check]
    split
    · exact NodeAt.append h .nil
    · exact NodeAt.append h (.one h.start)
  | unary _ op _, h =>
    have he := h.2.check Γ
    ⟨h.1.append (wants_reportedAt op.ty he.start), he⟩
  | binary _ op _ _, h =>
    have hl := h.2.1.check Γ
    have hr := h.2.2.check Γ
    ⟨h.1.append (op.typing_reportedAt hl.start hr.start), hl, hr⟩
  | paren _ _, h => ⟨h.1.append .nil, h.2.check Γ⟩
  | list _ _, h => ⟨h.1.append .nil, h.2.check Γ⟩
  | call _ _ _ _, h => by
    have hes := h.2.check Γ
    simp only [Expr.check]
    split
    · exact ⟨h.1.append (.one h.1.start), hes⟩
    · exact ⟨h.1.append (callTyping_reportedAt _ h.1.start hes), hes⟩

theorem StandsOnAll.check (Γ : Context) : {es : List Expr} → StandsOnAll P es →
    StandsOnAll P (checkAll Γ es)
  | [], _ => trivial
  | _ :: _, h => ⟨h.1.check Γ, h.2.check Γ⟩

end

end Expr

theorem Typing.Hoisted.diagnostics_header (slot : Hoisted) (h : Header) :
    (slot.header h).diagnostics = h.diagnostics := by
  cases slot <;> rfl

namespace Stmt

variable {P : Nat → Prop}

mutual

theorem StandsOn.check (Γ : Context) {slot : Hoisted} (hslot : ReportedAt P slot.errors) :
    {s : Stmt} → s.StandsOn P → (s.check Γ slot).1.StandsOn P
  | print _ _, h | Stmt.call _ _, h => ⟨h.1, h.2.check Γ⟩
  | forEach _ x e _, h =>
    have he := h.2.1.check Γ
    have hbound := bind_reportedAt x (loopTyping (e.check Γ)).1 h.1.start
    ⟨h.1.append ((loopTyping_reportedAt he.start).append hbound), he,
      h.2.2.check _ (hoist_reportedAt h.2.2)⟩
  | cond _ _ _ none, h =>
    have he := h.2.1.check Γ
    ⟨h.1.append (wants_reportedAt _ he.start), he, h.2.2.check _ (hoist_reportedAt h.2.2)⟩
  | cond _ _ _ (some _), h =>
    have he := h.2.1.check Γ
    ⟨h.1.append (wants_reportedAt _ he.start), he,
      h.2.2.1.check _ (hoist_reportedAt h.2.2.1), h.2.2.2.check _ (hoist_reportedAt h.2.2.2)⟩
  | declare _ x none _, h =>
    have he := h.2.check Γ
    ⟨h.1.append (.append .nil (bind_reportedAt x _ h.1.start)), he⟩
  | declare _ x (some t) _, h =>
    have he := h.2.2.check Γ
    ⟨h.1.append ((fits_reportedAt t.ty he.start).append (bind_reportedAt x _ h.1.start)), h.2.1, he⟩
  | assign _ x _, h =>
    have he := h.2.check Γ
    ⟨h.1.append (assignErrors_reportedAt x h.1.start he.start), he⟩
  | define _ head body, h =>
    have hbound := bindAll_reportedAt head.params h.1.start
    have hend := endErrors_reportedAt head body h.1.start
    ⟨h.1.append ((hslot.append hbound).append hend), (slot.diagnostics_header head).symm ▸ h.2.1,
      h.2.2.check _ (hoist_reportedAt h.2.2)⟩
  | ret _ none, h => NodeAt.append h (bareReturnErrors_reportedAt _ h.start)
  | ret _ (some _), h =>
    have he := h.2.check Γ
    ⟨h.1.append (returnErrors_reportedAt _ he.start), he⟩
  | invalid _ _, h => h

theorem StandsOnAll.check (Γ : Context) {slots : List Hoisted}
    (hslots : ∀ slot ∈ slots, ReportedAt P slot.errors) :
    {ss : List Stmt} → StandsOnAll P ss → StandsOnAll P (checkAll Γ slots ss).1
  | [], _ => trivial
  | s :: ss, h => by
    cases slots with
    | nil => exact ⟨h.1.check Γ .nil, h.2.check _ (List.forall_mem_nil _)⟩
    | cons slot slots =>
      obtain ⟨hslot, hslots⟩ := List.forall_mem_cons.1 hslots
      exact ⟨h.1.check Γ hslot, h.2.check _ hslots⟩

end

theorem StandsOnAll.checkBlock (Γ : Context) {ss : List Stmt} (h : StandsOnAll P ss) :
    StandsOnAll P (Stmt.checkBlock Γ ss).1 :=
  h.check _ (hoist_reportedAt h)

end Stmt

namespace Program

variable {P : Nat → Prop}

theorem StandsOn.check {p : Program} (h : p.StandsOn P) : p.check.StandsOn P := by
  obtain ⟨body, span⟩ := p
  cases body with
  | expression e => exact Expr.StandsOn.check _ h
  | statements ss => exact Stmt.StandsOnAll.checkBlock _ h

/-- The diagnostics of the checked program of some tokens. -/
theorem check_reportedAt {tokens : List Token} (h0 : P 0) (h : ∀ t ∈ tokens, t.Seated P) :
    ReportedAt P (ofTokens tokens).check.diagnostics :=
  (ofTokens_standsOn h0 h).check.reportedAt

end Program

end CatScript
