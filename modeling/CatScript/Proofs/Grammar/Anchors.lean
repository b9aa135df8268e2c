import CatScript.Proofs.Grammar.Movement
import CatScript.Proofs.Grammar.Spelling

/-!
# Where what is read stands

Every span starts at a token, and every diagnostic of reading stands at the start of one. The tokens
are those of the stream, and the second half of a `>=`, which starts one byte behind the first.

So let `P` hold of the offsets at which the tokens start and stop, and of the one behind the first
byte of a `>=`. Then it holds of every offset at which reading looks (`Cursor.StandsOn`). The proofs
follow the readers, with the same measure: they carry from a cursor to the tree that is read there,
of which `StandsOn` says that its spans start at such offsets and its diagnostics stand at them.

Results:
* `Cursor.ofTokens_standsOn`: so it is with the cursor on the first of some tokens.
* `expr_standsOn`, `stmt_standsOn`, `statements_standsOn`: what is read there.
* `Program.ofTokens_standsOn`: the program of these tokens.
-/
namespace CatScript

open Token (Kind)

/-! ## Offsets in a tree -/

/-- The diagnostics stand at such offsets. -/
def ReportedAt (P : Nat → Prop) (errors : List Diagnostic) : Prop := ∀ d ∈ errors, P d.offset

/-- A node's span starts at such an offset, and its diagnostics stand at them. -/
structure NodeAt (P : Nat → Prop) (span : Span) (errors : List Diagnostic) : Prop where
  start : P span.start
  errors : ReportedAt P errors

section

variable {P : Nat → Prop} {span : Span} {as bs : List Diagnostic}

theorem ReportedAt.nil : ReportedAt P [] := List.forall_mem_nil _

theorem ReportedAt.one {d : Diagnostic} (h : P d.offset) : ReportedAt P [d] :=
  List.forall_mem_singleton.2 h

theorem ReportedAt.append (ha : ReportedAt P as) (hb : ReportedAt P bs) :
    ReportedAt P (as ++ bs) :=
  List.forall_mem_append.2 ⟨ha, hb⟩

/-- What is reported if a condition does not hold. -/
theorem ReportedAt.unless {p : Prop} [Decidable p] {cause : Cause} (h : P span.start) :
    ReportedAt P (if p then [] else [cause.at span]) := by
  split
  · exact .nil
  · exact .one h

theorem NodeAt.silent (h : P span.start) : NodeAt P span [] := ⟨h, .nil⟩

/-- Further diagnostics of the node. -/
theorem NodeAt.append (h : NodeAt P span as) (hb : ReportedAt P bs) : NodeAt P span (as ++ bs) :=
  ⟨h.start, h.errors.append hb⟩

end

namespace Expr

mutual

/-- The nodes of the expression stand at such offsets. -/
def StandsOn (P : Nat → Prop) : Expr → Prop
  | int n _ | str n _ | bool n _ | null n | var n _ => NodeAt P n.span n.errors
  | unary n _ e | paren n e => NodeAt P n.span n.errors ∧ e.StandsOn P
  | binary n _ l r => NodeAt P n.span n.errors ∧ l.StandsOn P ∧ r.StandsOn P
  | list n es | call n _ es _ => NodeAt P n.span n.errors ∧ StandsOnAll P es

def StandsOnAll (P : Nat → Prop) : List Expr → Prop
  | [] => True
  | e :: es => e.StandsOn P ∧ StandsOnAll P es

end

variable {P : Nat → Prop}

theorem StandsOn.start {e : Expr} (h : e.StandsOn P) : P e.span.start := by
  cases e with
  | int | str | bool | null | var => exact NodeAt.start h
  | unary | binary | paren | list | call => exact h.1.start

mutual

theorem StandsOn.reportedAt : {e : Expr} → e.StandsOn P → ReportedAt P e.diagnostics
  | int _ _, h | str _ _, h | bool _ _, h | null _, h | var _ _, h => h.errors
  | unary _ _ _, h | paren _ _, h => h.1.errors.append (StandsOn.reportedAt h.2)
  | binary _ _ _ _, h =>
    (h.1.errors.append (StandsOn.reportedAt h.2.1)).append (StandsOn.reportedAt h.2.2)
  | list _ _, h | call _ _ _ _, h => h.1.errors.append (StandsOnAll.reportedAt h.2)

theorem StandsOnAll.reportedAt : {es : List Expr} → StandsOnAll P es →
    ReportedAt P (diagnosticsOfAll es)
  | [], _ => .nil
  | _ :: _, h => (StandsOn.reportedAt h.1).append (StandsOnAll.reportedAt h.2)

end

end Expr

namespace Stmt

mutual

/-- The nodes of the statement stand at such offsets, and so do the diagnostics of the types that
are written in it. -/
def StandsOn (P : Nat → Prop) : Stmt → Prop
  | print n e | call n e | assign n _ e | ret n (some e) =>
    NodeAt P n.span n.errors ∧ e.StandsOn P
  | forEach n _ e body => NodeAt P n.span n.errors ∧ e.StandsOn P ∧ StandsOnAll P body
  | cond n e yes none => NodeAt P n.span n.errors ∧ e.StandsOn P ∧ StandsOnAll P yes
  | cond n e yes (some no) =>
    NodeAt P n.span n.errors ∧ e.StandsOn P ∧ StandsOnAll P yes ∧ StandsOnAll P no
  | declare n _ none e => NodeAt P n.span n.errors ∧ e.StandsOn P
  | declare n _ (some t) e => NodeAt P n.span n.errors ∧ ReportedAt P t.errors ∧ e.StandsOn P
  | define n h body =>
    NodeAt P n.span n.errors ∧ ReportedAt P h.diagnostics ∧ StandsOnAll P body
  | ret n none | invalid n _ => NodeAt P n.span n.errors

def StandsOnAll (P : Nat → Prop) : List Stmt → Prop
  | [] => True
  | s :: ss => s.StandsOn P ∧ StandsOnAll P ss

end

variable {P : Nat → Prop}

mutual

theorem StandsOn.reportedAt : {s : Stmt} → s.StandsOn P → ReportedAt P s.diagnostics
  | print _ _, h | call _ _, h | assign _ _ _, h | ret _ (some _), h | declare _ _ none _, h =>
    h.1.errors.append h.2.reportedAt
  | forEach _ _ _ _, h | cond _ _ _ none, h =>
    (h.1.errors.append h.2.1.reportedAt).append (StandsOnAll.reportedAt h.2.2)
  | cond _ _ _ (some _), h =>
    ((h.1.errors.append h.2.1.reportedAt).append (StandsOnAll.reportedAt h.2.2.1)).append
      (StandsOnAll.reportedAt h.2.2.2)
  | declare _ _ (some _) _, h => (h.1.errors.append h.2.1).append h.2.2.reportedAt
  | define _ _ _, h => (h.1.errors.append h.2.1).append (StandsOnAll.reportedAt h.2.2)
  | ret _ none, h | invalid _ _, h => h.errors

theorem StandsOnAll.reportedAt : {ss : List Stmt} → StandsOnAll P ss →
    ReportedAt P (diagnosticsOfAll ss)
  | [], _ => .nil
  | _ :: _, h => (StandsOn.reportedAt h.1).append (StandsOnAll.reportedAt h.2)

end

theorem declare_standsOn {n : Note} {x : String} {t : Option TypeName} {e : Expr}
    (hn : NodeAt P n.span n.errors) (ht : ReportedAt P ((t.map (·.errors)).getD []))
    (he : e.StandsOn P) : (declare n x t e).StandsOn P := by
  cases t with
  | none => exact ⟨hn, he⟩
  | some t => exact ⟨hn, ht, he⟩

end Stmt

/-- The nodes of the program stand at such offsets. -/
def Program.StandsOn (P : Nat → Prop) (p : Program) : Prop :=
  match p.body with
  | .expression e => e.StandsOn P
  | .statements ss => Stmt.StandsOnAll P ss

theorem Program.StandsOn.reportedAt {P : Nat → Prop} {p : Program} (h : p.StandsOn P) :
    ReportedAt P p.diagnostics := by
  obtain ⟨body, span⟩ := p
  cases body with
  | expression e => exact Expr.StandsOn.reportedAt h
  | statements ss => exact Stmt.StandsOnAll.reportedAt h

/-! ## Offsets of tokens -/

/-- The token starts and stops at such offsets, and a `>=` can be split at one. -/
structure Token.Seated (P : Nat → Prop) (t : Token) : Prop where
  start : P t.span.start
  stop : P t.span.stop
  middle : t.kind = .greaterEqual → P (t.span.start + 1)

namespace Cursor

/-- Wherever reading comes to, the current token starts at such an offset. -/
def StandsOn (c : Cursor) (P : Nat → Prop) : Prop := ∀ d, c.Leads d → P d.current.span.start

variable {P : Nat → Prop} {c d : Cursor}

theorem StandsOn.leads (h : c.StandsOn P) (hd : c.Leads d) : d.StandsOn P :=
  fun _ hr => h _ (hd.trans hr)

theorem StandsOn.start (h : c.StandsOn P) : P c.current.span.start := h c (.refl c)

theorem StandsOn.next (h : c.StandsOn P) : c.advance.StandsOn P := h.leads (.next c)

theorem StandsOn.expectOr (h : c.StandsOn P) (k : Kind) (cause : Cause) :
    ReportedAt P (c.expectOr k cause).errors := by
  unfold Cursor.expectOr
  split
  · exact .nil
  · exact .one h.start

theorem StandsOn.expect (h : c.StandsOn P) (k : Kind) : ReportedAt P (c.expect k).errors :=
  h.expectOr k _

theorem start_spanFrom (c : Cursor) (span : Span) : (c.spanFrom span).start = span.start := by
  unfold spanFrom
  split <;> rfl

/-- The tokens ahead stay seated: those that are made on the way start where one of them does, in
the middle of a `>=`, or where the last one stops. -/
theorem Leads.seated (h : c.Leads d) (hc : ∀ t ∈ c.toCome, t.Seated P) :
    ∀ t ∈ d.toCome, t.Seated P := by
  induction h with
  | refl => exact hc
  | @advance d _ ih =>
    obtain ⟨hcurrent, hahead⟩ := List.forall_mem_cons.1 ih
    unfold Cursor.advance
    split
    · exact ih
    · split
      · next hnone =>
        refine List.forall_mem_cons.2 ⟨⟨hcurrent.stop, hcurrent.stop, fun hk => ?_⟩, hahead⟩
        cases hk
      · next t ts hmore =>
        rw [hmore] at hahead
        exact hahead
  | @split d _ hk ih =>
    obtain ⟨hcurrent, hahead⟩ := List.forall_mem_cons.1 ih
    have hmiddle := hcurrent.middle hk
    unfold Cursor.split
    split
    · exact ih
    · split
      · exact ih
      · split
        · exact ih
        · refine List.forall_mem_cons.2 ⟨⟨hcurrent.start, hmiddle, fun hk => ?_⟩,
            List.forall_mem_cons.2 ⟨⟨hmiddle, hcurrent.stop, fun hk => ?_⟩, hahead⟩⟩ <;> cases hk

theorem standsOn_of_seated (h : ∀ t ∈ c.toCome, t.Seated P) : c.StandsOn P :=
  fun d hd => (hd.seated h d.current (List.mem_cons_self ..)).start

/-- The `eof` token that a stream may get stands behind the last token, or at offset 0. -/
theorem ofTokens_standsOn {tokens : List Token} (h0 : P 0) (h : ∀ t ∈ tokens, t.Seated P) :
    (ofTokens tokens).StandsOn P := by
  have heof (span : Span) (hstart : P span.start) (hstop : P span.stop) :
      (Token.endAt span).Seated P := ⟨hstart, hstop, fun hk => by cases hk⟩
  have hall : ∀ t ∈ terminated tokens, t.Seated P := by
    unfold terminated
    split
    · exact List.forall_mem_singleton.2 (heof .nowhere h0 h0)
    · next last hlast =>
      have hstop := (h last (List.mem_of_getLast? hlast)).stop
      split
      · exact h
      · exact List.forall_mem_append.2 ⟨h, List.forall_mem_singleton.2 (heof _ hstop hstop)⟩
  refine standsOn_of_seated ?_
  unfold ofTokens
  split
  · exact List.forall_mem_singleton.2 (heof .nowhere h0 h0)
  · next t ts hcons =>
    rw [hcons] at hall
    exact hall

end Cursor

/-! ## Reading -/

namespace Grammar

open Cursor

theorem Outcome.leads_of_ok {α : Type} {o : Outcome α} {c r : Cursor} {a : α}
    (h : c.Leads o.rest) (ho : o = .ok a r) : c.Leads r := by
  rwa [ho] at h

theorem unexpected_offset (t : Token) : t.unexpected.offset = t.span.start := by
  unfold Token.unexpected
  split <;> rfl

theorem ofUnexpected_standsOn {P : Nat → Prop} {t : Token} (h : P t.span.start) :
    (Stmt.ofUnexpected t).StandsOn P :=
  ⟨h, .one (by rwa [unexpected_offset])⟩

theorem close_standsOn {P : Nat → Prop} {opening : Token} {closing : Kind} {cause : Cause}
    {build : Expr.Note → Expr} {c r : Cursor} {e : Expr} (hc : c.StandsOn P)
    (hopening : P opening.span.start)
    (hbuild : ∀ n : Expr.Note, NodeAt P n.span n.errors → (build n).StandsOn P)
    (ho : close opening closing cause build c = .ok e r) : e.StandsOn P := by
  cases ho
  refine hbuild _ ⟨?_, hc.expectOr closing cause⟩
  rw [Expr.Note.fresh, start_spanFrom]
  exact hopening

theorem integerLiteral_standsOn {P : Nat → Prop} {t : Token} (h : P t.span.start) :
    (integerLiteral t).StandsOn P := by
  unfold integerLiteral
  split
  · exact .silent h
  · exact ⟨h, .one h⟩

/-! ### Expressions -/

mutual

theorem binary_standsOn {P : Nat → Prop} {level : Level} {c r : Cursor} {e : Expr}
    (hc : c.StandsOn P) (ho : binary level c = .ok e r) : e.StandsOn P := by
  by_cases hl : level.isBinary = true
  · rw [binary_of_isBinary hl] at ho
    obtain ⟨left, d, hleft, ho⟩ := Outcome.bind_eq_ok.1 ho
    have hw := binary_ok_lt hleft
    have hd := hc.leads (Outcome.leads_of_ok (binary_leads level.tighter c) hleft)
    exact chain_standsOn hd (binary_standsOn hc hleft) ho
  · rw [binary_of_not_isBinary (by simpa using hl)] at ho
    exact unary_standsOn hc ho
termination_by 16 * c.weight + level.height + 3
decreasing_by
  · have := Level.height_tighter hl; omega
  · have := Level.height_le level; omega
  · omega

theorem chain_standsOn {P : Nat → Prop} {level : Level} {left e : Expr} {c r : Cursor}
    (hc : c.StandsOn P) (hleft : left.StandsOn P) (ho : chain level left c = .ok e r) :
    e.StandsOn P := by
  rw [chain_eq] at ho
  cases hop : operatorAt? level c with
  | none =>
    rw [hop] at ho
    cases ho
    exact hleft
  | some op =>
    rw [hop] at ho
    obtain ⟨right, d, hright, ho⟩ := Outcome.bind_eq_ok.1 ho
    have hlt := c.weight_advance_lt (kind_ne_eof_of_operatorAt? hop)
    have hw := binary_ok_lt hright
    have hd := hc.next.leads (Outcome.leads_of_ok (binary_leads level.tighter _) hright)
    have hnode : (binaryNode op left right).StandsOn P :=
      ⟨.silent hleft.start, hleft, binary_standsOn hc.next hright⟩
    exact chain_standsOn hd hnode ho
termination_by 16 * c.weight
decreasing_by
  · have := Level.height_le level.tighter; omega
  · omega

theorem unary_standsOn {P : Nat → Prop} {c r : Cursor} {e : Expr} (hc : c.StandsOn P)
    (ho : unary c = .ok e r) : e.StandsOn P := by
  rw [unary_eq] at ho
  cases hop : UnaryOp.ofKind? c.kind with
  | none =>
    rw [hop] at ho
    exact primary_standsOn hc ho
  | some op =>
    rw [hop] at ho
    have hlt := c.weight_advance_lt (kind_ne_eof_of_unaryOp hop)
    obtain ⟨operand, hoperand, rfl⟩ := Outcome.map_eq_ok.1 ho
    exact ⟨.silent hc.start, unary_standsOn hc.next hoperand⟩
termination_by 16 * c.weight + 2

theorem primary_standsOn {P : Nat → Prop} {c r : Cursor} {e : Expr} (hc : c.StandsOn P)
    (ho : primary c = .ok e r) : e.StandsOn P := by
  have hk : c.kind ≠ .eof := by
    intro hk
    rw [primary_eq, hk] at ho
    cases ho
  have hlt := c.weight_advance_lt hk
  have hlt2 := Nat.lt_of_le_of_lt c.advance.weight_advance_le hlt
  rw [primary_eq] at ho
  split at ho
  · cases ho
    exact integerLiteral_standsOn hc.start
  · cases ho
    exact .silent hc.start
  · cases ho
    exact .silent hc.start
  · cases ho
    exact .silent hc.start
  · cases ho
    exact .silent hc.start
  · split at ho
    · exact callRest_standsOn hc.next.next hc.start ho
    · cases ho
      exact .silent hc.start
  · exact listRest_standsOn hc.next hc.start ho
  · exact groupRest_standsOn hc.next hc.start ho
  · cases ho
termination_by 16 * c.weight + 1

theorem callRest_standsOn {P : Nat → Prop} {name : Token} {c r : Cursor} {e : Expr}
    (hc : c.StandsOn P) (hname : P name.span.start) (ho : callRest name c = .ok e r) :
    e.StandsOn P := by
  rw [callRest_eq] at ho
  obtain ⟨args, d, hargs, ho⟩ := Outcome.bind_eq_ok.1 ho
  have hd := hc.leads (Outcome.leads_of_ok (items_leads _ c) hargs)
  refine close_standsOn hd hname (fun n hn => ?_) ho
  exact ⟨hn, items_standsOn hc hargs⟩
termination_by 16 * c.weight + 12

theorem listRest_standsOn {P : Nat → Prop} {opening : Token} {c r : Cursor} {e : Expr}
    (hc : c.StandsOn P) (hopening : P opening.span.start) (ho : listRest opening c = .ok e r) :
    e.StandsOn P := by
  rw [listRest_eq] at ho
  obtain ⟨es, d, hes, ho⟩ := Outcome.bind_eq_ok.1 ho
  have hd := hc.leads (Outcome.leads_of_ok (items_leads _ c) hes)
  refine close_standsOn hd hopening (fun n hn => ?_) ho
  exact ⟨hn, items_standsOn hc hes⟩
termination_by 16 * c.weight + 12

theorem groupRest_standsOn {P : Nat → Prop} {opening : Token} {c r : Cursor} {e : Expr}
    (hc : c.StandsOn P) (hopening : P opening.span.start) (ho : groupRest opening c = .ok e r) :
    e.StandsOn P := by
  rw [groupRest_eq] at ho
  obtain ⟨inner, d, hinner, ho⟩ := Outcome.bind_eq_ok.1 ho
  have hd := hc.leads (Outcome.leads_of_ok (expr_leads c) hinner)
  refine close_standsOn hd hopening (fun n hn => ?_) ho
  exact ⟨hn, binary_standsOn hc hinner⟩
termination_by 16 * c.weight + 12
decreasing_by simp only [Level.height]; omega

theorem items_standsOn {P : Nat → Prop} {closing : Kind} {c r : Cursor} {es : List Expr}
    (hc : c.StandsOn P) (ho : items closing c = .ok es r) : Expr.StandsOnAll P es := by
  rw [items_eq] at ho
  split at ho
  · cases ho
    trivial
  · exact seq_standsOn hc ho
termination_by 16 * c.weight + 11

theorem seq_standsOn {P : Nat → Prop} {c r : Cursor} {es : List Expr}
    (hc : c.StandsOn P) (ho : seq c = .ok es r) : Expr.StandsOnAll P es := by
  rw [seq_eq] at ho
  obtain ⟨e, d, he, ho⟩ := Outcome.bind_eq_ok.1 ho
  have hw := binary_ok_lt he
  have hfirst : e.StandsOn P := binary_standsOn hc he
  cases ha : d.accept? .comma with
  | none =>
    rw [ha] at ho
    cases ho
    exact ⟨hfirst, trivial⟩
  | some d' =>
    rw [ha] at ho
    have hlt := Cursor.weight_accept?_lt (by decide) ha
    have hd := hc.leads ((Outcome.leads_of_ok (expr_leads c) he).trans (.accept? ha))
    obtain ⟨more, hmore, rfl⟩ := Outcome.map_eq_ok.1 ho
    exact ⟨hfirst, seq_standsOn hd hmore⟩
termination_by 16 * c.weight + 10
decreasing_by
  · simp only [Level.height]; omega
  · omega

end

section

variable {P : Nat → Prop} {start : Token} {c r : Cursor} {s : Stmt}

theorem expr_standsOn {e : Expr} (hc : c.StandsOn P) (ho : expr c = .ok e r) : e.StandsOn P :=
  binary_standsOn hc ho

/-! ### Types and headers -/

theorem typeNameWithin_reportedAt (hc : c.StandsOn P) :
    ReportedAt P (typeNameWithin c).1.1.errors := by
  fun_induction typeNameWithin c with
  | case1 | case3 => exact .nil
  | case2 c name hk hlt hn d hd hw element r h he closed ih =>
    have hd' := hc.next.leads (.accept? hd)
    have hr := hd'.leads (typeNameWithin_leads d)
    rw [he] at ih hr
    exact (ih hd').append ((hr.leads (splitGreater_leads r)).expect .greater)
  | case4 | case5 => exact .one hc.start

theorem declaredType_reportedAt (hc : c.StandsOn P) :
    ReportedAt P (((declaredType c).1.map (·.errors)).getD []) := by
  unfold declaredType
  split
  · exact .nil
  · next d hd => exact typeNameWithin_reportedAt (hc.leads (.accept? hd))

theorem params_reportedAt (hc : c.StandsOn P) :
    ReportedAt P ((params c).1.flatMap fun p => (p.declared.map (·.errors)).getD []) := by
  fun_induction params c with
  | case1 c hk ty hd =>
    rw [List.flatMap_singleton]
    exact declaredType_reportedAt hc.next
  | case2 c hk ty d hd more ih =>
    have hrest := hc.next.leads ((declaredType_leads _).trans (.accept? hd))
    rw [List.flatMap_cons]
    exact (declaredType_reportedAt hc.next).append (ih hrest)
  | case3 => exact .nil

theorem header_reportedAt (hc : c.StandsOn P) :
    ReportedAt P (header c).errors ∧ ReportedAt P (header c).header.diagnostics := by
  have hname := hc.leads (.expect c .identifier)
  have hparams := hname.leads (.expect _ .leftParen)
  have hclose := hparams.leads (params_leads _)
  have hresult := hclose.leads (.expect _ .rightParen)
  exact ⟨((hc.expect _).append (hname.expect _)).append (hclose.expect _),
    (params_reportedAt hparams).append (declaredType_reportedAt hresult)⟩

/-! ### Statements without a body -/

theorem printRest_standsOn (hc : c.StandsOn P) (hstart : P start.span.start)
    (ho : printRest start c = .ok s r) : s.StandsOn P := by
  obtain ⟨e, d, he, ho⟩ := Outcome.bind_eq_ok.1 ho
  cases ho
  have hvalue := hc.leads (.expect c .leftParen)
  have hd := hvalue.leads (Outcome.leads_of_ok (expr_leads _) he)
  refine ⟨⟨?_, (hc.expect _).append (hd.expect _)⟩, expr_standsOn hvalue he⟩
  rwa [start_spanFrom]

theorem declareRest_standsOn (hc : c.StandsOn P) (hstart : P start.span.start)
    (ho : declareRest start c = .ok s r) : s.StandsOn P := by
  obtain ⟨e, d, he, ho⟩ := Outcome.bind_eq_ok.1 ho
  have hname := hc.leads (.expect c .identifier)
  have hequal := hname.leads (declaredType_leads _)
  have hvalue := expr_standsOn (hequal.leads (.expect _ .equal)) he
  have htype := declaredType_reportedAt hname
  cases ho
  refine Stmt.declare_standsOn ⟨?_, (hc.expect _).append (hequal.expect _)⟩ htype hvalue
  rwa [start_spanFrom]

theorem nameRest_standsOn (hc : c.StandsOn P) (hstart : P start.span.start)
    (ho : nameRest start c = .ok s r) : s.StandsOn P := by
  unfold nameRest at ho
  split at ho
  · obtain ⟨e, he, rfl⟩ := Outcome.map_eq_ok.1 ho
    have hcall := callRest_standsOn hc.next hstart he
    exact ⟨.silent hcall.start, hcall⟩
  · obtain ⟨e, d, he, ho⟩ := Outcome.bind_eq_ok.1 ho
    cases ho
    exact ⟨.silent (by rwa [start_spanFrom]), expr_standsOn hc.next he⟩
  · cases ho
    exact ofUnexpected_standsOn hstart

theorem returnRest_standsOn (hc : c.StandsOn P) (hstart : P start.span.start)
    (ho : returnRest start c = .ok s r) : s.StandsOn P := by
  unfold returnRest at ho
  split at ho
  · obtain ⟨e, d, he, ho⟩ := Outcome.bind_eq_ok.1 ho
    cases ho
    exact ⟨.silent (by rwa [start_spanFrom]), expr_standsOn hc he⟩
  · cases ho
    exact .silent (by rwa [start_spanFrom])

/-- A statement that is given up stands at the token that it names. -/
theorem settle_standsOn {o : Outcome Stmt} (hc : c.StandsOn P) (hl : c.Leads o.rest)
    (h : ∀ {s r}, o = .ok s r → s.StandsOn P) : (settle o).1.StandsOn P := by
  cases o with
  | ok s r => exact h rfl
  | failed r => exact ofUnexpected_standsOn (hc.leads hl).start

end

/-! ### Statements with a body -/

mutual

theorem stmtRest_standsOn {P : Nat → Prop} {f : Bool} {start : Token} {c r : Cursor} {s : Stmt}
    (hc : c.StandsOn P) (hstart : P start.span.start) (ho : stmtRest f start c = .ok s r) :
    s.StandsOn P := by
  rw [stmtRest_eq] at ho
  split at ho
  · exact printRest_standsOn hc hstart ho
  · exact declareRest_standsOn hc hstart ho
  · exact nameRest_standsOn hc hstart ho
  · exact forRest_standsOn hc hstart ho
  · exact condRest_standsOn hc hstart ho
  · exact defineRest_standsOn hc hstart ho
  · split at ho
    · exact returnRest_standsOn hc hstart ho
    · cases ho
      exact ofUnexpected_standsOn hstart
  · cases ho
    exact ofUnexpected_standsOn hstart
termination_by 4 * c.weight + 3

theorem forRest_standsOn {P : Nat → Prop} {f : Bool} {start : Token} {c r : Cursor} {s : Stmt}
    (hc : c.StandsOn P) (hstart : P start.span.start) (ho : forRest f start c = .ok s r) :
    s.StandsOn P := by
  rw [forRest_eq] at ho
  obtain ⟨e, d, he, ho⟩ := Outcome.bind_eq_ok.1 ho
  cases ho
  have hw := expr_ok_lt he
  have hw1 := c.weight_expect_le .leftParen
  have hw2 := (c.expect .leftParen).rest.weight_expect_le .identifier
  have hw3 := ((c.expect .leftParen).rest.expect .identifier).rest.weight_expect_le .kwIn
  have hw4 := d.weight_expect_le .rightParen
  have hname := hc.leads (.expect c .leftParen)
  have hin := hname.leads (.expect _ .identifier)
  have hvalue := hin.leads (.expect _ .kwIn)
  have hd := hvalue.leads (Outcome.leads_of_ok (expr_leads _) he)
  obtain ⟨herrors, hbody⟩ := body_standsOn (f := f) (hd.leads (.expect d .rightParen))
  refine ⟨⟨?_, ?_⟩, expr_standsOn hvalue he, hbody⟩
  · rwa [start_spanFrom]
  · exact ((((hc.expect _).append (hname.expect _)).append (hin.expect _)).append
      (hd.expect _)).append herrors
termination_by 4 * c.weight + 2

theorem condRest_standsOn {P : Nat → Prop} {f : Bool} {start : Token} {c r : Cursor} {s : Stmt}
    (hc : c.StandsOn P) (hstart : P start.span.start) (ho : condRest f start c = .ok s r) :
    s.StandsOn P := by
  rw [condRest_eq] at ho
  obtain ⟨e, d, he, ho⟩ := Outcome.bind_eq_ok.1 ho
  have hw := expr_ok_lt he
  have hw1 := c.weight_expect_le .leftParen
  have hw2 := d.weight_expect_le .rightParen
  have hw3 := weight_body_le f (d.expect .rightParen).rest
  have htest := hc.leads (.expect c .leftParen)
  have hd := htest.leads (Outcome.leads_of_ok (expr_leads _) he)
  have hyes := hd.leads (.expect d .rightParen)
  have hvalue := expr_standsOn htest he
  obtain ⟨herrors, hbody⟩ := body_standsOn (f := f) hyes
  have hall := ((hc.expect .leftParen).append (hd.expect .rightParen)).append herrors
  cases ha : (body f (d.expect .rightParen).rest).rest.accept? .kwElse with
  | none =>
    simp only [ha] at ho
    cases ho
    exact ⟨⟨by rwa [start_spanFrom], hall⟩, hvalue, hbody⟩
  | some d' =>
    have hw4 := Cursor.weight_accept?_lt (by decide) ha
    have hw5 := d'.weight_advance_le
    have hno := hyes.leads ((body_leads f _).trans (.accept? ha))
    simp only [ha] at ho
    split at ho
    · cases ho
      have hif : (stmt f d').1.StandsOn P :=
        settle_standsOn hno.next (stmtRest_leads ..) fun hok =>
          stmtRest_standsOn hno.next hno.start hok
      exact ⟨⟨by rwa [start_spanFrom], hall⟩, hvalue, hbody, hif, trivial⟩
    · cases ho
      obtain ⟨herrors', hbody'⟩ := body_standsOn (f := f) hno
      exact ⟨⟨by rwa [start_spanFrom], hall.append herrors'⟩, hvalue, hbody, hbody'⟩
termination_by 4 * c.weight + 2

theorem defineRest_standsOn {P : Nat → Prop} {start : Token} {c r : Cursor} {s : Stmt}
    (hc : c.StandsOn P) (hstart : P start.span.start) (ho : defineRest start c = .ok s r) :
    s.StandsOn P := by
  rw [defineRest_eq] at ho
  cases ho
  have hw := weight_header_le c
  obtain ⟨herrors, htypes⟩ := header_reportedAt hc
  obtain ⟨hbraces, hbody⟩ := body_standsOn (f := true) (hc.leads (header_leads c))
  exact ⟨⟨by rwa [start_spanFrom], herrors.append hbraces⟩, htypes, hbody⟩
termination_by 4 * c.weight + 2

theorem body_standsOn {P : Nat → Prop} {f : Bool} {c : Cursor} (hc : c.StandsOn P) :
    ReportedAt P (body f c).errors ∧ Stmt.StandsOnAll P (body f c).body := by
  rw [body_eq]
  have hw := c.weight_expect_le .leftBrace
  have hinner := hc.leads (.expect c .leftBrace)
  have hclose := hinner.leads (block_leads f _)
  exact ⟨(hc.expect _).append (hclose.expectOr _ _), block_standsOn hinner⟩
termination_by 4 * c.weight + 1

theorem block_standsOn {P : Nat → Prop} {f : Bool} {c : Cursor} (hc : c.StandsOn P) :
    Stmt.StandsOnAll P (block f c).1 := by
  rw [block_eq]
  split
  · trivial
  · next hk =>
    have heof : c.kind ≠ .eof := fun e => hk (.inl e)
    have hlt := c.weight_advance_lt heof
    have hw := weight_stmt_lt f heof
    have hs : (stmt f c).1.StandsOn P :=
      settle_standsOn hc.next (stmtRest_leads ..) fun hok => stmtRest_standsOn hc.next hc.start hok
    exact ⟨hs, block_standsOn (hc.next.leads (stmt_leads f c))⟩
termination_by 4 * c.weight

end

theorem stmt_standsOn {P : Nat → Prop} {f : Bool} {c : Cursor} (hc : c.StandsOn P) :
    (stmt f c).1.StandsOn P :=
  settle_standsOn hc.next (stmtRest_leads ..) fun hok => stmtRest_standsOn hc.next hc.start hok

theorem statements_standsOn {P : Nat → Prop} {c : Cursor} (hc : c.StandsOn P) :
    Stmt.StandsOnAll P (statements c).1 := by
  fun_induction statements c with
  | case1 => trivial
  | case2 c hk s more ih =>
    exact ⟨stmt_standsOn hc, ih (hc.next.leads (stmt_leads false c))⟩

end Grammar

/-- The program of some tokens stands where these do. -/
theorem Program.ofTokens_standsOn {P : Nat → Prop} {tokens : List Token} (h0 : P 0)
    (h : ∀ t ∈ tokens, t.Seated P) : (ofTokens tokens).StandsOn P := by
  have hc := Cursor.ofTokens_standsOn h0 h
  unfold ofTokens read
  split
  · next e r he =>
    split
    · exact Grammar.statements_standsOn hc
    · exact Grammar.expr_standsOn hc he
  · exact Grammar.statements_standsOn hc

end CatScript
