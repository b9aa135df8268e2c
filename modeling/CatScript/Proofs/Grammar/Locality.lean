import CatScript.Proofs.Grammar.Movement
import CatScript.Proofs.Grammar.Progress
import CatScript.Proofs.Grammar.Readable

/-!
# Reading looks ahead only

Reading looks at the tokens ahead and at one token behind: the one passed last, for the stop of a
span. A statement has passed its own first token whenever it asks for that, so what was passed before
the statement makes no difference to it. This is said with `Cursor.onto`, the same cursor with more
tokens behind it: every reader commutes with it, from a cursor that has passed a token already
(`Begun`) where it computes a span.

Results:
* `expr_onto`, `typeName_onto`, `header_onto`: so do the readers of what statements consist of.
* `stmt_onto`: a statement and where it stops do not depend on what was passed before it.
* `statements_onto`: nor do the statements behind it.
-/
namespace CatScript

open Token (Kind)

/-! ## More tokens behind the cursor -/

namespace Cursor

/-- The cursor with more tokens behind it. -/
def onto (c : Cursor) (b : List Token) : Cursor := { c with before := c.before ++ b }

/-- A token has been passed. -/
def Begun (c : Cursor) : Prop := c.before ≠ []

variable {c d : Cursor} {b : List Token} {k : Kind}

theorem begun_advance (hk : c.kind ≠ .eof) : c.advance.Begun := by
  simp only [advance, if_neg hk]
  split <;> exact List.cons_ne_nil _ _

theorem Leads.begun (h : c.Leads d) (hc : c.Begun) : d.Begun := by
  have hmark := h.mark_le
  have hpos := List.length_pos_iff.2 hc
  exact List.ne_nil_of_length_pos (Nat.lt_of_lt_of_le hpos hmark)

@[simp] theorem current_onto : (c.onto b).current = c.current := rfl

@[simp] theorem kind_onto : (c.onto b).kind = c.kind := rfl

@[simp] theorem advance_onto : (c.onto b).advance = c.advance.onto b := by
  unfold advance
  by_cases hk : c.kind = .eof
  · rw [if_pos hk, if_pos (kind_onto.trans hk)]
  · rw [if_neg hk, if_neg (fun h => hk (kind_onto.symm.trans h))]
    obtain ⟨before, t, ahead, torn⟩ := c
    cases ahead <;> rfl

theorem expectOr_onto (cause : Cause) : (c.onto b).expectOr k cause =
    ⟨(c.expectOr k cause).token, (c.expectOr k cause).errors, (c.expectOr k cause).rest.onto b⟩ := by
  unfold expectOr
  rw [kind_onto, advance_onto]
  split <;> rfl

@[simp] theorem token_expect_onto : ((c.onto b).expect k).token = (c.expect k).token := by
  rw [expect, expectOr_onto]
  rfl

@[simp] theorem errors_expect_onto : ((c.onto b).expect k).errors = (c.expect k).errors := by
  rw [expect, expectOr_onto]
  rfl

@[simp] theorem rest_expect_onto : ((c.onto b).expect k).rest = (c.expect k).rest.onto b := by
  rw [expect, expectOr_onto]
  rfl

theorem accept?_onto : (c.onto b).accept? k = (c.accept? k).map (·.onto b) := by
  unfold accept?
  rw [kind_onto, advance_onto]
  split <;> rfl

theorem split_onto (first second : Kind) :
    (c.onto b).split first second = (c.split first second).onto b := by
  unfold split
  rw [current_onto]
  split
  · rfl
  split
  · rfl
  split <;> rfl

theorem spanFrom_onto (hc : c.Begun) (start : Span) :
    (c.onto b).spanFrom start = c.spanFrom start := by
  have hprev : (c.onto b).previous = c.previous := by
    obtain ⟨t, ts, ht⟩ := List.exists_cons_of_ne_nil hc
    rw [previous, previous, onto, ht]
    rfl
  rw [spanFrom, spanFrom, hprev]

end Cursor

namespace Grammar

open Cursor

/-! ## Expressions -/

namespace Outcome

variable {α β : Type}

/-- The outcome with more tokens behind its cursor. -/
def onto (b : List Token) : Outcome α → Outcome α
  | ok a r => ok a (r.onto b)
  | failed r => failed (r.onto b)

theorem bind_onto {o o' : Outcome α} {f : α → Cursor → Outcome β} {b : List Token}
    (ho : o' = o.onto b) (hf : ∀ a r, o = .ok a r → f a (r.onto b) = (f a r).onto b) :
    o'.bind f = (o.bind f).onto b := by
  subst ho
  cases o with
  | ok a r => exact hf a r rfl
  | failed r => rfl

theorem map_onto {o o' : Outcome α} {f : α → β} {b : List Token} (ho : o' = o.onto b) :
    o'.map f = (o.map f).onto b := by
  subst ho
  cases o <;> rfl

end Outcome

section

variable {b : List Token}

theorem close_onto {opening : Token} {closing : Kind} {cause : Cause} {build : Expr.Note → Expr}
    {c : Cursor} (hc : c.Begun) :
    close opening closing cause build (c.onto b) =
      (close opening closing cause build c).onto b := by
  have hrest := (Leads.expectOr c closing cause).begun hc
  simp only [close, expectOr_onto, spanFrom_onto hrest]
  rfl

theorem begun_of_ok {α : Type} {o : Outcome α} {c r : Cursor} {a : α} (hc : c.Begun)
    (h : c.Leads o.rest) (ho : o = .ok a r) : r.Begun := by
  subst ho
  exact h.begun hc

mutual

theorem binary_onto {level : Level} {c : Cursor} (hc : c.Begun) :
    binary level (c.onto b) = (binary level c).onto b := by
  by_cases hl : level.isBinary = true
  · rw [binary_of_isBinary hl, binary_of_isBinary hl]
    have ht : binary level.tighter (c.onto b) = (binary level.tighter c).onto b := binary_onto hc
    refine Outcome.bind_onto ht fun left r hr => ?_
    have hw := binary_ok_lt hr
    exact chain_onto (begun_of_ok hc (binary_leads level.tighter c) hr)
  · rw [binary_of_not_isBinary (by simpa using hl), binary_of_not_isBinary (by simpa using hl)]
    exact unary_onto hc
termination_by 16 * c.weight + level.height + 3
decreasing_by
  · have := Level.height_tighter hl; omega
  · have := Level.height_le level; omega
  · omega

theorem chain_onto {level : Level} {left : Expr} {c : Cursor} (hc : c.Begun) :
    chain level left (c.onto b) = (chain level left c).onto b := by
  have hsame : operatorAt? level (c.onto b) = operatorAt? level c := rfl
  rw [chain_eq level left (c.onto b), chain_eq level left c, hsame]
  cases hop : operatorAt? level c with
  | none => rfl
  | some op =>
    have hlt := c.weight_advance_lt (kind_ne_eof_of_operatorAt? hop)
    have hnext := (Leads.next c).begun hc
    dsimp only
    rw [advance_onto]
    refine Outcome.bind_onto (binary_onto hnext) fun right r hr => ?_
    have hw := binary_ok_lt hr
    exact chain_onto (begun_of_ok hnext (binary_leads level.tighter c.advance) hr)
termination_by 16 * c.weight
decreasing_by
  · have := Level.height_le level.tighter; omega
  · omega

theorem unary_onto {c : Cursor} (hc : c.Begun) : unary (c.onto b) = (unary c).onto b := by
  rw [unary_eq (c.onto b), unary_eq c, kind_onto]
  cases hop : UnaryOp.ofKind? c.kind with
  | none => exact primary_onto hc
  | some op =>
    have hlt := c.weight_advance_lt (kind_ne_eof_of_unaryOp hop)
    dsimp only
    rw [advance_onto]
    exact Outcome.map_onto (unary_onto ((Leads.next c).begun hc))
termination_by 16 * c.weight + 2

theorem primary_onto {c : Cursor} (hc : c.Begun) : primary (c.onto b) = (primary c).onto b := by
  by_cases hk : c.kind = .eof
  · rw [primary_eq, primary_eq, kind_onto, hk]
    rfl
  have hlt := c.weight_advance_lt hk
  have hlt2 := Nat.lt_of_le_of_lt c.advance.weight_advance_le hlt
  have hnext := (Leads.next c).begun hc
  rw [primary_eq, primary_eq, kind_onto, current_onto, advance_onto, kind_onto]
  split <;> try rfl
  · split
    · simp only [call, current_onto, advance_onto]
      exact callRest_onto ((Leads.next _).begun hnext)
    · rfl
  · simp only [list, current_onto, advance_onto]
    exact listRest_onto hnext
  · simp only [group, current_onto, advance_onto]
    exact groupRest_onto hnext
termination_by 16 * c.weight + 1

theorem callRest_onto {name : Token} {c : Cursor} (hc : c.Begun) :
    callRest name (c.onto b) = (callRest name c).onto b := by
  rw [callRest_eq, callRest_eq]
  refine Outcome.bind_onto (items_onto hc) fun args r hr => ?_
  exact close_onto (begun_of_ok hc (items_leads .rightParen c) hr)
termination_by 16 * c.weight + 12

theorem listRest_onto {opening : Token} {c : Cursor} (hc : c.Begun) :
    listRest opening (c.onto b) = (listRest opening c).onto b := by
  rw [listRest_eq, listRest_eq]
  refine Outcome.bind_onto (items_onto hc) fun es r hr => ?_
  exact close_onto (begun_of_ok hc (items_leads .rightBracket c) hr)
termination_by 16 * c.weight + 12

theorem groupRest_onto {opening : Token} {c : Cursor} (hc : c.Begun) :
    groupRest opening (c.onto b) = (groupRest opening c).onto b := by
  rw [groupRest_eq, groupRest_eq]
  have he : expr (c.onto b) = (expr c).onto b := binary_onto hc
  refine Outcome.bind_onto he fun inner r hr => ?_
  exact close_onto (begun_of_ok hc (expr_leads c) hr)
termination_by 16 * c.weight + 12
decreasing_by simp only [Level.height]; omega

theorem items_onto {closing : Kind} {c : Cursor} (hc : c.Begun) :
    items closing (c.onto b) = (items closing c).onto b := by
  rw [items_eq, items_eq, kind_onto]
  split
  · rfl
  · exact seq_onto hc
termination_by 16 * c.weight + 11

theorem seq_onto {c : Cursor} (hc : c.Begun) : seq (c.onto b) = (seq c).onto b := by
  rw [seq_eq (c.onto b), seq_eq c]
  have he : expr (c.onto b) = (expr c).onto b := binary_onto hc
  refine Outcome.bind_onto he fun e r hr => ?_
  have hw := expr_ok_lt hr
  have hbegun := begun_of_ok hc (expr_leads c) hr
  rw [accept?_onto]
  cases ha : r.accept? .comma with
  | none => rfl
  | some d =>
    have hd := Cursor.weight_accept?_lt (by decide) ha
    exact Outcome.map_onto (seq_onto ((Leads.accept? ha).begun hbegun))
termination_by 16 * c.weight + 10
decreasing_by
  · simp only [Level.height]; omega
  · omega

end

theorem expr_onto {c : Cursor} (hc : c.Begun) : expr (c.onto b) = (expr c).onto b := binary_onto hc

/-! ## Types and headers -/

theorem splitGreater_onto (c : Cursor) : splitGreater (c.onto b) = (splitGreater c).onto b := by
  unfold splitGreater
  rw [kind_onto, split_onto]
  split <;> rfl

theorem typeName_of_unknown {c : Cursor} (hk : c.kind = .identifier) (hn : c.current.value ≠ "list")
    (ht : simpleType? c.current.value = none) :
    typeName c = (⟨.object, c.advance.spanFrom c.current.span,
      [(Cause.badTypeName c.current.value).at c.current.span]⟩, c.advance) := by
  unfold typeName
  rw [typeNameWithin]
  simp only [hk, hn, ht, dite_true, if_false]

theorem typeName_of_missing {c : Cursor} (hk : c.kind ≠ .identifier) :
    typeName c = (⟨.object, c.current.span,
      [(Cause.badTypeName c.current.value).at c.current.span]⟩, c) := by
  unfold typeName
  rw [typeNameWithin]
  simp only [hk, dite_false]

theorem typeName_onto {c : Cursor} (hc : c.Begun) :
    typeName (c.onto b) = ((typeName c).1, (typeName c).2.onto b) := by
  by_cases hk : c.kind = .identifier
  · have hnext := (Leads.next c).begun hc
    by_cases hn : c.current.value = "list"
    · cases ha : c.advance.accept? .less with
      | none =>
        rw [typeName_of_bare hk hn ha, typeName_of_bare (c := c.onto b) hk hn
          (by rw [advance_onto, accept?_onto, ha]; rfl), advance_onto, spanFrom_onto hnext]
        rfl
      | some d =>
        have hlt := c.weight_advance_lt (by rw [hk]; decide)
        have hw := Cursor.weight_accept?_lt (by decide) ha
        have hd := (Leads.accept? ha).begun hnext
        have hrest : ((splitGreater (typeName d).2).expect .greater).rest.Begun :=
          (((typeName_leads d).trans (splitGreater_leads _)).trans (.expect _ _)).begun hd
        rw [typeName_of_list hk hn ha, typeName_of_list (c := c.onto b) (d := d.onto b) hk hn
          (by rw [advance_onto, accept?_onto, ha]; rfl), typeName_onto hd]
        simp only [splitGreater_onto, rest_expect_onto, errors_expect_onto, spanFrom_onto hrest,
          current_onto]
    · cases ht : simpleType? c.current.value with
      | some t =>
        rw [typeName_of_simple hk hn ht, typeName_of_simple (c := c.onto b) hk hn ht, advance_onto,
          spanFrom_onto hnext]
        rfl
      | none =>
        rw [typeName_of_unknown hk hn ht, typeName_of_unknown (c := c.onto b) hk hn ht, advance_onto,
          spanFrom_onto hnext]
        rfl
  · rw [typeName_of_missing hk, typeName_of_missing (c := c.onto b) hk]
    rfl
termination_by c.weight

theorem declaredType_onto {c : Cursor} (hc : c.Begun) :
    declaredType (c.onto b) = ((declaredType c).1, (declaredType c).2.onto b) := by
  unfold declaredType
  rw [accept?_onto]
  cases ha : c.accept? .colon with
  | none => rfl
  | some d =>
    simp only [Option.map_some, typeName_onto ((Leads.accept? ha).begun hc)]

theorem params_onto (c : Cursor) : c.Begun →
    params (c.onto b) = ((params c).1, (params c).2.onto b) := by
  fun_induction params c with
  | case1 c hk ty hcomma =>
    intro hc
    have hty := declaredType_onto (b := b) ((Leads.next c).begun hc)
    rw [params_of_last (c := c.onto b) hk (by rw [advance_onto, hty, accept?_onto, hcomma]; rfl),
      advance_onto, hty]
    rfl
  | case2 c hk ty d hcomma more ih =>
    intro hc
    have hnext := (Leads.next c).begun hc
    have hty := declaredType_onto (b := b) hnext
    have hd := ((declaredType_leads c.advance).trans (.accept? hcomma)).begun hnext
    rw [params_of_more (c := c.onto b) (d := d.onto b) hk
      (by rw [advance_onto, hty, accept?_onto, hcomma]; rfl), advance_onto, hty, ih hd]
    rfl
  | case3 c hk =>
    intro hc
    rw [params, dif_neg (fun h => hk (kind_onto.symm.trans h))]

theorem header_onto {c : Cursor} (hc : c.Begun) :
    header (c.onto b) = ⟨(header c).header, (header c).errors, (header c).rest.onto b⟩ := by
  have h₁ := (Leads.expect c .identifier).begun hc
  have h₂ := (Leads.expect _ .leftParen).begun h₁
  have h₃ := (Leads.trans (params_leads _) (.expect _ .rightParen)).begun h₂
  simp only [header, rest_expect_onto, params_onto _ h₂, declaredType_onto h₃, token_expect_onto,
    errors_expect_onto]

/-! ## Statements -/

section

variable {start : Token} {c : Cursor}

theorem printRest_onto (hc : c.Begun) :
    printRest start (c.onto b) = (printRest start c).onto b := by
  have h₁ := (Leads.expect c .leftParen).begun hc
  unfold printRest
  simp only [rest_expect_onto, errors_expect_onto]
  refine Outcome.bind_onto (expr_onto h₁) fun value r hr => ?_
  have h₂ := begun_of_ok h₁ (expr_leads _) hr
  have h₃ := (Leads.expect r .rightParen).begun h₂
  simp only [rest_expect_onto, errors_expect_onto, spanFrom_onto h₃]
  rfl

theorem declareRest_onto (hc : c.Begun) :
    declareRest start (c.onto b) = (declareRest start c).onto b := by
  have h₁ := (Leads.expect c .identifier).begun hc
  have h₂ := ((declaredType_leads _).trans (.expect _ .equal)).begun h₁
  unfold declareRest
  simp only [rest_expect_onto, errors_expect_onto, token_expect_onto, declaredType_onto h₁]
  refine Outcome.bind_onto (expr_onto h₂) fun value r hr => ?_
  simp only [spanFrom_onto (begun_of_ok h₂ (expr_leads _) hr)]
  rfl

theorem nameRest_onto (hc : c.Begun) : nameRest start (c.onto b) = (nameRest start c).onto b := by
  have h₁ := (Leads.next c).begun hc
  unfold nameRest
  rw [kind_onto, advance_onto]
  split
  · exact Outcome.map_onto (callRest_onto h₁)
  · refine Outcome.bind_onto (expr_onto h₁) fun value r hr => ?_
    simp only [spanFrom_onto (begun_of_ok h₁ (expr_leads _) hr)]
    rfl
  · rfl

theorem returnRest_onto (hc : c.Begun) :
    returnRest start (c.onto b) = (returnRest start c).onto b := by
  have hsame : (c.onto b).isOneOf exprKinds = c.isOneOf exprKinds := rfl
  unfold returnRest
  rw [hsame]
  cases c.isOneOf exprKinds with
  | true =>
    refine Outcome.bind_onto (expr_onto hc) fun value r hr => ?_
    simp only [spanFrom_onto (begun_of_ok hc (expr_leads _) hr)]
    rfl
  | false =>
    simp only [Bool.false_eq_true, if_false, spanFrom_onto hc]
    rfl

theorem resume_onto (c : Cursor) : resume (c.onto b) = (resume c).onto b := by
  fun_induction resume c with
  | case1 c hk =>
    have hk' : (c.onto b).kind = .eof ∨ (c.onto b).kind ∈ resumeKinds := hk
    rw [resume, dif_pos hk']
  | case2 c hk ih =>
    have hk' : ¬ ((c.onto b).kind = .eof ∨ (c.onto b).kind ∈ resumeKinds) := hk
    rw [resume, dif_neg hk', advance_onto, ih]

theorem settle_onto {o o' : Outcome Stmt} (ho : o' = o.onto b) :
    settle o' = ((settle o).1, (settle o).2.onto b) := by
  subst ho
  cases o with
  | ok s r => rfl
  | failed r => exact Prod.ext rfl (resume_onto r)

theorem stmt_onto_of {f : Bool}
    (h : stmtRest f c.current (c.advance.onto b) = (stmtRest f c.current c.advance).onto b) :
    stmt f (c.onto b) = ((stmt f c).1, (stmt f c).2.onto b) := by
  unfold stmt
  rw [current_onto, advance_onto]
  exact settle_onto h

end

mutual

theorem stmtRest_onto {f : Bool} {start : Token} {c : Cursor} (hc : c.Begun) :
    stmtRest f start (c.onto b) = (stmtRest f start c).onto b := by
  rw [stmtRest_eq f start (c.onto b), stmtRest_eq f start c]
  split
  · exact printRest_onto hc
  · exact declareRest_onto hc
  · exact nameRest_onto hc
  · exact forRest_onto hc
  · exact condRest_onto hc
  · exact defineRest_onto hc
  · cases f with
    | true => exact returnRest_onto hc
    | false => rfl
  · rfl
termination_by 4 * c.weight + 3

theorem forRest_onto {f : Bool} {start : Token} {c : Cursor} (hc : c.Begun) :
    forRest f start (c.onto b) = (forRest f start c).onto b := by
  have hw1 := c.weight_expect_le .leftParen
  have hw2 := (c.expect .leftParen).rest.weight_expect_le .identifier
  have hw3 := ((c.expect .leftParen).rest.expect .identifier).rest.weight_expect_le .kwIn
  have h₁ : (((c.expect .leftParen).rest.expect .identifier).rest.expect .kwIn).rest.Begun :=
    (((Leads.expect c .leftParen).trans (.expect _ .identifier)).trans (.expect _ .kwIn)).begun hc
  rw [forRest_eq, forRest_eq]
  simp only [rest_expect_onto, errors_expect_onto, token_expect_onto]
  refine Outcome.bind_onto (expr_onto h₁) fun iterable r hr => ?_
  have hw := expr_ok_lt hr
  have hw4 := r.weight_expect_le .rightParen
  have h₂ := (Leads.expect r .rightParen).begun (begun_of_ok h₁ (expr_leads _) hr)
  have h₃ := (body_leads f _).begun h₂
  have hbody := body_onto (f := f) (c := (r.expect .rightParen).rest)
  simp only [rest_expect_onto, errors_expect_onto, hbody, spanFrom_onto h₃]
  rfl
termination_by 4 * c.weight + 2

theorem condRest_onto {f : Bool} {start : Token} {c : Cursor} (hc : c.Begun) :
    condRest f start (c.onto b) = (condRest f start c).onto b := by
  have hw1 := c.weight_expect_le .leftParen
  have h₁ := (Leads.expect c .leftParen).begun hc
  rw [condRest_eq, condRest_eq]
  simp only [rest_expect_onto, errors_expect_onto]
  refine Outcome.bind_onto (expr_onto h₁) fun test r hr => ?_
  have hw := expr_ok_lt hr
  have hw2 := r.weight_expect_le .rightParen
  have hw3 := weight_body_le f (r.expect .rightParen).rest
  have h₂ := (Leads.expect r .rightParen).begun (begun_of_ok h₁ (expr_leads _) hr)
  have h₃ := (body_leads f _).begun h₂
  have hyes := body_onto (f := f) (c := (r.expect .rightParen).rest)
  simp only [rest_expect_onto, errors_expect_onto, hyes, accept?_onto, spanFrom_onto h₃]
  cases ha : (body f (r.expect .rightParen).rest).rest.accept? .kwElse with
  | none => rfl
  | some d =>
    have hw4 := Cursor.weight_accept?_lt (by decide) ha
    by_cases hif : d.kind = .kwIf
    · have hne : d.kind ≠ .eof := by rw [hif]; decide
      have hlt := d.weight_advance_lt hne
      have hno := stmt_onto_of (f := f) (c := d) (b := b) (stmtRest_onto (begun_advance hne))
      have h₅ := (stmt_leads f d).begun (begun_advance hne)
      simp only [Option.map_some, kind_onto, if_pos hif, hno, spanFrom_onto h₅]
      rfl
    · have h₅ := (body_leads f d).begun ((Leads.accept? ha).begun h₃)
      have hno := body_onto (f := f) (c := d)
      simp only [Option.map_some, kind_onto, if_neg hif, hno, spanFrom_onto h₅]
      rfl
termination_by 4 * c.weight + 2

theorem defineRest_onto {start : Token} {c : Cursor} (hc : c.Begun) :
    defineRest start (c.onto b) = (defineRest start c).onto b := by
  have hw := weight_header_le c
  have h₁ := (header_leads c).begun hc
  have h₂ := (body_leads true _).begun h₁
  rw [defineRest_eq, defineRest_eq]
  have hbody := body_onto (f := true) (c := (header c).rest)
  simp only [header_onto hc, hbody, spanFrom_onto h₂]
  rfl
termination_by 4 * c.weight + 2

theorem body_onto {f : Bool} {c : Cursor} :
    body f (c.onto b) = ⟨(body f c).body, (body f c).errors, (body f c).rest.onto b⟩ := by
  have hw := c.weight_expect_le .leftBrace
  rw [body_eq f (c.onto b), body_eq f c]
  have hblock := block_onto (f := f) (c := (c.expect .leftBrace).rest)
  simp only [rest_expect_onto, errors_expect_onto, hblock, expectOr_onto]
termination_by 4 * c.weight + 1

theorem block_onto {f : Bool} {c : Cursor} :
    block f (c.onto b) = ((block f c).1, (block f c).2.onto b) := by
  rw [block_eq f (c.onto b), block_eq f c]
  by_cases hk : c.kind = .eof ∨ c.kind = .rightBrace
  · have hk' : (c.onto b).kind = .eof ∨ (c.onto b).kind = .rightBrace := hk
    rw [if_pos hk, if_pos hk']
  · have hk' : ¬ ((c.onto b).kind = .eof ∨ (c.onto b).kind = .rightBrace) := hk
    have heof : c.kind ≠ .eof := fun e => hk (.inl e)
    have hlt := c.weight_advance_lt heof
    have hw := weight_stmt_lt f heof
    have hs := stmt_onto_of (f := f) (c := c) (b := b) (stmtRest_onto (begun_advance heof))
    have hmore := block_onto (f := f) (c := (stmt f c).2)
    simp only [if_neg hk, if_neg hk', hs, hmore]
termination_by 4 * c.weight

end

/-- A statement and where it stops do not depend on what was passed before it. -/
theorem stmt_onto {f : Bool} {c : Cursor} (hk : c.kind ≠ .eof) :
    stmt f (c.onto b) = ((stmt f c).1, (stmt f c).2.onto b) :=
  stmt_onto_of (stmtRest_onto (begun_advance hk))

theorem statements_onto (c : Cursor) :
    statements (c.onto b) = ((statements c).1, (statements c).2.onto b) := by
  fun_induction statements c with
  | case1 c hk => rw [statements, dif_pos (kind_onto.trans hk)]
  | case2 c hk s more ih =>
    rw [statements, dif_neg (fun h => hk (kind_onto.symm.trans h)), stmt_onto hk]
    show (s.1 :: (statements (s.2.onto b)).1, (statements (s.2.onto b)).2) = _
    rw [ih]

end

end Grammar

end CatScript
