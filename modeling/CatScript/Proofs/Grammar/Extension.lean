import CatScript.Proofs.Grammar.Accepted
import CatScript.Proofs.Grammar.Locality

/-!
# What follows a clean reading

A stream can be extended: its `eof` token is replaced by more tokens. What was read from it without
a diagnostic is read again from the longer stream, if the first of the new tokens starts a statement
or ends the stream. Statements have no terminator, so every reader that looks past the end of its
phrase matters: no operator, bracket, comma, `<`, `:` or `else` starts a statement, and the readers
take the new token as they took the end.

One reader does not: a `return` without an expression would take a name behind it for one. It stands
inside a function only, so it is never the end of a stream that is read without a diagnostic. This
is why a statement inside a function is asked not to reach the end.

Results:
* `expr_extend`, `declaredType_extend`, `header_extend`: the parts of statements are read again.
* `stmtRest_extend`: so are statements.
* `statements_extend`: the statements of the longer stream are those of the shorter one and then
  those of the new tokens.
-/
namespace CatScript

open Token (Kind)

/-! ## Longer streams -/

namespace Cursor

/-- The cursor on the stream with `t` and `us` in the place of its end. -/
def extend (t : Token) (us : List Token) (c : Cursor) : Cursor :=
  if c.kind = .eof then { c with current := t, ahead := us }
  else { c with ahead := c.ahead.takeWhile (·.kind ≠ .eof) ++ t :: us }

variable {c d : Cursor} {t : Token} {us : List Token} {k : Kind}

theorem extend_of_eof (hk : c.kind = .eof) :
    c.extend t us = { c with current := t, ahead := us } := if_pos hk

theorem extend_of_ne (hk : c.kind ≠ .eof) :
    c.extend t us = { c with ahead := c.ahead.takeWhile (·.kind ≠ .eof) ++ t :: us } := if_neg hk

theorem current_extend (hk : c.kind ≠ .eof) : (c.extend t us).current = c.current := by
  rw [extend_of_ne hk]

theorem kind_extend (hk : c.kind ≠ .eof) : (c.extend t us).kind = c.kind :=
  congrArg Token.kind (current_extend hk)

theorem kind_extend_of_eof (hk : c.kind = .eof) : (c.extend t us).kind = t.kind :=
  congrArg Cursor.kind (extend_of_eof hk)

theorem advance_extend (hk : c.kind ≠ .eof) :
    (c.extend t us).advance = c.advance.extend t us := by
  obtain ⟨before, u, ahead, torn⟩ := c
  have hk' : u.kind ≠ .eof := hk
  cases ahead with
  | nil => simp [advance, extend, kind, hk', Token.endAt]
  | cons v ahead =>
    by_cases hv : v.kind = .eof
    · simp [advance, extend, kind, hk', hv]
    · simp [advance, extend, kind, hk', hv]

theorem spanFrom_extend (hc : c.Begun) (start : Span) :
    (c.extend t us).spanFrom start = c.spanFrom start := by
  have hprevious : (c.extend t us).previous = c.previous := by
    obtain ⟨u, b, hb⟩ := List.exists_cons_of_ne_nil hc
    unfold extend previous
    split <;> simp only [hb, List.head?_cons, Option.getD_some]
  rw [spanFrom, spanFrom, hprevious]

theorem kind_of_expectOr {cause : Cause} (h : (c.expectOr k cause).errors = []) : c.kind = k := by
  unfold expectOr at h
  split at h
  · assumption
  · cases h

theorem kind_of_expect (h : (c.expect k).errors = []) : c.kind = k := kind_of_expectOr h

theorem expectOr_extend {cause cause' : Cause} (hk : k ≠ .eof)
    (h : (c.expectOr k cause).errors = []) : (c.extend t us).expectOr k cause' =
      ⟨(c.expectOr k cause).token, [], (c.expectOr k cause).rest.extend t us⟩ := by
  have hck := kind_of_expectOr h
  have hne : c.kind ≠ .eof := hck ▸ hk
  rw [expectOr, expectOr, if_pos ((kind_extend hne).trans hck), if_pos hck, current_extend hne,
    advance_extend hne]

theorem expect_extend (hk : k ≠ .eof) (h : (c.expect k).errors = []) :
    (c.extend t us).expect k =
      ⟨(c.expect k).token, [], (c.expect k).rest.extend t us⟩ :=
  expectOr_extend hk h

theorem begun_expectOr {cause : Cause} (hk : k ≠ .eof) (h : (c.expectOr k cause).errors = []) :
    (c.expectOr k cause).rest.Begun := by
  have hck := kind_of_expectOr h
  rw [expectOr, if_pos hck]
  exact begun_advance (hck ▸ hk)

theorem begun_expect (hk : k ≠ .eof) (h : (c.expect k).errors = []) : (c.expect k).rest.Begun :=
  begun_expectOr hk h

theorem split_extend (hk : c.kind ≠ .eof) :
    (c.extend t us).split .greater .equal = (c.split .greater .equal).extend t us := by
  obtain ⟨before, u, ahead, torn⟩ := c
  have hk' : u.kind ≠ .eof := hk
  unfold split
  rw [current_extend hk]
  split
  · rfl
  split
  · simp [extend, kind, hk']
  split
  · rfl
  · simp [extend, kind, hk']

end Cursor

namespace Grammar

open Cursor

/-- The kinds of tokens that may follow a statement outside a function. -/
def nextKinds : List Kind := .eof :: stmtKinds

section

variable {t : Token} {us : List Token} (hstart : t.kind ∈ nextKinds)

include hstart

theorem kind_extend_ne {k : Kind} (hk : k ∉ nextKinds) {c : Cursor} :
    (c.extend t us).kind = k ↔ c.kind = k := by
  by_cases hc : c.kind = .eof
  · rw [kind_extend_of_eof hc, hc]
    constructor
    · rintro rfl
      exact absurd hstart hk
    · rintro rfl
      exact absurd (List.mem_cons_self ..) hk
  · rw [kind_extend hc]

theorem accept?_extend {k : Kind} (hk : k ∉ nextKinds) (c : Cursor) :
    (c.extend t us).accept? k = (c.accept? k).map (·.extend t us) := by
  unfold accept?
  by_cases hc : c.kind = k
  · have hne : c.kind ≠ .eof := by
      rintro heof
      exact hk (by rw [← hc, heof]; exact List.mem_cons_self ..)
    rw [if_pos hc, if_pos ((kind_extend_ne hstart hk).2 hc), advance_extend hne]
    rfl
  · rw [if_neg hc, if_neg (fun h => hc ((kind_extend_ne hstart hk).1 h))]
    rfl

theorem operatorAt?_extend (level : Level) (c : Cursor) :
    operatorAt? level (c.extend t us) = operatorAt? level c := by
  have hnone : ∀ k ∈ nextKinds, BinaryOp.ofKind? k = none := by decide
  by_cases hc : c.kind = .eof
  · rw [operatorAt?, operatorAt?, kind_extend_of_eof hc, hnone _ hstart, hc]
    rfl
  · rw [operatorAt?, operatorAt?, kind_extend hc]

end

variable {t : Token} {us : List Token}

/-! ## Expressions -/

theorem close_extend {opening : Token} {closing : Kind} {cause : Cause} {build : Expr.Note → Expr}
    {c : Cursor} (hk : closing ≠ .eof) (h : (c.expectOr closing cause).errors = []) :
    close opening closing cause build (c.extend t us) =
      .ok (build (.fresh ((c.expectOr closing cause).rest.spanFrom opening.span)
        (c.expectOr closing cause).errors)) ((c.expectOr closing cause).rest.extend t us) := by
  rw [close, expectOr_extend hk h, h]
  simp only [spanFrom_extend (begun_expectOr hk h)]

mutual

theorem binary_extend (hstart : t.kind ∈ nextKinds) {level : Level} {c r : Cursor} {e : Expr}
    (ho : binary level c = .ok e r) (he : e.diagnostics = []) :
    binary level (c.extend t us) = .ok e (r.extend t us) := by
  by_cases hb : level.isBinary = true
  · rw [binary_of_isBinary hb] at ho ⊢
    obtain ⟨left, d, hleft, ho⟩ := Outcome.bind_eq_ok.1 ho
    have hw := binary_ok_lt hleft
    rw [binary_extend hstart hleft (chain_left ho he), Outcome.bind_ok]
    exact chain_extend hstart ho he
  · have hb' : level.isBinary = false := by simpa using hb
    rw [binary_of_not_isBinary hb'] at ho ⊢
    exact unary_extend hstart ho he
termination_by 16 * c.weight + level.height + 3
decreasing_by
  · have := Level.height_tighter hb; omega
  · have := Level.height_le level; omega
  · omega

theorem chain_extend (hstart : t.kind ∈ nextKinds) {level : Level} {left e : Expr} {c r : Cursor}
    (ho : chain level left c = .ok e r) (he : e.diagnostics = []) :
    chain level left (c.extend t us) = .ok e (r.extend t us) := by
  rw [chain_eq] at ho
  rw [chain_eq, operatorAt?_extend hstart]
  cases hop : operatorAt? level c with
  | none =>
    rw [hop] at ho
    cases ho
    rfl
  | some op =>
    rw [hop] at ho
    obtain ⟨right, d, hright, ho⟩ := Outcome.bind_eq_ok.1 ho
    have hk := kind_ne_eof_of_operatorAt? hop
    have hlt := c.weight_advance_lt hk
    have hw := binary_ok_lt hright
    have hnode : (binaryNode op left right).diagnostics = [] := chain_left ho he
    dsimp only
    rw [advance_extend hk, binary_extend hstart hright (List.append_eq_nil_iff.1 hnode).2,
      Outcome.bind_ok]
    exact chain_extend hstart ho he
termination_by 16 * c.weight
decreasing_by
  · have := Level.height_le level.tighter; omega
  · omega

theorem unary_extend (hstart : t.kind ∈ nextKinds) {c r : Cursor} {e : Expr}
    (ho : unary c = .ok e r) (he : e.diagnostics = []) :
    unary (c.extend t us) = .ok e (r.extend t us) := by
  have hne : c.kind ≠ .eof := by
    intro hk
    rw [unary_eq, hk] at ho
    simp only [UnaryOp.ofKind?, primary_eq, hk] at ho
    cases ho
  rw [unary_eq] at ho
  rw [unary_eq, kind_extend hne]
  cases hop : UnaryOp.ofKind? c.kind with
  | none =>
    rw [hop] at ho
    exact primary_extend hstart ho he
  | some op =>
    rw [hop] at ho
    obtain ⟨operand, hoperand, rfl⟩ := Outcome.map_eq_ok.1 ho
    have hlt := c.weight_advance_lt hne
    dsimp only
    rw [advance_extend hne, current_extend hne, unary_extend hstart hoperand he]
    rfl
termination_by 16 * c.weight + 2

theorem primary_extend (hstart : t.kind ∈ nextKinds) {c r : Cursor} {e : Expr}
    (ho : primary c = .ok e r) (he : e.diagnostics = []) :
    primary (c.extend t us) = .ok e (r.extend t us) := by
  rw [primary_eq] at ho
  have hne : c.kind ≠ .eof := by
    intro hk
    rw [hk] at ho
    cases ho
  have hlt := c.weight_advance_lt hne
  have hlt2 := Nat.lt_of_le_of_lt c.advance.weight_advance_le hlt
  rw [primary_eq, kind_extend hne, current_extend hne, advance_extend hne]
  split at ho
  iterate 5
    cases ho
    rfl
  · by_cases hparen : c.advance.kind = .leftParen
    · rw [if_pos hparen] at ho
      have hnext : c.advance.kind ≠ .eof := by rw [hparen]; decide
      rw [if_pos ((kind_extend_ne hstart (by decide)).2 hparen), call, current_extend hne,
        advance_extend hne, advance_extend hnext]
      exact callRest_extend hstart ho he
    · rw [if_neg hparen] at ho
      rw [if_neg fun h => hparen ((kind_extend_ne hstart (by decide)).1 h)]
      cases ho
      rfl
  · rw [list, current_extend hne, advance_extend hne]
    exact listRest_extend hstart ho he
  · rw [group, current_extend hne, advance_extend hne]
    exact groupRest_extend hstart ho he
  · cases ho
termination_by 16 * c.weight + 1

theorem callRest_extend (hstart : t.kind ∈ nextKinds) {name : Token} {c r : Cursor} {e : Expr}
    (ho : callRest name c = .ok e r) (he : e.diagnostics = []) :
    callRest name (c.extend t us) = .ok e (r.extend t us) := by
  rw [callRest_eq] at ho ⊢
  obtain ⟨args, d, hargs, ho⟩ := Outcome.bind_eq_ok.1 ho
  cases ho
  obtain ⟨hclose, he⟩ := List.append_eq_nil_iff.1 he
  rw [items_extend hstart (by decide) hargs he, Outcome.bind_ok, close_extend (by decide) hclose]
termination_by 16 * c.weight + 12

theorem listRest_extend (hstart : t.kind ∈ nextKinds) {opening : Token} {c r : Cursor} {e : Expr}
    (ho : listRest opening c = .ok e r) (he : e.diagnostics = []) :
    listRest opening (c.extend t us) = .ok e (r.extend t us) := by
  rw [listRest_eq] at ho ⊢
  obtain ⟨es, d, hes, ho⟩ := Outcome.bind_eq_ok.1 ho
  cases ho
  obtain ⟨hclose, he⟩ := List.append_eq_nil_iff.1 he
  rw [items_extend hstart (by decide) hes he, Outcome.bind_ok, close_extend (by decide) hclose]
termination_by 16 * c.weight + 12

theorem groupRest_extend (hstart : t.kind ∈ nextKinds) {opening : Token} {c r : Cursor} {e : Expr}
    (ho : groupRest opening c = .ok e r) (he : e.diagnostics = []) :
    groupRest opening (c.extend t us) = .ok e (r.extend t us) := by
  rw [groupRest_eq, expr] at ho ⊢
  obtain ⟨inner, d, hinner, ho⟩ := Outcome.bind_eq_ok.1 ho
  cases ho
  obtain ⟨hclose, he⟩ := List.append_eq_nil_iff.1 he
  rw [binary_extend hstart hinner he, Outcome.bind_ok, close_extend (by decide) hclose]
termination_by 16 * c.weight + 12
decreasing_by simp only [Level.height]; omega

theorem items_extend (hstart : t.kind ∈ nextKinds) {closing : Kind} (hk : closing ∉ nextKinds)
    {c r : Cursor} {es : List Expr} (ho : items closing c = .ok es r)
    (he : Expr.diagnosticsOfAll es = []) :
    items closing (c.extend t us) = .ok es (r.extend t us) := by
  rw [items_eq] at ho ⊢
  split at ho
  · next hclosing =>
    rw [if_pos ((kind_extend_ne hstart hk).2 hclosing)]
    cases ho
    rfl
  · next hclosing =>
    rw [if_neg fun h => hclosing ((kind_extend_ne hstart hk).1 h)]
    exact seq_extend hstart ho he
termination_by 16 * c.weight + 11

theorem seq_extend (hstart : t.kind ∈ nextKinds) {c r : Cursor} {es : List Expr}
    (ho : seq c = .ok es r) (he : Expr.diagnosticsOfAll es = []) :
    seq (c.extend t us) = .ok es (r.extend t us) := by
  rw [seq_eq, expr] at ho ⊢
  obtain ⟨e, d, hfirst, ho⟩ := Outcome.bind_eq_ok.1 ho
  have hw := binary_ok_lt hfirst
  have hcomma : (d.extend t us).accept? .comma = (d.accept? .comma).map (·.extend t us) :=
    accept?_extend hstart (by decide) d
  cases hc : d.accept? .comma with
  | none =>
    rw [hc] at ho hcomma
    cases ho
    rw [binary_extend hstart hfirst (List.append_eq_nil_iff.1 he).1, Outcome.bind_ok, hcomma]
    rfl
  | some d' =>
    rw [hc] at ho hcomma
    obtain ⟨es, hmore, rfl⟩ := Outcome.map_eq_ok.1 ho
    have hd' := Cursor.weight_accept?_lt (by decide) hc
    obtain ⟨he, hes⟩ := List.append_eq_nil_iff.1 he
    rw [binary_extend hstart hfirst he, Outcome.bind_ok, hcomma]
    simp only [Option.map_some, seq_extend hstart hmore hes]
    rfl
termination_by 16 * c.weight + 10
decreasing_by
  · simp only [Level.height]; omega
  · simp only [Level.height]; omega
  · omega

end

theorem expr_extend (hstart : t.kind ∈ nextKinds) {c r : Cursor} {e : Expr}
    (ho : expr c = .ok e r) (he : e.diagnostics = []) :
    expr (c.extend t us) = .ok e (r.extend t us) :=
  binary_extend hstart ho he

/-! ## Types and headers -/

theorem splitGreater_extend {c : Cursor} (hk : c.kind ≠ .eof) :
    splitGreater (c.extend t us) = (splitGreater c).extend t us := by
  unfold splitGreater
  rw [kind_extend hk]
  split
  · exact split_extend hk
  · rfl

theorem typeName_extend (hstart : t.kind ∈ nextKinds) {c : Cursor}
    (he : (typeName c).1.errors = []) :
    typeName (c.extend t us) = ((typeName c).1, (typeName c).2.extend t us) := by
  by_cases hk : c.kind = .identifier
  · have hne : c.kind ≠ .eof := by rw [hk]; decide
    have hk' : (c.extend t us).kind = .identifier := (kind_extend hne).trans hk
    have hcurrent : (c.extend t us).current = c.current := current_extend hne
    have hnext : (c.extend t us).advance = c.advance.extend t us := advance_extend hne
    have hspan : (c.advance.extend t us).spanFrom c.current.span =
        c.advance.spanFrom c.current.span :=
      spanFrom_extend (begun_advance hne) c.current.span
    have hless : (c.advance.extend t us).accept? .less =
        (c.advance.accept? .less).map (·.extend t us) :=
      accept?_extend hstart (by decide) c.advance
    by_cases hn : c.current.value = "list"
    · have hn' : (c.extend t us).current.value = "list" := hcurrent ▸ hn
      cases ha : c.advance.accept? .less with
      | none =>
        rw [ha, ← hnext] at hless
        rw [typeName_of_bare hk hn ha, typeName_of_bare hk' hn' hless, hnext, hcurrent, hspan]
      | some d =>
        rw [ha, ← hnext] at hless
        have hlt := c.weight_advance_lt hne
        have hw := Cursor.weight_accept?_lt (by decide) ha
        rw [typeName_of_list hk hn ha] at he ⊢
        obtain ⟨helement, hclose⟩ := List.append_eq_nil_iff.1 he
        have hrest : (typeName d).2.kind ≠ .eof := by
          intro heof
          have hgreater := kind_of_expect hclose
          rw [splitGreater, if_neg (by rw [heof]; decide), heof] at hgreater
          cases hgreater
        rw [typeName_of_list hk' hn' hless, typeName_extend hstart helement]
        simp only [splitGreater_extend hrest, expect_extend (by decide) hclose, hclose, hcurrent,
          spanFrom_extend (begun_expect (by decide) hclose)]
    · have hn' : (c.extend t us).current.value ≠ "list" := hcurrent ▸ hn
      cases ht : simpleType? c.current.value with
      | some ty =>
        rw [typeName_of_simple hk hn ht, typeName_of_simple hk' hn' (hcurrent ▸ ht), hnext,
          hcurrent, hspan]
      | none =>
        rw [typeName_of_unknown hk hn ht] at he
        cases he
  · rw [typeName_of_missing hk] at he
    cases he
termination_by c.weight

theorem declaredType_extend (hstart : t.kind ∈ nextKinds) {c : Cursor}
    (he : ((declaredType c).1.map (·.errors)).getD [] = []) :
    declaredType (c.extend t us) = ((declaredType c).1, (declaredType c).2.extend t us) := by
  unfold declaredType at he ⊢
  rw [accept?_extend hstart (by decide)]
  cases ha : c.accept? .colon with
  | none => rfl
  | some d =>
    rw [ha] at he
    simp only [Option.map_some, typeName_extend hstart he]

theorem params_extend (hstart : t.kind ∈ nextKinds) {c : Cursor} (hr : (params c).2.kind ≠ .eof)
    (he : ((params c).1.flatMap fun p => (p.declared.map (·.errors)).getD []) = []) :
    params (c.extend t us) = ((params c).1, (params c).2.extend t us) := by
  by_cases hk : c.kind = .identifier
  · have hne : c.kind ≠ .eof := by rw [hk]; decide
    have hk' : (c.extend t us).kind = .identifier := (kind_extend hne).trans hk
    have hcurrent : (c.extend t us).current = c.current := current_extend hne
    have hnext : (c.extend t us).advance = c.advance.extend t us := advance_extend hne
    have hcomma : ((declaredType c.advance).2.extend t us).accept? .comma =
        ((declaredType c.advance).2.accept? .comma).map (·.extend t us) :=
      accept?_extend hstart (by decide) (declaredType c.advance).2
    cases ha : (declaredType c.advance).2.accept? .comma with
    | none =>
      rw [params_of_last hk ha] at he ⊢
      have hty : declaredType (c.advance.extend t us) =
          ((declaredType c.advance).1, (declaredType c.advance).2.extend t us) :=
        declaredType_extend hstart (by simpa using he)
      rw [ha] at hcomma
      rw [params_of_last hk' (by rw [hnext, hty]; exact hcomma), hnext, hty, hcurrent]
    | some d =>
      have h₁ := c.weight_advance_lt hne
      have h₂ := weight_declaredType_le c.advance
      have h₃ := Cursor.weight_accept?_lt (by decide) ha
      rw [params_of_more hk ha] at he hr ⊢
      obtain ⟨hfirst, hmore⟩ := List.append_eq_nil_iff.1 he
      have hty : declaredType (c.advance.extend t us) =
          ((declaredType c.advance).1, (declaredType c.advance).2.extend t us) :=
        declaredType_extend hstart hfirst
      rw [ha] at hcomma
      rw [params_of_more hk' (by rw [hnext, hty]; exact hcomma), hnext, hty, hcurrent,
        params_extend hstart hr hmore]
  · have hnone : params c = ([], c) := by rw [params, dif_neg hk]
    rw [hnone] at hr ⊢
    rw [params, dif_neg (fun h => hk ((kind_extend hr).symm.trans h))]
termination_by c.weight

theorem header_extend (hstart : t.kind ∈ nextKinds) {c : Cursor} (he : (header c).errors = [])
    (hd : (header c).header.diagnostics = []) :
    header (c.extend t us) =
      ⟨(header c).header, (header c).errors, (header c).rest.extend t us⟩ := by
  rw [he]
  simp only [header, List.append_eq_nil_iff] at he
  obtain ⟨⟨hname, hlp⟩, hrp⟩ := he
  obtain ⟨hps, hresult⟩ := List.append_eq_nil_iff.1 hd
  have hkind : (params ((c.expect .identifier).rest.expect .leftParen).rest).2.kind ≠ .eof := by
    rw [kind_of_expect hrp]
    decide
  simp only [header, expect_extend (by decide) hname, expect_extend (by decide) hlp,
    params_extend hstart hkind hps, expect_extend (by decide) hrp,
    declaredType_extend hstart hresult, List.append_nil]

/-! ## Statements -/

section

variable {start : Token} {c r : Cursor} {s : Stmt} (hstart : t.kind ∈ nextKinds)

include hstart

theorem printRest_extend (ho : printRest start c = .ok s r) (hs : s.diagnostics = []) :
    printRest start (c.extend t us) = .ok s (r.extend t us) := by
  obtain ⟨e, d, hexpr, ho⟩ := Outcome.bind_eq_ok.1 ho
  cases ho
  simp only [Stmt.diagnostics, List.append_eq_nil_iff] at hs
  obtain ⟨⟨hlp, hrp⟩, he⟩ := hs
  simp only [printRest, expect_extend (by decide) hlp, expr_extend hstart hexpr he,
    Outcome.bind_ok, expect_extend (by decide) hrp, hlp, hrp,
    spanFrom_extend (begun_expect (by decide) hrp)]

theorem declareRest_extend (ho : declareRest start c = .ok s r) (hs : s.diagnostics = []) :
    declareRest start (c.extend t us) = .ok s (r.extend t us) := by
  unfold declareRest at ho ⊢
  dsimp only at ho
  obtain ⟨e, d, hexpr, ho⟩ := Outcome.bind_eq_ok.1 ho
  cases ho
  simp only [declare_diagnostics, List.append_eq_nil_iff] at hs
  obtain ⟨⟨⟨hname, heq⟩, hty⟩, he⟩ := hs
  have hbegun := begun_of_ok (begun_expect (by decide) heq) (expr_leads _) hexpr
  simp only [expect_extend (by decide) hname, declaredType_extend hstart hty,
    expect_extend (by decide) heq, expr_extend hstart hexpr he, Outcome.bind_ok, hname, heq,
    spanFrom_extend hbegun]

theorem nameRest_extend (ho : nameRest start c = .ok s r) (hs : s.diagnostics = []) :
    nameRest start (c.extend t us) = .ok s (r.extend t us) := by
  unfold nameRest at ho
  split at ho
  · next hparen =>
    have hne : c.kind ≠ .eof := by rw [hparen]; decide
    obtain ⟨e, hcall, rfl⟩ := Outcome.map_eq_ok.1 ho
    simp only [nameRest, kind_extend hne, hparen, advance_extend hne,
      callRest_extend hstart hcall hs, Outcome.map_ok]
  · next hequal =>
    have hne : c.kind ≠ .eof := by rw [hequal]; decide
    obtain ⟨e, d, hexpr, ho⟩ := Outcome.bind_eq_ok.1 ho
    cases ho
    have hbegun := begun_of_ok (begun_advance hne) (expr_leads _) hexpr
    simp only [nameRest, kind_extend hne, hequal, advance_extend hne,
      expr_extend hstart hexpr hs, Outcome.bind_ok, spanFrom_extend hbegun]
  · cases ho
    exact absurd hs (ofUnexpected_reports start)

theorem returnRest_extend (hc : c.Begun) (hr : r.kind ≠ .eof) (ho : returnRest start c = .ok s r)
    (hs : s.diagnostics = []) : returnRest start (c.extend t us) = .ok s (r.extend t us) := by
  have hne : c.kind ≠ .eof := by
    intro heof
    simp only [returnRest, isOneOf, heof] at ho
    cases ho
    exact hr heof
  have hsame : (c.extend t us).isOneOf exprKinds = c.isOneOf exprKinds := by
    rw [isOneOf, isOneOf, kind_extend hne]
  unfold returnRest at ho ⊢
  rw [hsame]
  split at ho
  · next hexprs =>
    obtain ⟨e, d, hexpr, ho⟩ := Outcome.bind_eq_ok.1 ho
    cases ho
    rw [if_pos hexprs, expr_extend hstart hexpr hs, Outcome.bind_ok,
      spanFrom_extend (begun_of_ok hc (expr_leads _) hexpr)]
  · next hexprs =>
    cases ho
    rw [if_neg hexprs, spanFrom_extend hc]

end

theorem stmt_extend_of {f : Bool} {c : Cursor} (hk : c.kind ≠ .eof)
    (h : stmtRest f c.current (c.advance.extend t us) =
      .ok (stmt f c).1 ((stmt f c).2.extend t us)) :
    stmt f (c.extend t us) = ((stmt f c).1, (stmt f c).2.extend t us) := by
  rw [stmt, current_extend hk, advance_extend hk, h]
  rfl

theorem block_of_more {f : Bool} {c : Cursor} (hk : ¬ (c.kind = .eof ∨ c.kind = .rightBrace)) :
    block f c = ((stmt f c).1 :: (block f (stmt f c).2).1, (block f (stmt f c).2).2) := by
  rw [block_eq, if_neg hk]

mutual

theorem stmtRest_extend (hstart : t.kind ∈ nextKinds) {f : Bool} {start : Token} {c r : Cursor}
    {s : Stmt} (hc : c.Begun) (hr : f = true → r.kind ≠ .eof)
    (ho : stmtRest f start c = .ok s r) (hs : s.diagnostics = []) :
    stmtRest f start (c.extend t us) = .ok s (r.extend t us) := by
  rw [stmtRest_eq] at ho ⊢
  split at ho
  · exact printRest_extend hstart ho hs
  · exact declareRest_extend hstart ho hs
  · exact nameRest_extend hstart ho hs
  · exact forRest_extend hstart ho hs
  · exact condRest_extend hstart hr ho hs
  · exact defineRest_extend hstart ho hs
  · cases f with
    | true => exact returnRest_extend hstart hc (hr rfl) ho hs
    | false =>
      cases ho
      exact absurd hs (ofUnexpected_reports start)
  · cases ho
    exact absurd hs (ofUnexpected_reports start)
termination_by 4 * c.weight + 3

theorem forRest_extend (hstart : t.kind ∈ nextKinds) {f : Bool} {start : Token} {c r : Cursor}
    {s : Stmt} (ho : forRest f start c = .ok s r) (hs : s.diagnostics = []) :
    forRest f start (c.extend t us) = .ok s (r.extend t us) := by
  rw [forRest_eq] at ho
  obtain ⟨e, d, hexpr, ho⟩ := Outcome.bind_eq_ok.1 ho
  cases ho
  simp only [Stmt.diagnostics, List.append_eq_nil_iff] at hs
  obtain ⟨⟨⟨⟨⟨⟨hlp, hname⟩, hin⟩, hrp⟩, hbraces⟩, he⟩, hbody⟩ := hs
  have hw := expr_ok_lt hexpr
  have hw1 := c.weight_expect_le .leftParen
  have hw2 := (c.expect .leftParen).rest.weight_expect_le .identifier
  have hw3 := ((c.expect .leftParen).rest.expect .identifier).rest.weight_expect_le .kwIn
  have hw4 := d.weight_expect_le .rightParen
  obtain ⟨hbegun, hread⟩ := body_extend hstart hbraces hbody
  rw [forRest_eq]
  simp only [expect_extend (by decide) hlp, expect_extend (by decide) hname,
    expect_extend (by decide) hin, expr_extend hstart hexpr he, Outcome.bind_ok,
    expect_extend (by decide) hrp, hread, spanFrom_extend hbegun, hlp, hname, hin, hrp, hbraces]
termination_by 4 * c.weight + 2

theorem condRest_extend (hstart : t.kind ∈ nextKinds) {f : Bool} {start : Token} {c r : Cursor}
    {s : Stmt} (hr : f = true → r.kind ≠ .eof) (ho : condRest f start c = .ok s r)
    (hs : s.diagnostics = []) :
    condRest f start (c.extend t us) = .ok s (r.extend t us) := by
  rw [condRest_eq] at ho
  obtain ⟨e, d, hexpr, ho⟩ := Outcome.bind_eq_ok.1 ho
  have hw := expr_ok_lt hexpr
  have hw1 := c.weight_expect_le .leftParen
  have hw2 := d.weight_expect_le .rightParen
  have hw3 := weight_body_le f (d.expect .rightParen).rest
  have helse : ((body f (d.expect .rightParen).rest).rest.extend t us).accept? .kwElse =
      ((body f (d.expect .rightParen).rest).rest.accept? .kwElse).map (·.extend t us) :=
    accept?_extend hstart (by decide) _
  rw [condRest_eq]
  cases ha : (body f (d.expect .rightParen).rest).rest.accept? .kwElse with
  | none =>
    simp only [ha] at ho helse
    cases ho
    simp only [Stmt.diagnostics, List.append_eq_nil_iff] at hs
    obtain ⟨⟨⟨⟨hlp, hrp⟩, hbraces⟩, he⟩, hbody⟩ := hs
    obtain ⟨hbegun, hread⟩ := body_extend hstart hbraces hbody
    simp only [expect_extend (by decide) hlp, expr_extend hstart hexpr he, Outcome.bind_ok,
      expect_extend (by decide) hrp, hread, helse, Option.map_none, spanFrom_extend hbegun, hlp,
      hrp, hbraces]
  | some d' =>
    have hw4 := Cursor.weight_accept?_lt (by decide) ha
    simp only [ha] at ho helse
    split at ho
    · next hif =>
      cases ho
      simp only [Stmt.diagnostics, Stmt.diagnosticsOfAll, List.append_eq_nil_iff] at hs
      obtain ⟨⟨⟨⟨⟨hlp, hrp⟩, hbraces⟩, he⟩, hbody⟩, hno, -⟩ := hs
      have hne : d'.kind ≠ .eof := by rw [hif]; decide
      have hlt := d'.weight_advance_lt hne
      obtain ⟨-, hread⟩ := body_extend hstart hbraces hbody
      have hstmt := stmt_extend_of hne
        (stmtRest_extend hstart (begun_advance hne) hr (eq_ok_of_settle hno) hno)
      have hbegun : (stmt f d').2.Begun := (stmt_leads f d').begun (begun_advance hne)
      simp only [expect_extend (by decide) hlp, expr_extend hstart hexpr he, Outcome.bind_ok,
        expect_extend (by decide) hrp, hread, helse, Option.map_some, kind_extend hne, if_pos hif,
        hstmt, spanFrom_extend hbegun, hlp, hrp, hbraces]
    · next hif =>
      cases ho
      simp only [Stmt.diagnostics, List.append_eq_nil_iff] at hs
      obtain ⟨⟨⟨⟨⟨⟨hlp, hrp⟩, hbraces⟩, hbraces'⟩, he⟩, hbody⟩, hno⟩ := hs
      obtain ⟨-, hread⟩ := body_extend hstart hbraces hbody
      obtain ⟨hbegun, hread'⟩ := body_extend hstart hbraces' hno
      have hopen : d'.kind = .leftBrace := by
        rw [body_eq] at hbraces'
        exact kind_of_expect (List.append_eq_nil_iff.1 hbraces').1
      have hif' : ¬ (d'.extend t us).kind = .kwIf := by
        rw [kind_extend (by rw [hopen]; decide), hopen]
        decide
      simp only [expect_extend (by decide) hlp, expr_extend hstart hexpr he, Outcome.bind_ok,
        expect_extend (by decide) hrp, hread, helse, Option.map_some, if_neg hif', hread',
        spanFrom_extend hbegun, hlp, hrp, hbraces, hbraces']
termination_by 4 * c.weight + 2

theorem defineRest_extend (hstart : t.kind ∈ nextKinds) {start : Token} {c r : Cursor} {s : Stmt}
    (ho : defineRest start c = .ok s r) (hs : s.diagnostics = []) :
    defineRest start (c.extend t us) = .ok s (r.extend t us) := by
  rw [defineRest_eq] at ho
  cases ho
  simp only [Stmt.diagnostics, List.append_eq_nil_iff] at hs
  obtain ⟨⟨⟨herrors, hbraces⟩, htypes⟩, hbody⟩ := hs
  have hw := weight_header_le c
  obtain ⟨hbegun, hread⟩ := body_extend hstart hbraces hbody
  rw [defineRest_eq]
  simp only [header_extend hstart herrors htypes, hread, spanFrom_extend hbegun, herrors, hbraces]
termination_by 4 * c.weight + 2

theorem body_extend (hstart : t.kind ∈ nextKinds) {f : Bool} {c : Cursor}
    (he : (body f c).errors = []) (hb : Stmt.diagnosticsOfAll (body f c).body = []) :
    (body f c).rest.Begun ∧
      body f (c.extend t us) = ⟨(body f c).body, [], (body f c).rest.extend t us⟩ := by
  rw [body_eq f c] at he hb ⊢
  obtain ⟨hlb, hrb⟩ := List.append_eq_nil_iff.1 he
  have hw := c.weight_expect_le .leftBrace
  refine ⟨begun_expectOr (by decide) hrb, ?_⟩
  rw [body_eq]
  simp only [expect_extend (by decide) hlb, block_extend hstart (kind_of_expectOr hrb) hb,
    expectOr_extend (by decide) hrb, List.append_nil]
termination_by 4 * c.weight + 1

theorem block_extend (hstart : t.kind ∈ nextKinds) {f : Bool} {c : Cursor}
    (hr : (block f c).2.kind = .rightBrace) (hb : Stmt.diagnosticsOfAll (block f c).1 = []) :
    block f (c.extend t us) = ((block f c).1, (block f c).2.extend t us) := by
  by_cases hk : c.kind = .eof ∨ c.kind = .rightBrace
  · have hdone : block f c = ([], c) := by rw [block_eq, if_pos hk]
    rw [hdone] at hr ⊢
    have hne : c.kind ≠ .eof := by rw [hr]; decide
    rw [block_eq, if_pos (.inr ((kind_extend hne).trans hr))]
  · have heof : c.kind ≠ .eof := fun e => hk (.inl e)
    have hlt := c.weight_advance_lt heof
    have hw := weight_stmt_lt f heof
    rw [block_of_more hk] at hr hb ⊢
    obtain ⟨hs, hmore⟩ := List.append_eq_nil_iff.1 hb
    -- the block goes on behind the statement, so this one does not reach the end
    have hne : (stmt f c).2.kind ≠ .eof := by
      intro hend
      rw [block_eq, if_pos (.inl hend), hend] at hr
      cases hr
    have hstmt := stmt_extend_of heof
      (stmtRest_extend hstart (begun_advance heof) (fun _ => hne) (eq_ok_of_settle hs) hs)
    rw [block_of_more (by rwa [kind_extend heof]), hstmt]
    simp only [block_extend hstart hr hmore]
termination_by 4 * c.weight

end

theorem stmt_extend (hstart : t.kind ∈ nextKinds) {c : Cursor} (hk : c.kind ≠ .eof)
    (hs : (stmt false c).1.diagnostics = []) :
    stmt false (c.extend t us) = ((stmt false c).1, (stmt false c).2.extend t us) :=
  stmt_extend_of hk
    (stmtRest_extend hstart (begun_advance hk) (fun h => by cases h) (eq_ok_of_settle hs) hs)

/-- The statements of a longer stream are those of the shorter one, and then those of what was put
in the place of its end. -/
theorem statements_extend (hstart : t.kind ∈ nextKinds) (c : Cursor)
    (hs : Stmt.diagnosticsOfAll (statements c).1 = []) :
    statements (c.extend t us) =
      ((statements c).1 ++ (statements ((statements c).2.extend t us)).1,
        (statements ((statements c).2.extend t us)).2) := by
  fun_induction statements c with
  | case1 c hk => rfl
  | case2 c hk s more ih =>
    obtain ⟨hfirst, hmore⟩ := List.append_eq_nil_iff.1 hs
    rw [statements, dif_neg (fun h => hk ((kind_extend hk).symm.trans h)),
      stmt_extend hstart hk hfirst]
    dsimp only
    rw [ih hmore]
    rfl

end Grammar

end CatScript
