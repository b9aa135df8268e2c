import CatScript.Proofs.Grammar.Movement
import CatScript.Proofs.Grammar.Spelling

/-!
# Which tokens a statement takes

Every token of a text goes into exactly one place of the tree that is read from it. A statement
takes its keyword or name, the tokens of its expressions and of the statements in it, and the marks
between them as far as they are there; a statement that was given up takes the tokens that were
skipped. Statements one behind the other take the tokens one behind the other, with nothing left
between them.

Reading a type splits a `>=`, so the tokens that are taken are those of the text with some `>=` in
two halves (`Refined`).

Results:
* `stmt_covered`: reading a statement takes tokens that cover it, whatever is wrong with it.
* `statements_covered`: reading statements to the end takes all tokens of the text.
-/
namespace CatScript

open Token (Kind)

/-! ## Tokens in two halves -/

namespace Grammar

/-- The `>` of a `>=`. -/
def greaterOf (t : Token) : Token := ⟨.greater, ">", { t.span with stop := t.span.start + 1 }⟩

/-- The second list is the first with some `>=` in two halves. -/
inductive Refined : List Token → List Token → Prop where
  | nil : Refined [] []
  | keep {ts us : List Token} (t : Token) : Refined ts us → Refined (t :: ts) (t :: us)
  | split {ts us : List Token} {t : Token} : t.kind = .greaterEqual → Refined ts us →
    Refined (t :: ts) (greaterOf t :: equalOf t :: us)

theorem Refined.refl : (ts : List Token) → Refined ts ts
  | [] => .nil
  | t :: ts => .keep t (refl ts)

theorem Refined.append_left {as bs : List Token} (h : Refined as bs) :
    (ts : List Token) → Refined (ts ++ as) (ts ++ bs)
  | [] => h
  | t :: ts => .keep t (append_left h ts)

theorem Refined.trans {as bs cs : List Token} (h : Refined as bs) (h' : Refined bs cs) :
    Refined as cs := by
  induction h generalizing cs with
  | nil => exact h'
  | keep t _ ih =>
    cases h' with
    | keep _ h' => exact .keep t (ih h')
    | split hk h' => exact .split hk (ih h')
  | split hk _ ih =>
    -- the halves are no `>=` themselves, so they stay
    cases h' with
    | split hk' _ => cases hk'
    | keep _ h' =>
      cases h' with
      | split hk' _ => cases hk'
      | keep _ h' => exact .split hk (ih h')

end Grammar

/-! ## Passing tokens -/

namespace Cursor

open Grammar

/-- The tokens ahead are those of a text. -/
def Scanned (c : Cursor) : Prop := ∃ ts, c.Faces ts

theorem Scanned.ended {c : Cursor} (h : c.Scanned) : c.Ended := by
  obtain ⟨ts, ⟨e, he, hs⟩, -⟩ := h
  rw [Ended, toCome, hs, List.getLast?_concat, Option.map_some, he]

/-- Reading goes from `c` to `d` and passes `ts` on the way, some of them halves of a `>=`. -/
structure Passes (c : Cursor) (ts : List Token) (d : Cursor) : Prop where
  passed : d.PassedSince c.before ts
  faces : ∀ {as : List Token}, c.Faces as → ∃ bs, d.Faces bs ∧ Refined as (ts ++ bs)

variable {c d r : Cursor} {ts us : List Token}

theorem Passes.refl (c : Cursor) : c.Passes [] c := ⟨rfl, fun h => ⟨_, h, .refl _⟩⟩

theorem Passes.trans (h : c.Passes ts d) (h' : d.Passes us r) : c.Passes (ts ++ us) r := by
  refine ⟨h.passed.trans h'.passed, fun hc => ?_⟩
  obtain ⟨bs, hd, hrefined⟩ := h.faces hc
  obtain ⟨es, hr, hrefined'⟩ := h'.faces hd
  refine ⟨es, hr, ?_⟩
  rw [List.append_assoc]
  exact hrefined.trans (hrefined'.append_left ts)

theorem Passes.scanned (h : c.Passes ts d) (hc : c.Scanned) : d.Scanned := by
  obtain ⟨as, hc⟩ := hc
  obtain ⟨bs, hd, -⟩ := h.faces hc
  exact ⟨bs, hd⟩

theorem Takes.passes (h : c.Takes ts d) : c.Passes ts d := by
  refine ⟨h.passed, fun {as} hc => ?_⟩
  obtain ⟨⟨e, he, hs⟩, hlex⟩ := hc
  -- the last token ahead of `d` is the end of the stream
  obtain ⟨bs, last, hd⟩ : ∃ bs last, d.toCome = bs ++ [last] :=
    ⟨_, _, (List.dropLast_concat_getLast (List.cons_ne_nil d.current d.ahead)).symm⟩
  have hall : as ++ [e] = (ts ++ bs) ++ [last] := by
    rw [List.append_assoc, ← hd, ← h.toCome]
    exact hs.symm
  obtain ⟨rfl, hlast⟩ := List.append_inj' hall rfl
  cases hlast
  exact ⟨bs, ⟨⟨e, he, hd⟩, fun t ht => hlex t (List.mem_append_right ts ht)⟩, .refl _⟩

theorem Scanned.passes_advance (h : c.Scanned) (hk : c.kind ≠ .eof) :
    c.Passes [c.current] c.advance :=
  (h.ended.takes_advance hk).passes

theorem Scanned.passes_split (h : c.Scanned) (hk : c.kind = .greaterEqual) :
    c.Passes [] (c.split .greater .equal) := by
  obtain ⟨as, hc⟩ := h
  obtain ⟨rest, rfl, -⟩ := hc.uncons (by rw [hk]; decide)
  have hv := (hc.lexical c.current (List.mem_cons_self ..)).greaterEqual hk
  have hsplit : c.split .greater .equal =
      { c with current := greaterOf c.current, ahead := equalOf c.current :: c.ahead } := by
    unfold Cursor.split
    rw [hv]
    rfl
  rw [hsplit]
  refine ⟨rfl, fun {bs} hb => ?_⟩
  obtain ⟨rest, rfl, -⟩ := hb.uncons (by rw [hk]; decide)
  obtain ⟨e, he, hs⟩ := hb.stream
  refine ⟨greaterOf c.current :: equalOf c.current :: rest, ⟨⟨e, he, ?_⟩, ?_⟩, .split hk (.refl rest)⟩
  · rw [show c.ahead = rest ++ [e] from (List.cons.inj hs).2]
    rfl
  · rw [List.forall_mem_cons, List.forall_mem_cons]
    exact ⟨.of_kind (by simp [greaterOf]), .of_kind (by simp [equalOf]),
      fun t ht => hb.lexical t (List.mem_cons_of_mem _ ht)⟩

/-- Whatever reading does, it passes some tokens. -/
theorem Leads.passes (h : c.Leads d) (hc : c.Scanned) : ∃ ts, c.Passes ts d := by
  induction h with
  | refl => exact ⟨[], .refl c⟩
  | @advance d _ ih =>
    obtain ⟨ts, hpass⟩ := ih
    by_cases hk : d.kind = .eof
    · rw [Cursor.advance, if_pos hk]
      exact ⟨ts, hpass⟩
    · exact ⟨_, hpass.trans ((hpass.scanned hc).passes_advance hk)⟩
  | split _ hk ih =>
    obtain ⟨ts, hpass⟩ := ih
    exact ⟨_, hpass.trans ((hpass.scanned hc).passes_split hk)⟩

end Cursor

/-! ## Covering -/

/-- A token of the kind, or nothing. -/
def Token.AtMost (k : Kind) (ts : List Token) : Prop := ts = [] ∨ ∃ t, ts = [t] ∧ t.kind = k

/-- Tokens between braces, of which each may be missing. -/
def Token.Braced (P : List Token → Prop) (ts : List Token) : Prop :=
  ∃ opening inner closing, ts = opening ++ (inner ++ closing) ∧ AtMost .leftBrace opening ∧
    P inner ∧ AtMost .rightBrace closing

namespace Cursor

variable {c d : Cursor} {k : Kind}

theorem Scanned.passes_expectOr (h : c.Scanned) (hk : k ≠ .eof) (cause : Cause) :
    ∃ ts, Token.AtMost k ts ∧ c.Passes ts (c.expectOr k cause).rest := by
  unfold expectOr
  split
  · next hc => exact ⟨_, .inr ⟨_, rfl, hc⟩, h.passes_advance (hc ▸ hk)⟩
  · exact ⟨[], .inl rfl, .refl c⟩

theorem Scanned.passes_expect (h : c.Scanned) (hk : k ≠ .eof) :
    ∃ ts, Token.AtMost k ts ∧ c.Passes ts (c.expect k).rest :=
  h.passes_expectOr hk _

theorem Scanned.passes_accept? (h : c.Scanned) (hk : k ≠ .eof) (ha : c.accept? k = some d) :
    ∃ t, t.kind = k ∧ c.Passes [t] d := by
  obtain ⟨hkind, htake⟩ := h.ended.takes_accept? hk ha
  exact ⟨_, hkind, htake.passes⟩

end Cursor

namespace Stmt

open Token (AtMost Braced)

mutual

/-- The statement takes the tokens, and `H` holds between the span and the tokens of each of its
statements and expressions, those apart that were given up. -/
def Covers (H : Span → List Token → Prop) : Stmt → List Token → Prop
  | print n e, ts =>
    H n.span ts ∧ ∃ t opening es closing, ts = t :: (opening ++ (es ++ closing)) ∧
      t.kind = .kwPrint ∧ AtMost .leftParen opening ∧ e.Spells H es ∧ AtMost .rightParen closing
  | forEach n _ e body, ts =>
    H n.span ts ∧ ∃ t opening name kw es closing bs,
      ts = t :: (opening ++ (name ++ (kw ++ (es ++ (closing ++ bs))))) ∧ t.kind = .kwFor ∧
      AtMost .leftParen opening ∧ AtMost .identifier name ∧ AtMost .kwIn kw ∧ e.Spells H es ∧
      AtMost .rightParen closing ∧ Braced (CoversAll H body) bs
  | cond n e yes none, ts =>
    H n.span ts ∧ ∃ t opening es closing bs, ts = t :: (opening ++ (es ++ (closing ++ bs))) ∧
      t.kind = .kwIf ∧ AtMost .leftParen opening ∧ e.Spells H es ∧ AtMost .rightParen closing ∧
      Braced (CoversAll H yes) bs
  | cond n e yes (some no), ts =>
    H n.span ts ∧ ∃ t opening es closing bs kw ds,
      ts = t :: (opening ++ (es ++ (closing ++ (bs ++ kw :: ds)))) ∧ t.kind = .kwIf ∧
      AtMost .leftParen opening ∧ e.Spells H es ∧ AtMost .rightParen closing ∧
      Braced (CoversAll H yes) bs ∧ kw.kind = .kwElse ∧ Braced (CoversAll H no) ds
  | declare n _ declared e, ts =>
    H n.span ts ∧ ∃ t name ty equal es, ts = t :: (name ++ (ty ++ (equal ++ es))) ∧
      t.kind = .kwVar ∧ AtMost .identifier name ∧ (declared = none → ty = []) ∧
      AtMost .equal equal ∧ e.Spells H es
  | assign n x e, ts =>
    H n.span ts ∧ ∃ t equal es, ts = t :: equal :: es ∧ t.kind = .identifier ∧ t.value = x ∧
      equal.kind = .equal ∧ e.Spells H es
  | call n e, ts => H n.span ts ∧ e.Spells H ts
  | define n _ body, ts =>
    H n.span ts ∧ ∃ t head bs, ts = t :: (head ++ bs) ∧ t.kind = .kwFunction ∧
      Braced (CoversAll H body) bs
  | ret n none, ts => H n.span ts ∧ ∃ t, ts = [t] ∧ t.kind = .kwReturn
  | ret n (some e), ts =>
    H n.span ts ∧ ∃ t es, ts = t :: es ∧ t.kind = .kwReturn ∧ e.Spells H es
  | invalid _ _, ts => ts ≠ []

/-- Statements take the tokens one behind the other. -/
def CoversAll (H : Span → List Token → Prop) : List Stmt → List Token → Prop
  | [], ts => ts = []
  | s :: ss, ts => ∃ as bs, ts = as ++ bs ∧ s.Covers H as ∧ CoversAll H ss bs

end

end Stmt

/-! ## Statements without a body -/

namespace Grammar

open Token (AtMost Braced HullInOrder)

section

variable {b : List Token} {start : Token} {c r : Cursor} {s : Stmt}

theorem expr_covered {e : Expr} (hc : c.Scanned) (ho : expr c = .ok e r) :
    ∃ ts, c.Passes ts r ∧ e.Spells HullInOrder ts := by
  obtain ⟨ts, htake, hspell⟩ := expr_spelled hc.ended ho
  exact ⟨ts, htake.passes, hspell.spells⟩

theorem declaredType_passes (hc : c.Scanned) :
    ∃ ts, c.Passes ts (declaredType c).2 ∧ ((declaredType c).1 = none → ts = []) := by
  cases ha : c.accept? .colon with
  | none =>
    have heq : declaredType c = (none, c) := by rw [declaredType, ha]
    rw [heq]
    exact ⟨[], .refl c, fun _ => rfl⟩
  | some d =>
    have heq : declaredType c = (some (typeName d).1, (typeName d).2) := by rw [declaredType, ha]
    obtain ⟨ts, hpass⟩ := (declaredType_leads c).passes hc
    rw [heq] at hpass ⊢
    exact ⟨ts, hpass, nofun⟩

theorem printRest_covered (hk : start.kind = .kwPrint) (hb : c.PassedSince b [start])
    (hc : c.Scanned) (ho : printRest start c = .ok s r) :
    ∃ ts, c.Passes ts r ∧ s.Covers HullInOrder (start :: ts) := by
  obtain ⟨e, d, hexpr, ho⟩ := Outcome.bind_eq_ok.1 ho
  cases ho
  obtain ⟨opening, hopen, hp⟩ := hc.passes_expect (k := .leftParen) (by decide)
  obtain ⟨es, hp₁, he⟩ := expr_covered (hp.scanned hc) hexpr
  obtain ⟨closing, hclose, hp₂⟩ :=
    (hp₁.scanned (hp.scanned hc)).passes_expect (k := .rightParen) (by decide)
  have hpass := hp.trans (hp₁.trans hp₂)
  exact ⟨_, hpass, (hb.trans hpass.passed).spanFrom, start, opening, es, closing, rfl, hk, hopen, he,
    hclose⟩

theorem declareRest_covered (hk : start.kind = .kwVar) (hb : c.PassedSince b [start])
    (hc : c.Scanned) (ho : declareRest start c = .ok s r) :
    ∃ ts, c.Passes ts r ∧ s.Covers HullInOrder (start :: ts) := by
  obtain ⟨e, d, hexpr, ho⟩ := Outcome.bind_eq_ok.1 ho
  cases ho
  obtain ⟨name, hname, hp⟩ := hc.passes_expect (k := .identifier) (by decide)
  have hc₁ := hp.scanned hc
  obtain ⟨ty, hp₁, hty⟩ := declaredType_passes hc₁
  have hc₂ := hp₁.scanned hc₁
  obtain ⟨equal, hequal, hp₂⟩ := hc₂.passes_expect (k := .equal) (by decide)
  obtain ⟨es, hp₃, he⟩ := expr_covered (hp₂.scanned hc₂) hexpr
  have hpass := hp.trans (hp₁.trans (hp₂.trans hp₃))
  exact ⟨_, hpass, (hb.trans hpass.passed).spanFrom, start, name, ty, equal, es, rfl, hk, hname, hty,
    hequal, he⟩

theorem nameRest_covered (hk : start.kind = .identifier) (hb : c.PassedSince b [start])
    (hc : c.Scanned) (ho : nameRest start c = .ok s r) :
    ∃ ts, c.Passes ts r ∧ s.Covers HullInOrder (start :: ts) := by
  unfold nameRest at ho
  split at ho
  · next hparen =>
    obtain ⟨e, hcall, rfl⟩ := Outcome.map_eq_ok.1 ho
    have hstep := hc.ended.takes_advance (by rw [hparen]; decide)
    obtain ⟨ts, htake, hspell⟩ := callRest_spelled (hstep.ended hc.ended) hk hparen
      (hb.trans hstep.passed) hcall
    exact ⟨_, (hstep.trans htake).passes, hspell.spells.node, hspell.spells⟩
  · next hequal =>
    obtain ⟨e, d, hexpr, ho⟩ := Outcome.bind_eq_ok.1 ho
    cases ho
    have hp := hc.passes_advance (by rw [hequal]; decide)
    obtain ⟨es, hp₁, he⟩ := expr_covered (hp.scanned hc) hexpr
    have hpass := hp.trans hp₁
    exact ⟨_, hpass, (hb.trans hpass.passed).spanFrom, start, c.current, es, rfl, hk, rfl, hequal, he⟩
  · cases ho
    exact ⟨[], .refl c, List.cons_ne_nil _ _⟩

theorem returnRest_covered (hk : start.kind = .kwReturn) (hb : c.PassedSince b [start])
    (hc : c.Scanned) (ho : returnRest start c = .ok s r) :
    ∃ ts, c.Passes ts r ∧ s.Covers HullInOrder (start :: ts) := by
  unfold returnRest at ho
  split at ho
  · obtain ⟨e, d, hexpr, ho⟩ := Outcome.bind_eq_ok.1 ho
    cases ho
    obtain ⟨es, hpass, he⟩ := expr_covered hc hexpr
    exact ⟨es, hpass, (hb.trans hpass.passed).spanFrom, start, es, rfl, hk, he⟩
  · cases ho
    exact ⟨[], .refl c, hb.spanFrom, start, rfl, hk⟩

end

/-! ## Statements with a body -/

/-- A statement that was read or given up. -/
theorem settle_covered {f : Bool} {c : Cursor} (hc : c.Scanned) (hk : c.kind ≠ .eof)
    (h : ∀ {s r}, stmtRest f c.current c.advance = .ok s r →
      ∃ ts, c.advance.Passes ts r ∧ s.Covers HullInOrder (c.current :: ts)) :
    ∃ ts, c.Passes ts (stmt f c).2 ∧ (stmt f c).1.Covers HullInOrder ts := by
  have hstep := hc.passes_advance hk
  cases ho : stmtRest f c.current c.advance with
  | ok s r =>
    obtain ⟨ts, hpass, hcover⟩ := h ho
    have hs : stmt f c = (s, r) := by rw [stmt, ho]; rfl
    rw [hs]
    exact ⟨_, hstep.trans hpass, hcover⟩
  | failed r =>
    obtain ⟨ts, hpass⟩ := (stmt_leads f c).passes (hstep.scanned hc)
    have hs : (stmt f c).1 = .ofUnexpected r.current := by rw [stmt, ho]; rfl
    rw [hs]
    exact ⟨_, hstep.trans hpass, List.cons_ne_nil _ _⟩

mutual

theorem stmtRest_covered {f : Bool} {b : List Token} {start : Token} {c r : Cursor} {s : Stmt}
    (hb : c.PassedSince b [start]) (hc : c.Scanned) (ho : stmtRest f start c = .ok s r) :
    ∃ ts, c.Passes ts r ∧ s.Covers HullInOrder (start :: ts) := by
  rw [stmtRest_eq] at ho
  split at ho
  · next hk => exact printRest_covered hk hb hc ho
  · next hk => exact declareRest_covered hk hb hc ho
  · next hk => exact nameRest_covered hk hb hc ho
  · next hk => exact forRest_covered hk hb hc ho
  · next hk => exact condRest_covered hk hb hc ho
  · next hk => exact defineRest_covered hk hb hc ho
  · next hk =>
    split at ho
    · exact returnRest_covered hk hb hc ho
    · cases ho
      exact ⟨[], .refl c, List.cons_ne_nil _ _⟩
  · cases ho
    exact ⟨[], .refl c, List.cons_ne_nil _ _⟩
termination_by 4 * c.weight + 3

theorem forRest_covered {f : Bool} {b : List Token} {start : Token} {c r : Cursor} {s : Stmt}
    (hk : start.kind = .kwFor) (hb : c.PassedSince b [start]) (hc : c.Scanned)
    (ho : forRest f start c = .ok s r) :
    ∃ ts, c.Passes ts r ∧ s.Covers HullInOrder (start :: ts) := by
  rw [forRest_eq] at ho
  obtain ⟨e, d, hexpr, ho⟩ := Outcome.bind_eq_ok.1 ho
  cases ho
  have hw := expr_ok_lt hexpr
  have hw1 := c.weight_expect_le .leftParen
  have hw2 := (c.expect .leftParen).rest.weight_expect_le .identifier
  have hw3 := ((c.expect .leftParen).rest.expect .identifier).rest.weight_expect_le .kwIn
  have hw4 := d.weight_expect_le .rightParen
  obtain ⟨opening, hopen, hp⟩ := hc.passes_expect (k := .leftParen) (by decide)
  have hc₁ := hp.scanned hc
  obtain ⟨name, hname, hp₁⟩ := hc₁.passes_expect (k := .identifier) (by decide)
  have hc₂ := hp₁.scanned hc₁
  obtain ⟨kw, hkw, hp₂⟩ := hc₂.passes_expect (k := .kwIn) (by decide)
  have hc₃ := hp₂.scanned hc₂
  obtain ⟨es, hp₃, he⟩ := expr_covered hc₃ hexpr
  have hc₄ := hp₃.scanned hc₃
  obtain ⟨closing, hclose, hp₄⟩ := hc₄.passes_expect (k := .rightParen) (by decide)
  obtain ⟨bs, hp₅, hbody⟩ := body_covered (f := f) (hp₄.scanned hc₄)
  have hpass := hp.trans (hp₁.trans (hp₂.trans (hp₃.trans (hp₄.trans hp₅))))
  exact ⟨_, hpass, (hb.trans hpass.passed).spanFrom, start, opening, name, kw, es, closing, bs, rfl,
    hk, hopen, hname, hkw, he, hclose, hbody⟩
termination_by 4 * c.weight + 2

theorem condRest_covered {f : Bool} {b : List Token} {start : Token} {c r : Cursor} {s : Stmt}
    (hk : start.kind = .kwIf) (hb : c.PassedSince b [start]) (hc : c.Scanned)
    (ho : condRest f start c = .ok s r) :
    ∃ ts, c.Passes ts r ∧ s.Covers HullInOrder (start :: ts) := by
  rw [condRest_eq] at ho
  obtain ⟨e, d, hexpr, ho⟩ := Outcome.bind_eq_ok.1 ho
  have hw := expr_ok_lt hexpr
  have hw1 := c.weight_expect_le .leftParen
  have hw2 := d.weight_expect_le .rightParen
  have hw3 := weight_body_le f (d.expect .rightParen).rest
  obtain ⟨opening, hopen, hp⟩ := hc.passes_expect (k := .leftParen) (by decide)
  have hc₁ := hp.scanned hc
  obtain ⟨es, hp₁, he⟩ := expr_covered hc₁ hexpr
  have hc₂ := hp₁.scanned hc₁
  obtain ⟨closing, hclose, hp₂⟩ := hc₂.passes_expect (k := .rightParen) (by decide)
  have hc₃ := hp₂.scanned hc₂
  obtain ⟨bs, hp₃, hyes⟩ := body_covered (f := f) hc₃
  have hc₄ := hp₃.scanned hc₃
  cases ha : (body f (d.expect .rightParen).rest).rest.accept? .kwElse with
  | none =>
    simp only [ha] at ho
    cases ho
    have hpass := hp.trans (hp₁.trans (hp₂.trans hp₃))
    exact ⟨_, hpass, (hb.trans hpass.passed).spanFrom, start, opening, es, closing, bs, rfl, hk,
      hopen, he, hclose, hyes⟩
  | some d' =>
    have hw4 := Cursor.weight_accept?_lt (by decide) ha
    obtain ⟨kw, hkw, hp₄⟩ := hc₄.passes_accept? (by decide) ha
    have hc₅ := hp₄.scanned hc₄
    simp only [ha] at ho
    split at ho
    · next hif =>
      cases ho
      have hne : d'.kind ≠ .eof := by rw [hif]; decide
      have hlt := d'.weight_advance_lt hne
      obtain ⟨ds, hp₅, hno⟩ := settle_covered (f := f) hc₅ hne
        (stmtRest_covered (hc₅.passes_advance hne).passed ((hc₅.passes_advance hne).scanned hc₅))
      have hpass := hp.trans (hp₁.trans (hp₂.trans (hp₃.trans (hp₄.trans hp₅))))
      exact ⟨_, hpass, (hb.trans hpass.passed).spanFrom, start, opening, es, closing, bs, kw, ds, rfl,
        hk, hopen, he, hclose, hyes, hkw, [], ds, [], by simp, .inl rfl,
        ⟨ds, [], by simp, hno, rfl⟩, .inl rfl⟩
    · cases ho
      obtain ⟨ds, hp₅, hno⟩ := body_covered (f := f) hc₅
      have hpass := hp.trans (hp₁.trans (hp₂.trans (hp₃.trans (hp₄.trans hp₅))))
      exact ⟨_, hpass, (hb.trans hpass.passed).spanFrom, start, opening, es, closing, bs, kw, ds, rfl,
        hk, hopen, he, hclose, hyes, hkw, hno⟩
termination_by 4 * c.weight + 2

theorem defineRest_covered {b : List Token} {start : Token} {c r : Cursor} {s : Stmt}
    (hk : start.kind = .kwFunction) (hb : c.PassedSince b [start]) (hc : c.Scanned)
    (ho : defineRest start c = .ok s r) :
    ∃ ts, c.Passes ts r ∧ s.Covers HullInOrder (start :: ts) := by
  rw [defineRest_eq] at ho
  cases ho
  have hw := weight_header_le c
  obtain ⟨head, hp⟩ := (header_leads c).passes hc
  obtain ⟨bs, hp₁, hbody⟩ := body_covered (f := true) (hp.scanned hc)
  have hpass := hp.trans hp₁
  exact ⟨_, hpass, (hb.trans hpass.passed).spanFrom, start, head, bs, rfl, hk, hbody⟩
termination_by 4 * c.weight + 2

theorem body_covered {f : Bool} {c : Cursor} (hc : c.Scanned) :
    ∃ ts, c.Passes ts (body f c).rest ∧ Braced (Stmt.CoversAll HullInOrder (body f c).body) ts := by
  rw [body_eq]
  have hw := c.weight_expect_le .leftBrace
  obtain ⟨opening, hopen, hp⟩ := hc.passes_expect (k := .leftBrace) (by decide)
  have hc₁ := hp.scanned hc
  obtain ⟨bs, hp₁, hcover⟩ := block_covered (f := f) hc₁
  obtain ⟨closing, hclose, hp₂⟩ :=
    (hp₁.scanned hc₁).passes_expectOr (k := .rightBrace) (by decide) .unterminatedBody
  exact ⟨_, hp.trans (hp₁.trans hp₂), opening, bs, closing, rfl, hopen, hcover, hclose⟩
termination_by 4 * c.weight + 1

theorem block_covered {f : Bool} {c : Cursor} (hc : c.Scanned) :
    ∃ ts, c.Passes ts (block f c).2 ∧ Stmt.CoversAll HullInOrder (block f c).1 ts := by
  rw [block_eq]
  split
  · exact ⟨[], .refl c, rfl⟩
  · next hk =>
    have heof : c.kind ≠ .eof := fun e => hk (.inl e)
    have hlt := c.weight_advance_lt heof
    have hw := weight_stmt_lt f heof
    have hstep := hc.passes_advance heof
    obtain ⟨ts, hp, hcover⟩ := settle_covered (f := f) hc heof
      (stmtRest_covered hstep.passed (hstep.scanned hc))
    obtain ⟨us, hp₁, hcovers⟩ := block_covered (f := f) (hp.scanned hc)
    exact ⟨_, hp.trans hp₁, ts, us, rfl, hcover, hcovers⟩
termination_by 4 * c.weight

end

/-- Reading a statement takes tokens that cover it. -/
theorem stmt_covered {f : Bool} {c : Cursor} (hc : c.Scanned) (hk : c.kind ≠ .eof) :
    ∃ ts, c.Passes ts (stmt f c).2 ∧ (stmt f c).1.Covers HullInOrder ts := by
  have hstep := hc.passes_advance hk
  exact settle_covered hc hk (stmtRest_covered hstep.passed (hstep.scanned hc))

/-- Reading statements to the end takes tokens that cover them. -/
theorem statements_covered (c : Cursor) : c.Scanned →
    ∃ ts, c.Passes ts (statements c).2 ∧ Stmt.CoversAll HullInOrder (statements c).1 ts := by
  fun_induction statements c
  case case1 c hk => exact fun _ => ⟨[], .refl c, rfl⟩
  case case2 c hk s more ih =>
    intro hc
    obtain ⟨ts, hp, hcover⟩ := stmt_covered (f := false) hc hk
    obtain ⟨us, hp₁, hcovers⟩ := ih (hp.scanned hc)
    exact ⟨_, hp.trans hp₁, ts, us, rfl, hcover, hcovers⟩

end Grammar

end CatScript
