import CatScript.Proofs.Grammar.Readable

/-!
# Texts without diagnostics

Every statement of the grammar is read to its end without a diagnostic, if the start of another, a
`}` or nothing stands behind it. A program is tried as an expression first, which costs nothing:
the first statement of a program is a call, and then the expression is that call, or no expression
comes to the end. So a sentence has no diagnostics, and with the other direction a text has none
exactly if it is a sentence (`Program.parse_diagnostics_eq_nil_iff`).
-/
namespace CatScript

open Token (Kind)

namespace Grammar

/-! ## What stands behind a statement -/

/-- What can stand behind a statement. -/
def Followed (ts : List Token) : Prop := ts = [] ∨ StartsWith (.rightBrace :: stmtKinds) ts

theorem Followed.stops {level : Level} {ts : List Token} (h : Followed ts) : Stops level ts := by
  rcases h with rfl | h
  · intro t rest he
    cases he
  · exact stops_of_startsWith (h.mono (by decide))

/-! ## Statements -/

section

variable {f : Bool} {start : Token} {c : Cursor} {a b b' d rest : List Token}

theorem printRest_clean (hopen : Mark .leftParen a b) (hwhole : Whole b d)
    (hclose : Mark .rightParen d rest) (hc : c.Faces a) :
    (printRest start c).Clean Stmt.diagnostics rest := by
  obtain ⟨hlp, hb⟩ := hc.expect_of_mark hopen
  obtain ⟨e, r, hexpr, he, hr⟩ := hwhole.read (hclose.stops (by decide)) hb
  obtain ⟨hrp, hr'⟩ := hr.expect_of_mark hclose
  unfold printRest
  dsimp only
  rw [hexpr]
  exact ⟨_, _, rfl, by simp [Stmt.diagnostics, hlp, hrp, he], hr'⟩

theorem declareRest_clean (hname : Mark .identifier a b) (hty : Annotation b b')
    (heq : Mark .equal b' d) (hwhole : Whole d rest) (hs : Stops .default rest) (hc : c.Faces a) :
    (declareRest start c).Clean Stmt.diagnostics rest := by
  obtain ⟨hne, hb⟩ := hc.expect_of_mark hname
  obtain ⟨hte, hb'⟩ := hty.read (heq.not_startsWith (by decide)) hb
  obtain ⟨hee, hd⟩ := hb'.expect_of_mark heq
  obtain ⟨e, r, hexpr, he, hr⟩ := hwhole.read hs hd
  unfold declareRest
  dsimp only
  rw [hexpr]
  exact ⟨_, _, rfl, by simp [declare_diagnostics, hne, hee, hte, he], hr⟩

theorem nameRest_clean_of_equal (heq : Mark .equal a b) (hwhole : Whole b rest)
    (hs : Stops .default rest) (hc : c.Faces a) :
    (nameRest start c).Clean Stmt.diagnostics rest := by
  obtain ⟨e, r, hexpr, he, hr⟩ := hwhole.read hs (hc.advance_of_mark heq)
  unfold nameRest
  rw [hc.kind_of_mark heq, hexpr]
  exact ⟨_, _, rfl, by simp [Stmt.diagnostics, he], hr⟩

theorem nameRest_clean_of_paren (hopen : Mark .leftParen a b) (hargs : ExprPhrase .args b d)
    (hclose : Mark .rightParen d rest) (hc : c.Faces a) :
    (nameRest start c).Clean Stmt.diagnostics rest := by
  obtain ⟨e, r, hcall, he, hr⟩ :=
    callRest_clean hargs.read hclose (hc.advance_of_mark hopen)
  unfold nameRest
  rw [hc.kind_of_mark hopen, hcall]
  exact ⟨_, _, rfl, by simp [Stmt.diagnostics, he], hr⟩

theorem returnRest_clean (hs : ¬ StartsWith exprKinds a) (hc : c.Faces a) :
    (returnRest start c).Clean Stmt.diagnostics a := by
  have hk : ¬ c.isOneOf exprKinds = true := by
    intro hk
    exact hs (hc.startsWith (List.contains_iff_mem.1 hk) (by decide))
  unfold returnRest
  rw [if_neg hk]
  exact ⟨_, _, rfl, by simp [Stmt.diagnostics], hc⟩

theorem returnRest_clean_of_whole (hwhole : Whole a rest) (hs : Stops .default rest)
    (hc : c.Faces a) : (returnRest start c).Clean Stmt.diagnostics rest := by
  have hk : c.isOneOf exprKinds = true :=
    List.contains_iff_mem.2 (hc.kind_mem (ExprPhrase.startsWith hwhole (by simp)))
  obtain ⟨e, r, hexpr, he, hr⟩ := hwhole.read hs hc
  unfold returnRest
  rw [if_pos hk, hexpr]
  exact ⟨_, _, rfl, by simp [Stmt.diagnostics, he], hr⟩

/-- A body is read without a diagnostic, in front of `rest`. -/
structure BodyRead.Clean (b : BodyRead) (rest : List Token) : Prop where
  braces : b.errors = []
  body : Stmt.diagnosticsOfAll b.body = []
  rest : b.rest.Faces rest

theorem forRest_clean {e g : List Token} (hopen : Mark .leftParen a b)
    (hname : Mark .identifier b b') (hin : Mark .kwIn b' d) (hwhole : Whole d e)
    (hclose : Mark .rightParen e g) (hbody : ∀ c, c.Faces g → (body f c).Clean rest)
    (hc : c.Faces a) : (forRest f start c).Clean Stmt.diagnostics rest := by
  obtain ⟨hlp, hb⟩ := hc.expect_of_mark hopen
  obtain ⟨hne, hb'⟩ := hb.expect_of_mark hname
  obtain ⟨hie, hd⟩ := hb'.expect_of_mark hin
  obtain ⟨x, r, hexpr, he, hr⟩ := hwhole.read (hclose.stops (by decide)) hd
  obtain ⟨hrp, hg⟩ := hr.expect_of_mark hclose
  have hclean := hbody _ hg
  rw [forRest_eq]
  dsimp only
  rw [hexpr]
  refine ⟨_, _, rfl, ?_, hclean.rest⟩
  simp [Stmt.diagnostics, hlp, hne, hie, hrp, he, hclean.braces, hclean.body]

theorem header_clean {e g : List Token} (hname : Mark .identifier a b)
    (hopen : Mark .leftParen b b') (hps : Parameters b' d) (hclose : Mark .rightParen d e)
    (hty : Annotation e g) (hbrace : StartsWith [.leftBrace] g) (hc : c.Faces a) :
    (header c).errors = [] ∧ (header c).header.diagnostics = [] ∧ (header c).rest.Faces g := by
  obtain ⟨hne, hb⟩ := hc.expect_of_mark hname
  obtain ⟨hlp, hb'⟩ := hb.expect_of_mark hopen
  obtain ⟨hpe, hd⟩ := hps.read (hclose.startsWith (by decide)) hb'
  obtain ⟨hrp, he⟩ := hd.expect_of_mark hclose
  have hnot : ¬ StartsWith [.less, .colon] g := by
    obtain ⟨t, tail, hg, ht⟩ := hbrace
    exact Mark.not_startsWith ⟨t, List.mem_singleton.1 ht, hg⟩ (by decide)
  obtain ⟨hte, hg⟩ := hty.read hnot he
  simp only [header, hne, hlp, hrp, Header.diagnostics, hpe, hte]
  exact ⟨rfl, rfl, hg⟩

theorem defineRest_clean (h : (header c).errors = [] ∧ (header c).header.diagnostics = [] ∧
      (header c).rest.Faces a) (hbody : ∀ c : Cursor, c.Faces a → (body true c).Clean rest) :
    (defineRest start c).Clean Stmt.diagnostics rest := by
  obtain ⟨herrors, htypes, ha⟩ := h
  have hclean := hbody _ ha
  rw [defineRest_eq]
  refine ⟨_, _, rfl, ?_, hclean.rest⟩
  simp [Stmt.diagnostics, herrors, htypes, hclean.braces, hclean.body]

/-- The test of a conditional and its first body. -/
theorem condRest_first {e : List Token} (hopen : Mark .leftParen a b) (hwhole : Whole b d)
    (hclose : Mark .rightParen d b') (hbody : ∀ c, c.Faces b' → (body f c).Clean e)
    (hc : c.Faces a) :
    ∃ x r, expr (c.expect .leftParen).rest = .ok x r ∧ x.diagnostics = [] ∧
      (c.expect .leftParen).errors = [] ∧ (r.expect .rightParen).errors = [] ∧
      (body f (r.expect .rightParen).rest).Clean e := by
  obtain ⟨hlp, hb⟩ := hc.expect_of_mark hopen
  obtain ⟨x, r, hexpr, he, hr⟩ := hwhole.read (hclose.stops (by decide)) hb
  obtain ⟨hrp, hb'⟩ := hr.expect_of_mark hclose
  exact ⟨x, r, hexpr, he, hlp, hrp, hbody _ hb'⟩

theorem condRest_clean (hopen : Mark .leftParen a b) (hwhole : Whole b d)
    (hclose : Mark .rightParen d b') (hbody : ∀ c, c.Faces b' → (body f c).Clean rest)
    (hrest : ¬ StartsWith [.kwElse] rest) (hc : c.Faces a) :
    (condRest f start c).Clean Stmt.diagnostics rest := by
  obtain ⟨x, r, hexpr, he, hlp, hrp, hyes⟩ := condRest_first hopen hwhole hclose hbody hc
  rw [condRest_eq]
  simp only [hexpr, Outcome.bind_ok, hyes.rest.accept?_eq_none hrest (by decide)]
  refine ⟨_, _, rfl, ?_, hyes.rest⟩
  simp [Stmt.diagnostics, hlp, hrp, he, hyes.braces, hyes.body]

theorem condRest_clean_of_elseBody {e g : List Token} (hopen : Mark .leftParen a b)
    (hwhole : Whole b d) (hclose : Mark .rightParen d b')
    (hbody : ∀ c, c.Faces b' → (body f c).Clean e) (helse : Mark .kwElse e g)
    (hbrace : StartsWith [.leftBrace] g) (hno : ∀ c, c.Faces g → (body f c).Clean rest)
    (hc : c.Faces a) : (condRest f start c).Clean Stmt.diagnostics rest := by
  obtain ⟨x, r, hexpr, he, hlp, hrp, hyes⟩ := condRest_first hopen hwhole hclose hbody hc
  obtain ⟨d', hd', hg⟩ := hyes.rest.accept?_of_mark helse
  have hif : ¬ d'.kind = .kwIf := by
    rw [List.mem_singleton.1 (hg.kind_mem hbrace)]
    decide
  have hclean := hno _ hg
  rw [condRest_eq]
  simp only [hexpr, Outcome.bind_ok, hd', if_neg hif]
  refine ⟨_, _, rfl, ?_, hclean.rest⟩
  simp [Stmt.diagnostics, hlp, hrp, he, hyes.braces, hyes.body, hclean.braces, hclean.body]

theorem condRest_clean_of_elseCond {e g : List Token} (hopen : Mark .leftParen a b)
    (hwhole : Whole b d) (hclose : Mark .rightParen d b')
    (hbody : ∀ c, c.Faces b' → (body f c).Clean e) (helse : Mark .kwElse e g)
    (hif : StartsWith [.kwIf] g)
    (hno : ∀ c : Cursor, c.Faces g → (stmtRest f c.current c.advance).Clean Stmt.diagnostics rest)
    (hc : c.Faces a) : (condRest f start c).Clean Stmt.diagnostics rest := by
  obtain ⟨x, r, hexpr, he, hlp, hrp, hyes⟩ := condRest_first hopen hwhole hclose hbody hc
  obtain ⟨d', hd', hg⟩ := hyes.rest.accept?_of_mark helse
  have hkind := List.mem_singleton.1 (hg.kind_mem hif)
  obtain ⟨s, r', hs, hd, hr'⟩ := hno _ hg
  have hstmt : stmt f d' = (s, r') := by rw [stmt, hs]; rfl
  rw [condRest_eq]
  simp only [hexpr, Outcome.bind_ok, hd', if_pos hkind, hstmt]
  refine ⟨_, _, rfl, ?_, hr'⟩
  simp [Stmt.diagnostics, Stmt.diagnosticsOfAll, hlp, hrp, he, hyes.braces, hyes.body, hd]

end

/-- What reading makes of a phrase. -/
def StmtPhrase.Read (f : Bool) (ts rest : List Token) : StmtPhrase.Symbol → Prop
  | .stmt | .conditional => Followed rest → ∀ c : Cursor, c.Faces ts →
    (stmtRest f c.current c.advance).Clean Stmt.diagnostics rest
  | .body => ∀ c : Cursor, c.Faces ts → (Grammar.body f c).Clean rest
  | .stmts => rest = [] ∨ StartsWith [.rightBrace] rest → ∀ c : Cursor, c.Faces ts →
    Stmt.diagnosticsOfAll (block f c).1 = [] ∧ (block f c).2.Faces rest

theorem StmtPhrase.startsWith_body {f : Bool} {a b : List Token} (h : StmtPhrase .body f a b) :
    StartsWith [.leftBrace] a := by
  cases h with
  | body hopen => exact hopen.startsWith (by decide)

theorem StmtPhrase.startsWith_conditional {f : Bool} {a b : List Token}
    (h : StmtPhrase .conditional f a b) : StartsWith [.kwIf] a := by
  cases h with
  | cond hif | elseCond hif | elseBody hif => exact hif.startsWith (by decide)

/-- Statements up to the end of their body stand behind a statement. -/
theorem StmtPhrase.followed {f : Bool} {a b : List Token} (h : StmtPhrase .stmts f a b)
    (hb : b = [] ∨ StartsWith [.rightBrace] b) : Followed a := by
  cases h with
  | none => exact hb.imp id fun hs => hs.mono (by decide)
  | more hs => exact .inr ((hs.startsWith (.inl rfl)).mono (by decide))

theorem Followed.not_else {ts : List Token} (h : Followed ts) : ¬ StartsWith [.kwElse] ts := by
  rintro ⟨t, rest, rfl, ht⟩
  rcases h with he | ⟨u, tail, he, hu⟩
  · cases he
  · cases he
    rw [List.mem_singleton.1 ht] at hu
    revert hu
    decide

/-- Every phrase of the grammar of statements is read to its end. -/
theorem StmtPhrase.read {S : StmtPhrase.Symbol} {f : Bool} {ts rest : List Token}
    (h : StmtPhrase S f ts rest) : StmtPhrase.Read f ts rest S := by
  induction h with
  | print hk hopen hwhole hclose =>
    intro hf c hc
    rw [stmtRest_eq, hc.current_kind hk]
    exact printRest_clean hopen hwhole hclose (hc.advance_of_mark hk)
  | forEach hk hopen hname hin hwhole hclose _ ih =>
    intro hf c hc
    rw [stmtRest_eq, hc.current_kind hk]
    exact forRest_clean hopen hname hin hwhole hclose ih (hc.advance_of_mark hk)
  | conditional _ ih => exact ih
  | declare hk hname hty heq hwhole =>
    intro hf c hc
    rw [stmtRest_eq, hc.current_kind hk]
    exact declareRest_clean hname hty heq hwhole hf.stops (hc.advance_of_mark hk)
  | assign hk heq hwhole =>
    intro hf c hc
    rw [stmtRest_eq, hc.current_kind hk]
    exact nameRest_clean_of_equal heq hwhole hf.stops (hc.advance_of_mark hk)
  | call hk hopen hargs hclose =>
    intro hf c hc
    rw [stmtRest_eq, hc.current_kind hk]
    exact nameRest_clean_of_paren hopen hargs hclose (hc.advance_of_mark hk)
  | define hk hname hopen hps hclose hty hbody ih =>
    intro hf c hc
    rw [stmtRest_eq, hc.current_kind hk]
    exact defineRest_clean (header_clean hname hopen hps hclose hty hbody.startsWith_body
      (hc.advance_of_mark hk)) ih
  | ret hk hs =>
    intro hf c hc
    rw [stmtRest_eq, hc.current_kind hk]
    exact returnRest_clean hs (hc.advance_of_mark hk)
  | retWith hk hwhole =>
    intro hf c hc
    rw [stmtRest_eq, hc.current_kind hk]
    exact returnRest_clean_of_whole hwhole hf.stops (hc.advance_of_mark hk)
  | cond hk hopen hwhole hclose _ ih =>
    intro hf c hc
    rw [stmtRest_eq, hc.current_kind hk]
    exact condRest_clean hopen hwhole hclose ih hf.not_else (hc.advance_of_mark hk)
  | elseCond hk hopen hwhole hclose _ helse hno ih ih' =>
    intro hf c hc
    rw [stmtRest_eq, hc.current_kind hk]
    exact condRest_clean_of_elseCond hopen hwhole hclose ih helse hno.startsWith_conditional
      (ih' hf) (hc.advance_of_mark hk)
  | elseBody hk hopen hwhole hclose _ helse hno ih ih' =>
    intro hf c hc
    rw [stmtRest_eq, hc.current_kind hk]
    exact condRest_clean_of_elseBody hopen hwhole hclose ih helse hno.startsWith_body ih'
      (hc.advance_of_mark hk)
  | body hopen _ hclose ih =>
    intro c hc
    obtain ⟨hlb, hb⟩ := hc.expect_of_mark hopen
    obtain ⟨hs, hd⟩ := ih (.inr (hclose.startsWith (by decide))) _ hb
    obtain ⟨hrb, hr⟩ := hd.expectOr_of_mark hclose .unterminatedBody
    rw [body_eq]
    exact ⟨by simp [hlb, hrb], hs, hr⟩
  | none a =>
    intro ha c hc
    have hk : c.kind = .eof ∨ c.kind = .rightBrace := by
      rcases ha with rfl | ha
      · exact .inl hc.kind_nil
      · exact .inr (List.mem_singleton.1 (hc.kind_mem ha))
    rw [block_eq, if_pos hk]
    exact ⟨rfl, hc⟩
  | @more f _ _ _ hs hss ih ih' =>
    intro hb c hc
    have hk : ¬ (c.kind = .eof ∨ c.kind = .rightBrace) := by
      have hmem := hc.kind_mem (hs.startsWith (.inl rfl))
      rintro (hk | hk) <;> (rw [hk] at hmem; revert hmem; decide)
    obtain ⟨s, r, hread, hd, hr⟩ := ih (hss.followed hb) c hc
    have hstmt : stmt f c = (s, r) := by rw [stmt, hread]; rfl
    obtain ⟨hds, hr'⟩ := ih' hb r hr
    rw [block_eq, if_neg hk, hstmt]
    exact ⟨by simp [Stmt.diagnosticsOfAll, hd, hds], hr'⟩

/-! ## Programs -/

/-- Statements that come to the end of the stream do not stop at a `}`. -/
theorem statements_eq_block (c : Cursor) (h : (block false c).2.kind = .eof) :
    statements c = block false c := by
  fun_induction statements c with
  | case1 c hk => rw [block_eq, if_pos (.inl hk)]
  | case2 c hk s more ih =>
    have hbrace : ¬ c.kind = .rightBrace := by
      intro hb
      rw [block_eq, if_pos (.inr hb)] at h
      exact hk h
    have hblock : block false c = (s.1 :: (block false s.2).1, (block false s.2).2) := by
      rw [block_eq, if_neg (not_or.2 ⟨hk, hbrace⟩)]
    rw [hblock] at h ⊢
    show (s.1 :: (statements s.2).1, (statements s.2).2) = _
    rw [ih h]

theorem statements_clean {ts : List Token} (h : StmtPhrase .stmts false ts []) {c : Cursor}
    (hc : c.Faces ts) : Stmt.diagnosticsOfAll (statements c).1 = [] := by
  obtain ⟨hd, hr⟩ := h.read (.inl rfl) c hc
  rw [statements_eq_block c hr.kind_nil]
  exact hd

theorem primary_failed {c : Cursor} (h : c.kind ∉ exprKinds) : primary c = .failed c := by
  rw [primary_eq]
  split
  case h_9 => rfl
  all_goals
    next hk =>
      rw [hk] at h
      exact absurd (by decide) h

/-- No expression starts with a token that cannot start one. -/
theorem expr_failed {c : Cursor} (h : c.kind ∉ exprKinds) : expr c = .failed c := by
  have hop : UnaryOp.ofKind? c.kind = none := by
    unfold UnaryOp.ofKind?
    split
    · next hk => rw [hk] at h; exact absurd (by decide) h
    · next hk => rw [hk] at h; exact absurd (by decide) h
    · rfl
  have hunary : binary .unary c = .failed c := by
    rw [binary_of_not_isBinary rfl, unary_eq, hop, primary_failed h]
  have hstep : ∀ l : Level, l.isBinary = true → binary l.tighter c = .failed c →
      binary l c = .failed c := by
    intro l hl hb
    rw [binary_of_isBinary hl, hb]
    rfl
  have hmul := hstep .multiplicative rfl hunary
  have hadd := hstep .additive rfl hmul
  exact hstep .equality rfl (hstep .relational rfl hadd)

theorem kind_of_expr {c r : Cursor} {e : Expr} (h : expr c = .ok e r) : c.kind ∈ exprKinds := by
  refine Decidable.byContradiction fun hk => ?_
  rw [expr_failed hk] at h
  cases h

theorem Whole.of_primary {a b : List Token} (h : ExprPhrase (.level .primary) a b) : Whole a b :=
  .operand rfl (.operand rfl (.operand rfl (.operand rfl (.primary h))))

/-- Where statements start and an expression can start as well, one is read without a diagnostic: the
name of an assignment or a call. -/
theorem expr_of_stmts {ts : List Token} (h : StmtPhrase .stmts false ts []) {c : Cursor}
    (hc : c.Faces ts) (hk : c.kind ∈ exprKinds) : ∃ e r, expr c = .ok e r ∧ e.diagnostics = [] := by
  have hread : ∀ {rest : List Token}, ExprPhrase (.level .primary) ts rest →
      Stops .default rest → ∃ e r, expr c = .ok e r ∧ e.diagnostics = [] := by
    intro rest hp hs
    obtain ⟨e, r, he, hd, -⟩ := (Whole.of_primary hp).read hs hc
    exact ⟨e, r, he, hd⟩
  have hkey : ∀ {k : Kind} {b : List Token}, Mark k ts b → k ∉ exprKinds → False := by
    intro k b hm hkind
    rw [hc.kind_of_mark hm] at hk
    exact hkind hk
  cases h with
  | none =>
    rw [hc.kind_nil] at hk
    exact absurd hk (by decide)
  | more hs hss =>
    cases hs with
    | print hk | forEach hk | declare hk | define hk => exact (hkey hk (by decide)).elim
    | conditional hcond =>
      cases hcond with
      | cond hk | elseCond hk | elseBody hk => exact (hkey hk (by decide)).elim
    | assign hk heq => exact hread (.atom (by decide) hk) (heq.stops (by decide))
    | call hk hopen hargs hclose =>
      exact hread (.call hk hopen hargs hclose) (hss.followed (.inl rfl)).stops

/-- A sentence is read without a diagnostic. -/
theorem read_of_sentence {c : Cursor} {ts : List Token} (hc : c.Faces ts) (h : Sentence ts) :
    (Program.read c).1.diagnostics = [] := by
  rcases h with hwhole | hstmts
  · obtain ⟨e, r, he, hd, hr⟩ := hwhole.read (by intro t rest h; cases h) hc
    have hmore : ¬ r.hasMore = true := fun hm => hr.hasMore.1 hm rfl
    unfold Program.read
    rw [he]
    simp only [if_neg hmore]
    exact hd
  · have hs := statements_clean hstmts hc
    unfold Program.read
    split
    · next e r he =>
      split
      · exact hs
      · obtain ⟨e', r', he', hd⟩ := expr_of_stmts hstmts hc (kind_of_expr he)
        cases he.symm.trans he'
        exact hd
    · exact hs

end Grammar

/-- Reading a text gives no diagnostics if and only if its tokens up to the end are a sentence. -/
theorem Program.parse_diagnostics_eq_nil_iff (source file : String) :
    (Program.parse source file).diagnostics = [] ↔
      Grammar.Sentence ((Token.scan source file).filter fun t => t.kind ≠ .eof) := by
  have hc := Cursor.ofTokens_faces source file
  exact ⟨Grammar.sentence_of_read hc, Grammar.read_of_sentence hc⟩

end CatScript
