import CatScript.Grammar.Program

/-!
# How reading moves the cursor

Reading passes tokens and splits a `>=` that closes a type name, and it moves the cursor in no
other way. So whatever both moves keep holds of the cursor behind everything that is read.
-/
namespace CatScript

open Token (Kind)

namespace Cursor

/-- `d` can be reached from `c` by passing tokens and splitting `>=`. -/
inductive Leads : Cursor → Cursor → Prop where
  | refl (c : Cursor) : Leads c c
  | advance {c d : Cursor} : Leads c d → Leads c d.advance
  | split {c d : Cursor} : Leads c d → d.kind = .greaterEqual → Leads c (d.split .greater .equal)

namespace Leads

variable {b c d : Cursor}

theorem trans (h : Leads b c) (h' : Leads c d) : Leads b d := by
  induction h' with
  | refl => exact h
  | advance _ ih => exact ih.advance
  | split _ hk ih => exact ih.split hk

theorem next (c : Cursor) : Leads c c.advance := (refl c).advance

theorem expectOr (c : Cursor) (k : Kind) (cause : Cause) : Leads c (c.expectOr k cause).rest := by
  unfold Cursor.expectOr
  split
  · exact next c
  · exact refl c

theorem expect (c : Cursor) (k : Kind) : Leads c (c.expect k).rest := expectOr c k _

theorem accept? {k : Kind} (h : c.accept? k = some d) : Leads c d := by
  unfold Cursor.accept? at h
  split at h
  · cases h; exact next c
  · cases h

end Leads

end Cursor

namespace Grammar

open Cursor

/-! ## Type names -/

theorem splitGreater_leads (c : Cursor) : c.Leads (splitGreater c) := by
  unfold splitGreater
  split
  · next h => exact (Leads.refl c).split h
  · exact .refl c

theorem typeNameWithin_leads (c : Cursor) : c.Leads (typeNameWithin c).1.2 := by
  fun_induction typeNameWithin c with
  | case1 | case3 | case4 => exact .next _
  | case2 c name hk hlt hn d hd hw element r h he closed ih =>
    rw [he] at ih
    exact (((Leads.next c).trans (.accept? hd)).trans ih).trans
      ((splitGreater_leads r).trans (.expect _ .greater))
  | case5 => exact .refl _

theorem typeName_leads (c : Cursor) : c.Leads (typeName c).2 := typeNameWithin_leads c

theorem declaredType_leads (c : Cursor) : c.Leads (declaredType c).2 := by
  unfold declaredType
  split
  · exact .refl c
  · next d h => exact (Leads.accept? h).trans (typeName_leads d)

/-! ## Expressions -/

theorem binary_below (level : Level) (c : Cursor) : (binary level c).Below c :=
  (binaryBelow level c).2

private theorem Outcome.Below.lt {α : Type} {o : Outcome α} {c r : Cursor} {a : α}
    (h : o.Below c) (ho : o = .ok a r) : r.weight < c.weight := by
  subst ho; exact h

mutual

theorem binary_leads (level : Level) (c : Cursor) : c.Leads (binary level c).rest := by
  by_cases hl : level.isBinary = true
  · have ht := binary_leads level.tighter c
    rw [binary_of_isBinary hl]
    cases hb : binary level.tighter c with
    | failed r => rw [hb] at ht; exact ht
    | ok left r =>
      have hw := (binary_below level.tighter c).lt hb
      rw [hb] at ht
      exact ht.trans (chain_leads level left r)
  · rw [binary_of_not_isBinary (by simpa using hl)]
    exact unary_leads c
termination_by 16 * c.weight + level.height + 3
decreasing_by
  · have := Level.height_tighter hl; omega
  · have := Level.height_le level; omega
  · omega

theorem chain_leads (level : Level) (left : Expr) (c : Cursor) :
    c.Leads (chain level left c).rest := by
  rw [chain_eq]
  cases hop : operatorAt? level c with
  | none => exact .refl c
  | some op =>
    have hlt := c.weight_advance_lt (kind_ne_eof_of_operatorAt? hop)
    have hr := binary_leads level.tighter c.advance
    dsimp only
    cases hb : binary level.tighter c.advance with
    | failed r => rw [hb] at hr; exact (Leads.next c).trans hr
    | ok right r =>
      have hw := (binary_below level.tighter c.advance).lt hb
      rw [hb] at hr
      exact ((Leads.next c).trans hr).trans (chain_leads level (binaryNode op left right) r)
termination_by 16 * c.weight
decreasing_by
  · have := Level.height_le level.tighter; omega
  · omega

theorem unary_leads (c : Cursor) : c.Leads (unary c).rest := by
  rw [unary_eq]
  cases hop : UnaryOp.ofKind? c.kind with
  | none => exact primary_leads c
  | some op =>
    have hlt := c.weight_advance_lt (kind_ne_eof_of_unaryOp hop)
    have ho := unary_leads c.advance
    dsimp only
    cases hu : unary c.advance <;> rw [hu] at ho <;> exact (Leads.next c).trans ho
termination_by 16 * c.weight + 2

theorem primary_leads (c : Cursor) : c.Leads (primary c).rest := by
  by_cases hk : c.kind = .eof
  · rw [primary_eq, hk]; exact .refl c
  have hlt := c.weight_advance_lt hk
  have hlt2 := Nat.lt_of_le_of_lt c.advance.weight_advance_le hlt
  rw [primary_eq]
  split
  · exact .next c
  · exact .next c
  · exact .next c
  · exact .next c
  · exact .next c
  · split
    · exact (Leads.next c).advance.trans (callRest_leads c.current c.advance.advance)
    · exact .next c
  · exact (Leads.next c).trans (listRest_leads c.current c.advance)
  · exact (Leads.next c).trans (groupRest_leads c.current c.advance)
  · exact .refl c
termination_by 16 * c.weight + 1

theorem callRest_leads (name : Token) (c : Cursor) : c.Leads (callRest name c).rest := by
  have hi := items_leads .rightParen c
  rw [callRest_eq]
  cases h : items .rightParen c with
  | failed r => rw [h] at hi; exact hi
  | ok args r => rw [h] at hi; exact hi.trans (.expectOr r .rightParen _)
termination_by 16 * c.weight + 12

theorem listRest_leads (opening : Token) (c : Cursor) : c.Leads (listRest opening c).rest := by
  have hi := items_leads .rightBracket c
  rw [listRest_eq]
  cases h : items .rightBracket c with
  | failed r => rw [h] at hi; exact hi
  | ok es r => rw [h] at hi; exact hi.trans (.expectOr r .rightBracket _)
termination_by 16 * c.weight + 12

theorem groupRest_leads (opening : Token) (c : Cursor) : c.Leads (groupRest opening c).rest := by
  have hi := binary_leads .equality c
  rw [groupRest_eq, expr]
  cases h : binary .equality c with
  | failed r => rw [h] at hi; exact hi
  | ok inner r => rw [h] at hi; exact hi.trans (.expectOr r .rightParen _)
termination_by 16 * c.weight + 12
decreasing_by simp only [Level.height]; omega

theorem items_leads (closing : Kind) (c : Cursor) : c.Leads (items closing c).rest := by
  rw [items_eq]
  split
  · exact .refl c
  · exact seq_leads c
termination_by 16 * c.weight + 11

theorem seq_leads (c : Cursor) : c.Leads (seq c).rest := by
  have hb := binary_leads .equality c
  rw [seq_eq, expr]
  cases h : binary .equality c with
  | failed r => rw [h] at hb; exact hb
  | ok e r =>
    have hw := (binary_below .equality c).lt h
    rw [h] at hb
    simp only [Outcome.bind_ok]
    cases hc : r.accept? .comma with
    | none => exact hb
    | some d =>
      have hd := Cursor.weight_accept?_lt (by decide) hc
      have hs := seq_leads d
      dsimp only
      cases hs' : seq d <;> rw [hs'] at hs <;> exact (hb.trans (.accept? hc)).trans hs
termination_by 16 * c.weight + 10
decreasing_by
  · simp only [Level.height]; omega
  · omega

end

theorem expr_leads (c : Cursor) : c.Leads (expr c).rest := binary_leads .equality c

/-! ## Statements -/

theorem resume_leads (c : Cursor) : c.Leads (resume c) := by
  fun_induction resume c with
  | case1 => exact .refl _
  | case2 c _ ih => exact (Leads.next c).trans ih

theorem settle_leads {o : Outcome Stmt} {c : Cursor} (h : c.Leads o.rest) :
    c.Leads (settle o).2 := by
  cases o with
  | ok s r => exact h
  | failed r => exact h.trans (resume_leads r)

theorem printRest_leads (start : Token) (c : Cursor) : c.Leads (printRest start c).rest := by
  have h := (Leads.expect c .leftParen).trans (expr_leads _)
  unfold printRest
  dsimp only
  cases he : expr (c.expect .leftParen).rest with
  | failed r => rw [he] at h; exact h
  | ok value r => rw [he] at h; exact h.trans (.expect r .rightParen)

theorem declareRest_leads (start : Token) (c : Cursor) : c.Leads (declareRest start c).rest := by
  have h := ((Leads.expect c .identifier).trans (declaredType_leads _)).trans
    ((Leads.expect _ .equal).trans (expr_leads _))
  unfold declareRest
  dsimp only
  cases he : expr ((declaredType (c.expect .identifier).rest).2.expect .equal).rest <;>
    rw [he] at h <;> exact h

theorem nameRest_leads (start : Token) (c : Cursor) : c.Leads (nameRest start c).rest := by
  unfold nameRest
  split
  · have h := (Leads.next c).trans (callRest_leads start c.advance)
    cases he : callRest start c.advance <;> rw [he] at h <;> exact h
  · have h := (Leads.next c).trans (expr_leads c.advance)
    cases he : expr c.advance <;> rw [he] at h <;> exact h
  · exact .refl c

theorem returnRest_leads (start : Token) (c : Cursor) : c.Leads (returnRest start c).rest := by
  unfold returnRest
  split
  · have h := expr_leads c
    cases he : expr c <;> rw [he] at h <;> exact h
  · exact .refl c

theorem params_leads (c : Cursor) : c.Leads (params c).2 := by
  fun_induction params c with
  | case1 c h ty hc => exact (Leads.next c).trans (declaredType_leads _)
  | case2 c h ty d hc more ih =>
    exact (((Leads.next c).trans (declaredType_leads _)).trans (.accept? hc)).trans ih
  | case3 c => exact .refl c

theorem header_leads (c : Cursor) : c.Leads (header c).rest := by
  have h1 := (Leads.expect c .identifier).trans (.expect _ .leftParen)
  have h2 := (h1.trans (params_leads _)).trans (.expect _ .rightParen)
  exact h2.trans (declaredType_leads _)

/-! ## Statements with a body -/

mutual

theorem stmtRest_leads (inFunction : Bool) (start : Token) (c : Cursor) :
    c.Leads (stmtRest inFunction start c).rest := by
  rw [stmtRest_eq]
  split
  · exact printRest_leads start c
  · exact declareRest_leads start c
  · exact nameRest_leads start c
  · exact forRest_leads inFunction start c
  · exact condRest_leads inFunction start c
  · exact defineRest_leads start c
  · split
    · exact returnRest_leads start c
    · exact .refl c
  · exact .refl c
termination_by 4 * c.weight + 3

theorem forRest_leads (inFunction : Bool) (start : Token) (c : Cursor) :
    c.Leads (forRest inFunction start c).rest := by
  have hlp := c.weight_expect_le .leftParen
  have hname := (c.expect .leftParen).rest.weight_expect_le .identifier
  have hkw := ((c.expect .leftParen).rest.expect .identifier).rest.weight_expect_le .kwIn
  have h := (Leads.expect c .leftParen).trans ((Leads.expect _ .identifier).trans
    ((Leads.expect _ .kwIn).trans (expr_leads _)))
  rw [forRest_eq]
  dsimp only
  cases he : expr (((c.expect .leftParen).rest.expect .identifier).rest.expect .kwIn).rest with
  | failed r => rw [he] at h; exact h
  | ok iterable r =>
    have hr := expr_ok_lt he
    have hrp := r.weight_expect_le .rightParen
    rw [he] at h
    exact (h.trans (.expect r .rightParen)).trans (body_leads inFunction _)
termination_by 4 * c.weight + 2

theorem condRest_leads (inFunction : Bool) (start : Token) (c : Cursor) :
    c.Leads (condRest inFunction start c).rest := by
  have hlp := c.weight_expect_le .leftParen
  have h := (Leads.expect c .leftParen).trans (expr_leads _)
  rw [condRest_eq]
  dsimp only
  cases he : expr (c.expect .leftParen).rest with
  | failed r => rw [he] at h; exact h
  | ok test r =>
    have hr := expr_ok_lt he
    have hrp := r.weight_expect_le .rightParen
    have hyes := weight_body_le inFunction (r.expect .rightParen).rest
    rw [he] at h
    have hbody := (h.trans (.expect r .rightParen)).trans (body_leads inFunction _)
    dsimp only [Outcome.bind_ok]
    split
    · exact hbody
    · next d hd =>
      have hlt := Cursor.weight_accept?_lt (by decide) hd
      have hle := d.weight_advance_le
      have helse := hbody.trans (.accept? hd)
      split
      · exact helse.trans ((Leads.next d).trans
          (settle_leads (stmtRest_leads inFunction d.current d.advance)))
      · exact helse.trans (body_leads inFunction d)
termination_by 4 * c.weight + 2

theorem defineRest_leads (start : Token) (c : Cursor) : c.Leads (defineRest start c).rest := by
  have hh := weight_header_le c
  rw [defineRest_eq]
  exact (header_leads c).trans (body_leads true _)
termination_by 4 * c.weight + 2

theorem body_leads (inFunction : Bool) (c : Cursor) : c.Leads (body inFunction c).rest := by
  have hlb := c.weight_expect_le .leftBrace
  rw [body_eq]
  exact ((Leads.expect c .leftBrace).trans (block_leads inFunction _)).trans
    (.expectOr _ .rightBrace _)
termination_by 4 * c.weight + 1

theorem block_leads (inFunction : Bool) (c : Cursor) : c.Leads (block inFunction c).2 := by
  rw [block_eq]
  split
  · exact .refl c
  · next hk =>
    have hlt := c.weight_advance_lt fun e => hk (.inl e)
    have hs := weight_stmt_lt inFunction fun e => hk (.inl e)
    exact ((Leads.next c).trans (settle_leads (stmtRest_leads inFunction c.current c.advance))).trans
      (block_leads inFunction _)
termination_by 4 * c.weight

end

/-- A statement is read behind the token it starts with. -/
theorem stmt_leads (inFunction : Bool) (c : Cursor) : c.advance.Leads (stmt inFunction c).2 :=
  settle_leads (stmtRest_leads inFunction c.current c.advance)

theorem statements_leads (c : Cursor) : c.Leads (statements c).2 := by
  fun_induction statements c with
  | case1 => exact .refl _
  | case2 c h s more ih => exact ((Leads.next c).trans (stmt_leads false c)).trans ih

/-! ## Programs -/

theorem read_leads (c : Cursor) : c.Leads (Program.read c).2 := by
  have h := expr_leads c
  unfold Program.read
  split
  · next e rest he =>
    rw [he] at h
    split
    · exact statements_leads c
    · exact h
  · exact statements_leads c

end Grammar

end CatScript
