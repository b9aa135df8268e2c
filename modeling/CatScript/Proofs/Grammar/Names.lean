import CatScript.Proofs.Grammar.Movement

/-!
# Names of functions

An identifier is a non-empty run of letters, digits and underscores. A function that was read
without a diagnostic of its own is named by an identifier of the source, so its name holds
neither the `#` of a symbol nor the brackets of the main method's name.
-/
namespace CatScript

open Token (Kind)

/-- A non-empty run of letters, digits and underscores. -/
def IsWord (name : String) : Prop := name.toList ≠ [] ∧ ∀ c ∈ name.toList, Token.inWord c = true

/-! ## Identifiers of a source -/

namespace Token

theorem inWord_of_startsWord {c : Char} (h : startsWord c = true) : inWord c = true := by
  simp only [startsWord, inWord, Bool.or_eq_true] at h ⊢
  exact h.elim (fun h => .inl (.inl h)) .inr

theorem markKind?_ne_identifier (c : Char) : (markKind? c).getD .error ≠ .identifier := by
  unfold markKind?
  split <;> decide

theorem pairKind?_ne_identifier {c d : Char} {k : Kind} (h : pairKind? c d = some k) :
    k ≠ .identifier := by
  unfold pairKind? at h
  split at h <;> cases h <;> decide

theorem isWord_of_firstPiece {c : Char} {cs : List Char} {v : String}
    (h : (firstPiece c cs).token = some (.identifier, v)) : IsWord v := by
  unfold firstPiece at h
  split at h
  · next hc =>
    simp only [Option.some.injEq, Prod.mk.injEq] at h
    obtain ⟨-, rfl⟩ := h
    refine ⟨by simp, fun d hd => ?_⟩
    simp only [String.toList_ofList, List.mem_cons] at hd
    rcases hd with rfl | hd
    · exact inWord_of_startsWord hc
    · exact List.all_eq_true.1 List.all_takeWhile d hd
  split at h
  · simp [Piece.verbatim] at h
  split at h
  · cases h
  split at h
  · split at h <;> simp [Piece.verbatim] at h
  split at h
  · cases h
  · unfold markPiece at h
    split at h
    · simp only [Piece.verbatim, Option.some.injEq, Prod.mk.injEq] at h
      exact absurd h.1 (markKind?_ne_identifier c)
    · split at h
      · next hk =>
        simp only [Piece.verbatim, Option.some.injEq, Prod.mk.injEq] at h
        exact absurd h.1 (pairKind?_ne_identifier hk)
      · simp only [Piece.verbatim, Option.some.injEq, Prod.mk.injEq] at h
        exact absurd h.1 (markKind?_ne_identifier c)

/-- A token that is a word if it is an identifier. -/
def Spelled (t : Token) : Prop := t.kind = .identifier → IsWord t.value

theorem endAt_spelled (span : Span) : (endAt span).Spelled := by
  intro h; cases h

theorem scanFrom_spelled (file : String) (offset : Nat) (cs : List Char) :
    ∀ t ∈ scanFrom file offset cs, t.Spelled := by
  fun_induction scanFrom file offset cs with
  | case1 offset =>
    intro t ht
    rw [List.mem_singleton.1 ht]
    exact endAt_spelled _
  | case2 offset c cs piece next kind value hp ih =>
    intro t ht
    rcases List.mem_cons.1 ht with rfl | ht
    · intro hk
      simp only at hk
      subst hk
      exact isWord_of_firstPiece hp
    · exact ih t ht
  | case3 offset c cs piece next hp ih => exact ih

end Token

namespace Cursor

/-- A cursor in front of which every identifier is a word. -/
def Spelled (c : Cursor) : Prop := ∀ t ∈ c.current :: c.ahead, t.Spelled

theorem Spelled.advance {c : Cursor} (h : c.Spelled) : c.advance.Spelled := by
  unfold Cursor.advance
  split
  · exact h
  · split
    · next ha =>
      intro t ht
      simp only [ha, List.mem_singleton] at ht
      rw [ht]
      exact Token.endAt_spelled _
    · next ha =>
      intro t' ht
      exact h t' (by rw [ha]; exact List.mem_cons_of_mem _ ht)

theorem Spelled.split {c : Cursor} (h : c.Spelled) : (c.split .greater .equal).Spelled := by
  unfold Cursor.split
  split
  · exact h
  · split
    · exact h
    · split
      · exact h
      · intro t ht
        simp only [List.mem_cons] at ht
        rcases ht with rfl | rfl | ht
        · intro hk; cases hk
        · intro hk; cases hk
        · exact h t (List.mem_cons_of_mem _ ht)

theorem Leads.spelled {c d : Cursor} (h : Leads c d) (hc : c.Spelled) : d.Spelled := by
  induction h with
  | refl => exact hc
  | advance _ ih => exact ih.advance
  | split _ _ ih => exact ih.split

theorem ofTokens_spelled {ts : List Token} (h : ∀ t ∈ ts, t.Spelled) : (ofTokens ts).Spelled := by
  have ht : ∀ t ∈ terminated ts, t.Spelled := by
    unfold terminated
    intro t hm
    split at hm
    · rw [List.mem_singleton.1 hm]; exact Token.endAt_spelled _
    · split at hm
      · exact h t hm
      · rcases List.mem_append.1 hm with hm | hm
        · exact h t hm
        · rw [List.mem_singleton.1 hm]; exact Token.endAt_spelled _
  unfold ofTokens
  split
  · intro t hm
    rw [List.mem_singleton.1 hm]
    exact Token.endAt_spelled _
  · next hs =>
    rw [hs] at ht
    exact ht

end Cursor

/-! ## Statements -/

namespace Stmt

mutual

/-- Every function in the statement has a word for a name, or a diagnostic. -/
def Named : Stmt → Prop
  | define n h body => (n.errors = [] → IsWord h.name) ∧ NamedAll body
  | forEach _ _ _ body => NamedAll body
  | cond _ _ yes none => NamedAll yes
  | cond _ _ yes (some no) => NamedAll yes ∧ NamedAll no
  | _ => True

def NamedAll : List Stmt → Prop
  | [] => True
  | s :: ss => s.Named ∧ NamedAll ss

end

end Stmt

namespace Grammar

open Cursor

/-- An outcome behind `c` in which every function has a word for a name, or a diagnostic. -/
def Outcome.Names (c : Cursor) (o : Outcome Stmt) : Prop :=
  c.Leads o.rest ∧ ∀ s r, o = .ok s r → s.Named

theorem Outcome.Names.settle {c : Cursor} {o : Outcome Stmt} (h : o.Names c) :
    c.Leads (settle o).2 ∧ (settle o).1.Named := by
  refine ⟨settle_leads h.1, ?_⟩
  cases o with
  | ok s r => exact h.2 s r rfl
  | failed r => trivial

theorem header_named {c : Cursor} (h : c.Spelled) (he : (header c).errors = []) :
    IsWord (header c).header.name := by
  simp only [header, List.append_eq_nil_iff] at he
  have hn := he.1.1
  unfold Cursor.expect Cursor.expectOr at hn
  split at hn
  · next hk =>
    simp only [header, Cursor.expect, Cursor.expectOr, hk, if_true]
    exact h c.current (List.mem_cons_self ..) hk
  · cases hn

theorem printRest_names (start : Token) (c : Cursor) : (printRest start c).Names c := by
  refine ⟨printRest_leads start c, fun s r h => ?_⟩
  unfold printRest at h
  dsimp only at h
  cases he : expr (c.expect .leftParen).rest <;> rw [he] at h <;> cases h
  trivial

theorem declareRest_names (start : Token) (c : Cursor) : (declareRest start c).Names c := by
  refine ⟨declareRest_leads start c, fun s r h => ?_⟩
  unfold declareRest at h
  dsimp only at h
  cases he : expr ((declaredType (c.expect .identifier).rest).2.expect .equal).rest <;>
    rw [he] at h <;> cases h
  trivial

theorem nameRest_names (start : Token) (c : Cursor) : (nameRest start c).Names c := by
  refine ⟨nameRest_leads start c, fun s r h => ?_⟩
  unfold nameRest at h
  split at h
  · cases he : callRest start c.advance <;> rw [he] at h <;> cases h
    trivial
  · cases he : expr c.advance <;> rw [he] at h <;> cases h
    trivial
  · cases h; trivial

theorem returnRest_names (start : Token) (c : Cursor) : (returnRest start c).Names c := by
  refine ⟨returnRest_leads start c, fun s r h => ?_⟩
  unfold returnRest at h
  split at h
  · cases he : expr c <;> rw [he] at h <;> cases h
    trivial
  · cases h; trivial

mutual

theorem stmtRest_names (inFunction : Bool) (start : Token) (c : Cursor) (hc : c.Spelled) :
    (stmtRest inFunction start c).Names c := by
  rw [stmtRest_eq]
  split
  · exact printRest_names start c
  · exact declareRest_names start c
  · exact nameRest_names start c
  · exact forRest_names inFunction start c hc
  · exact condRest_names inFunction start c hc
  · exact defineRest_names start c hc
  · split
    · exact returnRest_names start c
    · exact ⟨.refl c, by rintro s r h; cases h; trivial⟩
  · exact ⟨.refl c, by rintro s r h; cases h; trivial⟩
termination_by 4 * c.weight + 3

theorem forRest_names (inFunction : Bool) (start : Token) (c : Cursor) (hc : c.Spelled) :
    (forRest inFunction start c).Names c := by
  rw [forRest_eq]
  dsimp only
  have h1 := ((Leads.expect c .leftParen).trans (.expect _ .identifier)).trans (.expect _ .kwIn)
  have hw1 := (c.weight_expect_le .leftParen)
  have hw2 := (c.expect .leftParen).rest.weight_expect_le .identifier
  have hw3 := ((c.expect .leftParen).rest.expect .identifier).rest.weight_expect_le .kwIn
  generalize (((c.expect .leftParen).rest.expect .identifier).rest.expect .kwIn).rest = d at *
  have h2 := h1.trans (expr_leads d)
  cases he : expr d with
  | failed r => rw [he] at h2; exact ⟨h2, by rintro s r h; cases h⟩
  | ok e r =>
    have hw4 := expr_ok_lt he
    have hw5 := r.weight_expect_le .rightParen
    rw [he] at h2
    have h3 := h2.trans (.expect r .rightParen)
    obtain ⟨h4, hb⟩ := body_names inFunction _ (h3.spelled hc)
    exact ⟨h3.trans h4, by rintro s r h; cases h; exact hb⟩
termination_by 4 * c.weight + 2

theorem condRest_names (inFunction : Bool) (start : Token) (c : Cursor) (hc : c.Spelled) :
    (condRest inFunction start c).Names c := by
  rw [condRest_eq]
  dsimp only
  have h1 := Leads.expect c .leftParen
  have hw1 := c.weight_expect_le .leftParen
  generalize (c.expect .leftParen).rest = d at *
  have h2 := h1.trans (expr_leads d)
  cases he : expr d with
  | failed r => rw [he] at h2; exact ⟨h2, by rintro s r h; cases h⟩
  | ok e r =>
    have hw2 := expr_ok_lt he
    have hw3 := r.weight_expect_le .rightParen
    rw [he] at h2
    have h3 := h2.trans (.expect r .rightParen)
    obtain ⟨h4, hyes⟩ := body_names inFunction _ (h3.spelled hc)
    have hw4 := weight_body_le inFunction (r.expect .rightParen).rest
    rw [Outcome.bind_ok]
    generalize body inFunction (r.expect .rightParen).rest = yes at *
    have h5 := h3.trans h4
    cases ha : yes.rest.accept? .kwElse with
    | none => exact ⟨h5, by rintro s r h; cases h; exact hyes⟩
    | some d =>
      have hw5 := Cursor.weight_accept?_lt (by decide) ha
      have hw6 := d.weight_advance_le
      have h6 := h5.trans (.accept? ha)
      dsimp only
      split
      · have h7 := h6.trans (.next d)
        obtain ⟨h8, hno⟩ := (stmtRest_names inFunction d.current d.advance (h7.spelled hc)).settle
        refine ⟨h7.trans h8, ?_⟩
        rintro s r h
        cases h
        exact ⟨hyes, hno, trivial⟩
      · obtain ⟨h7, hno⟩ := body_names inFunction d (h6.spelled hc)
        refine ⟨h6.trans h7, ?_⟩
        rintro s r h
        cases h
        exact ⟨hyes, hno⟩
termination_by 4 * c.weight + 2

theorem defineRest_names (start : Token) (c : Cursor) (hc : c.Spelled) :
    (defineRest start c).Names c := by
  rw [defineRest_eq]
  dsimp only
  have h1 := header_leads c
  have hw1 := weight_header_le c
  obtain ⟨h2, hb⟩ := body_names true _ (h1.spelled hc)
  refine ⟨h1.trans h2, ?_⟩
  rintro s r h
  cases h
  refine ⟨fun he => ?_, hb⟩
  exact header_named hc (List.append_eq_nil_iff.1 he).1
termination_by 4 * c.weight + 2

theorem body_names (inFunction : Bool) (c : Cursor) (hc : c.Spelled) :
    c.Leads (body inFunction c).rest ∧ Stmt.NamedAll (body inFunction c).body := by
  rw [body_eq]
  dsimp only
  have h1 := Leads.expect c .leftBrace
  have hw := c.weight_expect_le .leftBrace
  obtain ⟨h2, hb⟩ := block_names inFunction _ (h1.spelled hc)
  exact ⟨(h1.trans h2).trans (.expectOr ..), hb⟩
termination_by 4 * c.weight + 1

theorem block_names (inFunction : Bool) (c : Cursor) (hc : c.Spelled) :
    c.Leads (block inFunction c).2 ∧ Stmt.NamedAll (block inFunction c).1 := by
  rw [block_eq]
  split
  · exact ⟨.refl c, trivial⟩
  · next hk =>
    have hlt := c.weight_advance_lt fun e => hk (.inl e)
    have hw : (stmt inFunction c).2.weight < c.weight := weight_stmt_lt inFunction fun e => hk (.inl e)
    obtain ⟨h1, hs⟩ := (stmtRest_names inFunction c.current c.advance hc.advance).settle
    have h2 := (Leads.next c).trans h1
    obtain ⟨h3, hss⟩ := block_names inFunction (stmt inFunction c).2 (h2.spelled hc)
    exact ⟨h2.trans h3, hs, hss⟩
termination_by 4 * c.weight

end

theorem statements_named (c : Cursor) (hc : c.Spelled) : Stmt.NamedAll (statements c).1 := by
  fun_induction statements c with
  | case1 => trivial
  | case2 c hk s more ih =>
    obtain ⟨h1, hs⟩ := (stmtRest_names false c.current c.advance hc.advance).settle
    exact ⟨hs, ih (((Leads.next c).trans h1).spelled hc)⟩

end Grammar

/-- Every function of a source has a word for a name, or a diagnostic. -/
theorem Program.parse_named (source file : String) :
    Stmt.NamedAll (Program.parse source file).statements := by
  have hc : (Cursor.ofTokens (Token.scan source file)).Spelled :=
    Cursor.ofTokens_spelled (Token.scanFrom_spelled file 0 source.toList)
  unfold Program.parse Program.ofTokens Program.read
  have hs := Grammar.statements_named _ hc
  split
  · split
    · exact hs
    · trivial
  · exact hs

end CatScript
