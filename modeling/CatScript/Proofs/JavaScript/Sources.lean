import CatScript.Proofs.Grammar.Accepted
import CatScript.Proofs.JavaScript.ReadBack
import CatScript.Proofs.Typing.Annotations

/-!
# Programs of a source are plain

A name that was asked for and found is a name of the source, and the expressions of a source are
plain. So all names of a program that was read without a diagnostic are names, and all of its
expressions are plain. The proofs follow the readers, with the same measure; what they carry is that
the cursor is led to from the start of the source.

Results:
* `Program.parse_plain`: a program that was read without a diagnostic is plain.
* `Program.plain_bare`: whether a program is plain does not depend on its annotations.
-/
namespace CatScript

open Token (Kind)

/-! ## Plain programs -/

namespace Stmt

mutual

/-- The names in the statement are names, and its expressions are plain. -/
def Plain : Stmt → Prop
  | print _ e | call _ e | ret _ (some e) => e.Plain
  | forEach _ x e body => IsName x ∧ e.Plain ∧ PlainAll body
  | cond _ e yes none => e.Plain ∧ PlainAll yes
  | cond _ e yes (some no) => e.Plain ∧ PlainAll yes ∧ PlainAll no
  | declare _ x _ e | assign _ x e => IsName x ∧ e.Plain
  | define _ h body => (IsName h.name ∧ ∀ p ∈ h.params, IsName p.name) ∧ PlainAll body
  | ret _ none | invalid _ _ => True

def PlainAll : List Stmt → Prop
  | [] => True
  | s :: ss => s.Plain ∧ PlainAll ss

end

end Stmt

def Program.Plain (p : Program) : Prop :=
  match p.body with
  | .expression e => e.Plain
  | .statements ss => Stmt.PlainAll ss

/-! ## Annotations -/

namespace Expr

mutual

theorem plain_bare : (e : Expr) → e.bare.Plain ↔ e.Plain
  | int _ _ | str _ _ | bool _ _ | null _ | var _ _ => .rfl
  | unary _ _ e | paren _ e => plain_bare e
  | binary _ _ l r => and_congr (plain_bare l) (plain_bare r)
  | list _ es => plainAll_bareOfAll es
  | call _ _ es _ => and_congr .rfl (plainAll_bareOfAll es)

theorem plainAll_bareOfAll : (es : List Expr) → PlainAll (bareOfAll es) ↔ PlainAll es
  | [] => .rfl
  | e :: es => and_congr (plain_bare e) (plainAll_bareOfAll es)

end

end Expr

namespace Stmt

mutual

theorem plain_bare : (s : Stmt) → s.bare.Plain ↔ s.Plain
  | print _ e | call _ e | ret _ (some e) => e.plain_bare
  | forEach _ _ e body => and_congr .rfl (and_congr e.plain_bare (plainAll_bareOfAll body))
  | cond _ e yes none => and_congr e.plain_bare (plainAll_bareOfAll yes)
  | cond _ e yes (some no) =>
    and_congr e.plain_bare (and_congr (plainAll_bareOfAll yes) (plainAll_bareOfAll no))
  | declare _ _ _ e | assign _ _ e => and_congr .rfl e.plain_bare
  | define _ h body => by
    refine and_congr (and_congr .rfl ?_) (plainAll_bareOfAll body)
    simp only [Header.bare, List.mem_map, forall_exists_index, and_imp,
      forall_apply_eq_imp_iff₂, Param.bare]
  | ret _ none | invalid _ _ => .rfl

theorem plainAll_bareOfAll : (ss : List Stmt) → PlainAll (bareOfAll ss) ↔ PlainAll ss
  | [] => .rfl
  | s :: ss => and_congr (plain_bare s) (plainAll_bareOfAll ss)

end

end Stmt

theorem Program.plain_bare (p : Program) : p.bare.Plain ↔ p.Plain := by
  obtain ⟨body, span⟩ := p
  cases body with
  | expression e => exact e.plain_bare
  | statements ss => exact Stmt.plainAll_bareOfAll ss

/-! ## What is read -/

namespace Grammar

open Cursor

section

variable {source file : String} {f : Bool} {start : Token} {c r : Cursor} {s : Stmt}

theorem current_genuine (hc : (Cursor.ofTokens (Token.scan source file)).Leads c) :
    c.current.Genuine :=
  (toCome_genuine hc).2 _ (List.mem_cons_self ..)

/-- A name that was found where it was asked for. -/
theorem expect_name (hc : (Cursor.ofTokens (Token.scan source file)).Leads c)
    (he : (c.expect .identifier).errors = []) : IsName (c.expect .identifier).token.value := by
  unfold Cursor.expect Cursor.expectOr at he ⊢
  split at he
  · next hk =>
    rw [if_pos hk]
    exact (current_genuine hc).name hk
  · cases he

theorem leads_of_expr {e : Expr} (ho : expr c = .ok e r) : c.Leads r := by
  have h := expr_leads c
  rwa [ho] at h

theorem expr_plain (hc : (Cursor.ofTokens (Token.scan source file)).Leads c) {e : Expr}
    (ho : expr c = .ok e r) : e.Plain := by
  obtain ⟨hended, hgenuine⟩ := toCome_genuine hc
  obtain ⟨ts, htake, hspell⟩ := expr_spelled hended ho
  refine hspell.spells.plain e fun t ht => hgenuine t ?_
  rw [htake.toCome]
  exact List.mem_append_left _ ht

theorem callRest_plain (hc : (Cursor.ofTokens (Token.scan source file)).Leads c) {e : Expr}
    (hstart : IsName start.value) (ho : callRest start c = .ok e r) : e.Plain := by
  rw [callRest_eq] at ho
  obtain ⟨args, d, hargs, ho⟩ := Outcome.bind_eq_ok.1 ho
  cases ho
  obtain ⟨hended, hgenuine⟩ := toCome_genuine hc
  obtain ⟨ts, htake, -, hspell⟩ := items_spelled hended hargs
  refine ⟨hstart, hspell.plain args fun t ht => hgenuine t ?_⟩
  rw [htake.toCome]
  exact List.mem_append_left _ ht

theorem params_plain (hc : (Cursor.ofTokens (Token.scan source file)).Leads c) :
    ∀ p ∈ (params c).1, IsName p.name := by
  fun_induction params c with
  | case1 c hk ty hd =>
    intro p hp
    rw [List.mem_singleton.1 hp]
    exact (current_genuine hc).name hk
  | case2 c hk ty d hd more ih =>
    have hrest := (hc.trans (.next c)).trans ((declaredType_leads _).trans (.accept? hd))
    exact List.forall_mem_cons.2 ⟨(current_genuine hc).name hk, ih hrest⟩
  | case3 => exact List.forall_mem_nil _

theorem header_plain (hc : (Cursor.ofTokens (Token.scan source file)).Leads c)
    (he : (header c).errors = []) :
    IsName (header c).header.name ∧ ∀ p ∈ (header c).header.params, IsName p.name := by
  simp only [header, List.append_eq_nil_iff] at he
  exact ⟨expect_name hc he.1.1,
    params_plain (hc.trans ((Leads.expect c .identifier).trans (.expect _ .leftParen)))⟩

theorem printRest_plain (hc : (Cursor.ofTokens (Token.scan source file)).Leads c)
    (ho : printRest start c = .ok s r) : s.Plain := by
  obtain ⟨e, d, hexpr, ho⟩ := Outcome.bind_eq_ok.1 ho
  cases ho
  exact expr_plain (hc.trans (.expect c .leftParen)) hexpr

theorem declareRest_plain (hc : (Cursor.ofTokens (Token.scan source file)).Leads c)
    (ho : declareRest start c = .ok s r) (hs : s.diagnostics = []) : s.Plain := by
  obtain ⟨e, d, hexpr, ho⟩ := Outcome.bind_eq_ok.1 ho
  cases ho
  simp only [declare_diagnostics, List.append_eq_nil_iff] at hs
  have hequal := (hc.trans (.expect c .identifier)).trans (declaredType_leads _)
  exact ⟨expect_name hc hs.1.1.1, expr_plain (hequal.trans (.expect _ .equal)) hexpr⟩

theorem nameRest_plain (hc : (Cursor.ofTokens (Token.scan source file)).Leads c)
    (hstart : IsName start.value) (ho : nameRest start c = .ok s r) : s.Plain := by
  unfold nameRest at ho
  split at ho
  · obtain ⟨e, hcall, rfl⟩ := Outcome.map_eq_ok.1 ho
    exact callRest_plain (hc.trans (.next c)) hstart hcall
  · obtain ⟨e, d, hexpr, ho⟩ := Outcome.bind_eq_ok.1 ho
    cases ho
    exact ⟨hstart, expr_plain (hc.trans (.next c)) hexpr⟩
  · cases ho
    trivial

theorem returnRest_plain (hc : (Cursor.ofTokens (Token.scan source file)).Leads c)
    (ho : returnRest start c = .ok s r) : s.Plain := by
  unfold returnRest at ho
  split at ho
  · obtain ⟨e, d, hexpr, ho⟩ := Outcome.bind_eq_ok.1 ho
    cases ho
    exact expr_plain hc hexpr
  · cases ho
    trivial

end

mutual

theorem stmtRest_plain {source file : String} {f : Bool} {start : Token} {c r : Cursor} {s : Stmt}
    (hc : (Cursor.ofTokens (Token.scan source file)).Leads c) (hstart : start.Genuine)
    (ho : stmtRest f start c = .ok s r) (hs : s.diagnostics = []) : s.Plain := by
  rw [stmtRest_eq] at ho
  split at ho
  · exact printRest_plain hc ho
  · exact declareRest_plain hc ho hs
  · next hk => exact nameRest_plain hc (hstart.name hk) ho
  · exact forRest_plain hc ho hs
  · exact condRest_plain hc ho hs
  · exact defineRest_plain hc ho hs
  · split at ho
    · exact returnRest_plain hc ho
    · cases ho
      trivial
  · cases ho
    trivial
termination_by 4 * c.weight + 3

theorem forRest_plain {source file : String} {f : Bool} {start : Token} {c r : Cursor} {s : Stmt}
    (hc : (Cursor.ofTokens (Token.scan source file)).Leads c)
    (ho : forRest f start c = .ok s r) (hs : s.diagnostics = []) : s.Plain := by
  rw [forRest_eq] at ho
  obtain ⟨e, d, hexpr, ho⟩ := Outcome.bind_eq_ok.1 ho
  cases ho
  simp only [Stmt.diagnostics, List.append_eq_nil_iff] at hs
  obtain ⟨⟨⟨⟨⟨⟨-, hname⟩, -⟩, -⟩, -⟩, -⟩, hbody⟩ := hs
  have hw := expr_ok_lt hexpr
  have hw1 := c.weight_expect_le .leftParen
  have hw2 := (c.expect .leftParen).rest.weight_expect_le .identifier
  have hw3 := ((c.expect .leftParen).rest.expect .identifier).rest.weight_expect_le .kwIn
  have hw4 := d.weight_expect_le .rightParen
  have hc₁ := hc.trans (.expect c .leftParen)
  have hc₂ := (hc₁.trans (.expect _ .identifier)).trans (.expect _ .kwIn)
  have hd := hc₂.trans (leads_of_expr hexpr)
  exact ⟨expect_name hc₁ hname, expr_plain hc₂ hexpr,
    body_plain (hd.trans (.expect _ .rightParen)) hbody⟩
termination_by 4 * c.weight + 2

theorem condRest_plain {source file : String} {f : Bool} {start : Token} {c r : Cursor} {s : Stmt}
    (hc : (Cursor.ofTokens (Token.scan source file)).Leads c)
    (ho : condRest f start c = .ok s r) (hs : s.diagnostics = []) : s.Plain := by
  rw [condRest_eq] at ho
  obtain ⟨e, d, hexpr, ho⟩ := Outcome.bind_eq_ok.1 ho
  have hw := expr_ok_lt hexpr
  have hw1 := c.weight_expect_le .leftParen
  have hw2 := d.weight_expect_le .rightParen
  have hw3 := weight_body_le f (d.expect .rightParen).rest
  have hc₁ := hc.trans (.expect c .leftParen)
  have he : e.Plain := expr_plain hc₁ hexpr
  have hyes := (hc₁.trans (leads_of_expr hexpr)).trans (.expect d .rightParen)
  cases ha : (body f (d.expect .rightParen).rest).rest.accept? .kwElse with
  | none =>
    simp only [ha] at ho
    cases ho
    simp only [Stmt.diagnostics, List.append_eq_nil_iff] at hs
    exact ⟨he, body_plain hyes hs.2⟩
  | some d' =>
    have hw4 := Cursor.weight_accept?_lt (by decide) ha
    have hw5 := d'.weight_advance_le
    have hno := (hyes.trans (body_leads f _)).trans (.accept? ha)
    simp only [ha] at ho
    split at ho
    · cases ho
      simp only [Stmt.diagnostics, Stmt.diagnosticsOfAll, List.append_eq_nil_iff] at hs
      obtain ⟨⟨-, hbody⟩, hif, -⟩ := hs
      have hplain : (stmt f d').1.Plain := stmtRest_plain (hno.trans (.next d'))
        (current_genuine hno) (eq_ok_of_settle hif) hif
      exact ⟨he, body_plain hyes hbody, hplain, trivial⟩
    · cases ho
      simp only [Stmt.diagnostics, List.append_eq_nil_iff] at hs
      exact ⟨he, body_plain hyes hs.1.2, body_plain hno hs.2⟩
termination_by 4 * c.weight + 2

theorem defineRest_plain {source file : String} {start : Token} {c r : Cursor} {s : Stmt}
    (hc : (Cursor.ofTokens (Token.scan source file)).Leads c)
    (ho : defineRest start c = .ok s r) (hs : s.diagnostics = []) : s.Plain := by
  rw [defineRest_eq] at ho
  cases ho
  simp only [Stmt.diagnostics, List.append_eq_nil_iff] at hs
  have hw := weight_header_le c
  exact ⟨header_plain hc hs.1.1.1, body_plain (hc.trans (header_leads c)) hs.2⟩
termination_by 4 * c.weight + 2

theorem body_plain {source file : String} {f : Bool} {c : Cursor}
    (hc : (Cursor.ofTokens (Token.scan source file)).Leads c)
    (hb : Stmt.diagnosticsOfAll (body f c).body = []) : Stmt.PlainAll (body f c).body := by
  rw [body_eq] at hb ⊢
  have hw := c.weight_expect_le .leftBrace
  exact block_plain (hc.trans (.expect c .leftBrace)) hb
termination_by 4 * c.weight + 1

theorem block_plain {source file : String} {f : Bool} {c : Cursor}
    (hc : (Cursor.ofTokens (Token.scan source file)).Leads c)
    (hb : Stmt.diagnosticsOfAll (block f c).1 = []) : Stmt.PlainAll (block f c).1 := by
  rw [block_eq] at hb ⊢
  split at hb
  · next hk =>
    rw [if_pos hk]
    trivial
  · next hk =>
    rw [if_neg hk]
    have heof : c.kind ≠ .eof := fun e => hk (.inl e)
    have hlt := c.weight_advance_lt heof
    have hw := weight_stmt_lt f heof
    obtain ⟨hs, hmore⟩ := List.append_eq_nil_iff.1 hb
    exact ⟨stmtRest_plain (hc.trans (.next c)) (current_genuine hc) (eq_ok_of_settle hs) hs,
      block_plain ((hc.trans (.next c)).trans (stmt_leads f c)) hmore⟩
termination_by 4 * c.weight

end

theorem statements_plain {source file : String} {c : Cursor}
    (hc : (Cursor.ofTokens (Token.scan source file)).Leads c)
    (hs : Stmt.diagnosticsOfAll (statements c).1 = []) : Stmt.PlainAll (statements c).1 := by
  fun_induction statements c with
  | case1 => trivial
  | case2 c hk s more ih =>
    obtain ⟨hs, hmore⟩ := List.append_eq_nil_iff.1 hs
    exact ⟨stmtRest_plain (hc.trans (.next c)) (current_genuine hc) (eq_ok_of_settle hs) hs,
      ih ((hc.trans (.next c)).trans (stmt_leads false c)) hmore⟩

end Grammar

/-- A program that was read without a diagnostic has names for its names, and its expressions are
plain. -/
theorem Program.parse_plain {source file : String} (h : (parse source file).diagnostics = []) :
    (parse source file).Plain := by
  unfold parse ofTokens read at h ⊢
  split at h
  · next e r he =>
    split at h
    · next hmore =>
      rw [if_pos hmore]
      exact Grammar.statements_plain (.refl _) h
    · next hmore =>
      rw [if_neg hmore]
      exact Grammar.expr_plain (.refl _) he
  · exact Grammar.statements_plain (.refl _) h

end CatScript
