import CatScript.Proofs.Grammar.Extension
import CatScript.Proofs.Grammar.Places
import CatScript.Proofs.Grammar.Recognition
import CatScript.Proofs.Grammar.Recovery
import CatScript.Proofs.Token.Recognised

/-!
# Programs one after the other

Two texts that are read as statements without a diagnostic can be written one after the other, with
a line break between them. The first one has no error token, so the line break ends its last token
and its last comment, and the tokens of the second one follow, moved by as many bytes as stand in
front of them. The statements of the first text are read again since its end is followed by a
statement or by the end, and those of the second one are read as before, at other places.

Results:
* `scanFrom_add`: a text that starts further behind has its tokens further behind.
* `Program.proper_of_clean`: a text that is read without a diagnostic has no error token.
* `parse_concatenated`: the statements of the whole text are those of the two parts.
-/
namespace CatScript

open Token (Kind)
open Text (bytes)

/-! ## Tokens further behind -/

theorem Token.scanFrom_add (file : String) (offset n : Nat) (cs : List Char) :
    scanFrom file (offset + n) cs = (scanFrom file offset cs).map (·.relocate (· + n)) := by
  fun_induction scanFrom file offset cs with
  | case1 offset =>
    rw [scanFrom]
    rfl
  | case2 offset c cs piece next kind value htoken ih =>
    have hnext : offset + n + bytes piece.taken = next + n := Nat.add_right_comm ..
    rw [scanFrom]
    simp only [show (firstPiece c cs).token = some (kind, value) from htoken]
    rw [show (firstPiece c cs) = piece from rfl, hnext, ih]
    rfl
  | case3 offset c cs piece next htoken ih =>
    have hnext : offset + n + bytes piece.taken = next + n := Nat.add_right_comm ..
    rw [scanFrom]
    simp only [show (firstPiece c cs).token = none from htoken]
    rw [show (firstPiece c cs) = piece from rfl, hnext, ih]

namespace Grammar

open Cursor

/-! ## No error tokens -/

/-- None of the tokens is unrecognised text. -/
def Proper (ts : List Token) : Prop := ∀ t ∈ ts, t.kind ≠ .error

theorem proper_cons {t : Token} {ts : List Token} (ht : t.kind ≠ .error) (h : Proper ts) :
    Proper (t :: ts) :=
  List.forall_mem_cons.2 ⟨ht, h⟩

variable {a b : List Token}

theorem Mark.proper {k : Kind} (h : Mark k a b) (hk : k ≠ .error) (hb : Proper b) : Proper a := by
  obtain ⟨t, rfl, rfl⟩ := h
  exact proper_cons hk hb

theorem Word.proper {words : List String} (h : Word words a b) (hb : Proper b) : Proper a := by
  obtain ⟨t, hk, -, rfl⟩ := h
  exact proper_cons (by rw [hk]; decide) hb

theorem Operator.proper {level : Level} (h : Operator level a b) (hb : Proper b) : Proper a := by
  obtain ⟨t, op, hop, -, rfl⟩ := h
  refine proper_cons (fun hk => ?_) hb
  rw [hk] at hop
  cases hop

theorem Sign.proper (h : Sign a b) (hb : Proper b) : Proper a := by
  obtain ⟨t, op, hop, rfl⟩ := h
  refine proper_cons (fun hk => ?_) hb
  rw [hk] at hop
  cases hop

theorem TypePhrase.proper (h : TypePhrase a b) (hb : Proper b) : Proper a := by
  induction h with
  | named hword => exact hword.proper hb
  | list hword hless _ hgreater ih =>
    exact hword.proper (hless.proper (by decide) (ih (hgreater.proper (by decide) hb)))
  | glued hword hless _ hkind ih =>
    have hrest := List.forall_mem_cons.1 hb
    exact hword.proper (hless.proper (by decide) (ih (proper_cons (by rw [hkind]; decide) hrest.2)))

theorem Annotation.proper (h : Annotation a b) (hb : Proper b) : Proper a := by
  cases h with
  | none => exact hb
  | some hcolon hty => exact hcolon.proper (by decide) (hty.proper hb)

theorem Parameters.proper (h : Parameters a b) (hb : Proper b) : Proper a := by
  induction h with
  | none => exact hb
  | last hname hty => exact hname.proper (by decide) (hty.proper hb)
  | more hname hty hcomma _ ih =>
    exact hname.proper (by decide) (hty.proper (hcomma.proper (by decide) (ih hb)))

theorem ExprPhrase.proper {S : ExprPhrase.Symbol} (h : ExprPhrase S a b) (hb : Proper b) :
    Proper a := by
  induction h with
  | operand _ _ ih | primary _ ih | one _ ih | something _ ih => exact ih hb
  | binary _ _ hop _ ih ih' => exact ih (hop.proper (ih' hb))
  | unary hsign _ ih => exact hsign.proper (ih hb)
  | integer hi =>
    obtain ⟨t, hk, -, rfl⟩ := hi
    exact proper_cons (by rw [hk]; decide) hb
  | atom hk hm => exact hm.proper (by rintro rfl; revert hk; decide) hb
  | call hname hopen _ hclose ih =>
    exact hname.proper (by decide) (hopen.proper (by decide) (ih (hclose.proper (by decide) hb)))
  | list hopen _ hclose ih | group hopen _ hclose ih =>
    exact hopen.proper (by decide) (ih (hclose.proper (by decide) hb))
  | more _ hcomma _ ih ih' => exact ih (hcomma.proper (by decide) (ih' hb))
  | nothing => exact hb

theorem StmtPhrase.proper {S : StmtPhrase.Symbol} {f : Bool} (h : StmtPhrase S f a b)
    (hb : Proper b) : Proper a := by
  induction h with
  | print hk hopen he hclose =>
    exact hk.proper (by decide) (hopen.proper (by decide)
      (he.proper (hclose.proper (by decide) hb)))
  | forEach hk hopen hname hin he hclose _ ih =>
    exact hk.proper (by decide) (hopen.proper (by decide) (hname.proper (by decide)
      (hin.proper (by decide) (he.proper (hclose.proper (by decide) (ih hb))))))
  | conditional _ ih => exact ih hb
  | declare hk hname hty heq he =>
    exact hk.proper (by decide) (hname.proper (by decide)
      (hty.proper (heq.proper (by decide) (he.proper hb))))
  | assign hname heq he => exact hname.proper (by decide) (heq.proper (by decide) (he.proper hb))
  | call hname hopen hargs hclose =>
    exact hname.proper (by decide) (hopen.proper (by decide)
      (hargs.proper (hclose.proper (by decide) hb)))
  | define hk hname hopen hps hclose hty _ ih =>
    exact hk.proper (by decide) (hname.proper (by decide) (hopen.proper (by decide)
      (hps.proper (hclose.proper (by decide) (hty.proper (ih hb))))))
  | ret hk => exact hk.proper (by decide) hb
  | retWith hk he => exact hk.proper (by decide) (he.proper hb)
  | cond hk hopen he hclose _ ih =>
    exact hk.proper (by decide) (hopen.proper (by decide)
      (he.proper (hclose.proper (by decide) (ih hb))))
  | elseCond hk hopen he hclose _ helse _ ih ih' | elseBody hk hopen he hclose _ helse _ ih ih' =>
    exact hk.proper (by decide) (hopen.proper (by decide)
      (he.proper (hclose.proper (by decide) (ih (helse.proper (by decide) (ih' hb))))))
  | body hopen _ hclose ih => exact hopen.proper (by decide) (ih (hclose.proper (by decide) hb))
  | none => exact hb
  | more _ _ ih ih' => exact ih (ih' hb)

theorem Sentence.proper {ts : List Token} (h : Sentence ts) : Proper ts := by
  rcases h with hwhole | hstmts
  · exact hwhole.proper nofun
  · exact hstmts.proper nofun

end Grammar

theorem Program.proper_of_clean {source file : String}
    (h : (Program.parse source file).diagnostics = []) :
    Grammar.Proper (Token.scan source file) := by
  have hproper := (Grammar.sentence_of_read (Cursor.ofTokens_faces source file) h).proper
  intro t ht herror
  have hmem : t ∈ (Token.scan source file).filter fun t => t.kind ≠ .eof :=
    List.mem_filter.2 ⟨ht, by rw [herror]; decide⟩
  exact hproper t hmem herror

/-! ## Longer streams -/

/-- In front of a line break and a second text, a text without error tokens keeps its tokens, and
those of the second text follow. -/
theorem Token.scan_newline {a file : String} (h : Grammar.Proper (scan a file)) (b : String) :
    ∃ ts e, scan a file = ts ++ [e] ∧ e.kind = .eof ∧ (∀ t ∈ ts, t.kind ≠ .eof) ∧
      scan (a ++ "\n" ++ b) file =
        ts ++ (scan b file).map (·.relocate (· + (a.utf8ByteSize + 1))) := by
  obtain ⟨ts, hts, hdivided⟩ := divided_of_scanFrom file 0 a.toList h
  obtain ⟨us, e, hus, he, hall⟩ := scanFrom_lexical file 0 a.toList
  obtain ⟨rfl, -⟩ := List.append_inj' (hus.symm.trans hts) rfl
  refine ⟨us, e, hus, he, fun t ht => (hall t ht).more, ?_⟩
  have hwhole : (a ++ "\n" ++ b).toList = a.toList ++ '\n' :: b.toList := by simp
  have hplace : 0 + bytes a.toList + bytes ['\n'] = 0 + (a.utf8ByteSize + 1) := by
    rw [bytes_toList]
    rfl
  rw [scan, hwhole, hdivided.newline, scanFrom_blank (by decide), hplace, scanFrom_add]
  rfl

namespace Grammar

open Cursor

variable {c : Cursor} {t : Token} {us : List Token}

theorem ofTokens_of_ended (h : (t :: us).getLast?.map (·.kind) = some .eof) :
    Cursor.ofTokens (t :: us) = ⟨[], t, us, false⟩ := by
  rw [ofTokens, terminated_of_ended h]

theorem ended_append {ts us : List Token} (h : us.getLast?.map (·.kind) = some .eof) :
    (ts ++ us).getLast?.map (·.kind) = some .eof := by
  obtain ⟨last, hlast, hk⟩ := Option.map_eq_some_iff.1 h
  rw [List.getLast?_append, hlast, Option.some_or, Option.map_some, hk]

theorem ofTokens_extend {ts : List Token} {e : Token} (hts : ∀ u ∈ ts, u.kind ≠ .eof)
    (he : e.kind = .eof) (hus : (t :: us).getLast?.map (·.kind) = some .eof) :
    (Cursor.ofTokens (ts ++ [e])).extend t us = Cursor.ofTokens (ts ++ t :: us) := by
  have hshort : (ts ++ [e]).getLast?.map (·.kind) = some .eof := ended_append (congrArg some he)
  have hlong : (ts ++ t :: us).getLast?.map (·.kind) = some .eof := ended_append hus
  cases ts with
  | nil =>
    rw [List.nil_append] at hshort hlong ⊢
    rw [List.nil_append, ofTokens_of_ended hshort, ofTokens_of_ended hlong]
    exact extend_of_eof he
  | cons u ts =>
    obtain ⟨hu, hts⟩ := List.forall_mem_cons.1 hts
    have hkept : (ts ++ [e]).takeWhile (fun u => decide (u.kind ≠ .eof)) = ts := by
      rw [List.takeWhile_append_of_pos fun v hv => decide_eq_true (hts v hv)]
      simp [he]
    rw [List.cons_append] at hshort hlong ⊢
    rw [List.cons_append, ofTokens_of_ended hshort, ofTokens_of_ended hlong,
      extend_of_ne (c := ⟨[], u, ts ++ [e], false⟩) hu, hkept]

/-- Statements that are read without a diagnostic start with a token that may follow others. -/
theorem StmtPhrase.kind_mem {ts : List Token} (h : StmtPhrase .stmts false ts [])
    (hc : c.Faces ts) : c.kind ∈ nextKinds := by
  cases h with
  | none =>
    rw [hc.kind_nil]
    decide
  | more hs _ => exact List.mem_cons_of_mem _ (hc.kind_mem (hs.startsWith (.inl rfl)))

/-- The new tokens are read as if nothing stood in front of them. -/
theorem statements_append (hc : c.Secured) (hstart : t.kind ∈ nextKinds)
    (hus : (t :: us).getLast?.map (·.kind) = some .eof)
    (hs : Stmt.diagnosticsOfAll (statements c).1 = []) :
    (statements (c.extend t us)).1 =
      (statements c).1 ++ (statements (Cursor.ofTokens (t :: us))).1 := by
  have htorn : (statements c).2.torn = false := (Leads.secured (statements_leads c) hc).whole
  have hend : (statements c).2.extend t us =
      (Cursor.ofTokens (t :: us)).onto (statements c).2.before := by
    rw [extend_of_eof (statements_end c), ofTokens_of_ended hus, htorn]
    rfl
  rw [statements_extend hstart c hs, hend, statements_onto]

/-- An expression at the start of statements leaves the same behind it. -/
theorem expr_append {ts : List Token} (h : StmtPhrase .stmts false ts []) (hc : c.Faces ts)
    (hk : c.kind ≠ .eof) (hstart : t.kind ∈ nextKinds)
    (hmore : ∀ e r, expr c = .ok e r → r.hasMore = true) :
    ∀ e r, expr (c.extend t us) = .ok e r → r.hasMore = true := by
  intro e r he
  have hkind : c.kind ∈ exprKinds := kind_extend hk ▸ kind_of_expr he
  obtain ⟨e', r', he', hclean⟩ := expr_of_stmts h hc hkind
  have hr' : r'.kind ≠ .eof := by simpa [hasMore] using hmore e' r' he'
  cases he.symm.trans (expr_extend hstart he' hclean)
  simpa [hasMore, kind_extend hr'] using hr'

/-- So does one that is read from the tokens at other places. -/
theorem expr_moved {f g : Nat → Nat} (hp : Compatible f g) {d : Cursor}
    (h : c.relocate f = d.relocate g) (hmore : ∀ e r, expr d = .ok e r → r.hasMore = true) :
    ∀ e r, expr c = .ok e r → r.hasMore = true := by
  intro e r he
  have halike := expr_alike hp h
  rw [he] at halike
  cases hd : expr d with
  | failed r' =>
    rw [hd] at halike
    cases halike
  | ok e' r' =>
    rw [hd] at halike
    rw [hasMore, kind_alike (Outcome.ok.inj halike).2]
    exact hmore e' r' hd

end Grammar

namespace Program

open Grammar

theorem read_statements {c : Cursor} {ss : List Stmt} (h : (read c).1.body = .statements ss) :
    (Grammar.statements c).1 = ss ∧ ∀ e r, expr c = .ok e r → r.hasMore = true := by
  unfold read at h
  cases he : expr c with
  | failed r =>
    rw [he] at h
    exact ⟨Body.statements.inj h, nofun⟩
  | ok e r =>
    rw [he] at h
    dsimp only at h
    split at h
    · next hmore =>
      refine ⟨Body.statements.inj h, fun e' r' h' => ?_⟩
      cases h'
      exact hmore
    · cases h

theorem body_of_hasMore {c : Cursor} (h : ∀ e r, expr c = .ok e r → r.hasMore = true) :
    (read c).1.body = .statements (Grammar.statements c).1 := by
  unfold read
  cases he : expr c with
  | failed r => rfl
  | ok e r =>
    dsimp only
    rw [if_pos (h e r he)]
    rfl

/-- A statement program without diagnostics is read as statements without any. -/
theorem clean_statements {p : Program} {ss : List Stmt} (h : p.body = .statements ss) :
    p.diagnostics = Stmt.diagnosticsOfAll ss := by
  rw [diagnostics, h]

end Program

/-- The tokens of a text, moved as a whole, are a stream that is read like the text. -/
theorem Token.exists_moved (source file : String) (n : Nat) : ∃ t us,
    (scan source file).map (·.relocate (· + n)) = t :: us ∧
    (t :: us).getLast?.map (·.kind) = some .eof ∧
    (Cursor.ofTokens (t :: us)).relocate id =
      (Cursor.ofTokens (scan source file)).relocate (· + n) := by
  have hended := scan_ended source file
  rw [← Cursor.ended_relocate (· + n)] at hended
  cases hmoved : (scan source file).map (·.relocate (· + n)) with
  | nil =>
    rw [hmoved] at hended
    cases hended
  | cons t us =>
    rw [hmoved] at hended
    exact ⟨t, us, rfl, hended, Cursor.ofTokens_alike hended ((List.map_id _).trans hmoved.symm)⟩

open Grammar in
/-- Two texts that are read as statements without a diagnostic, with a line break between them, are
read as the statements of the first and then those of the second, moved behind the line break. -/
theorem parse_concatenated {a b file : String} {as bs : List Stmt}
    (ha : (Program.parse a file).body = .statements as)
    (hcleana : (Program.parse a file).diagnostics = [])
    (hb : (Program.parse b file).body = .statements bs)
    (hcleanb : (Program.parse b file).diagnostics = []) :
    (Program.parse (a ++ "\n" ++ b) file).body =
        .statements (as ++ bs.map (Stmt.relocate (· + (a.utf8ByteSize + 1)))) ∧
      (Program.parse (a ++ "\n" ++ b) file).diagnostics = [] := by
  obtain ⟨hsa, hmorea⟩ := Program.read_statements ha
  obtain ⟨hsb, hmoreb⟩ := Program.read_statements hb
  obtain ⟨ts, e, hscan, he, hts, hwhole⟩ := Token.scan_newline (Program.proper_of_clean hcleana) b
  obtain ⟨t, us, hmoved, hended, hshift⟩ := Token.exists_moved b file (a.utf8ByteSize + 1)
  rw [Program.clean_statements ha, ← hsa] at hcleana
  rw [Program.clean_statements hb, ← hsb] at hcleanb
  have hfaces := Cursor.ofTokens_faces a file
  have hphrase := statements_phrase _ hfaces hcleana
  have hstart : t.kind ∈ nextKinds := by
    have hfacesb := Cursor.ofTokens_faces b file
    have hkind := (statements_phrase _ hfacesb hcleanb).kind_mem hfacesb
    rwa [← Cursor.kind_alike hshift, ofTokens_of_ended hended] at hkind
  have hlong : (Cursor.ofTokens (Token.scan a file)).extend t us =
      Cursor.ofTokens (Token.scan (a ++ "\n" ++ b) file) := by
    rw [hscan, hwhole, hmoved, ofTokens_extend hts he hended]
  -- the statements of both texts are read
  have hstatements := statements_append (Cursor.ofTokens_secured (Token.scan_splittable a file))
    hstart hended hcleana
  obtain ⟨hread, -⟩ := statements_alike (.shifted _) hshift
  rw [Stmt.relocateAll_id, hsb, Stmt.relocateAll_eq] at hread
  rw [hlong, hsa, hread] at hstatements
  -- and no expression comes first: an empty first text leaves that to the second one
  have hmore : ∀ e r, expr (Cursor.ofTokens (Token.scan (a ++ "\n" ++ b) file)) = .ok e r →
      r.hasMore = true := by
    cases ts with
    | nil =>
      rw [hwhole, hmoved]
      exact expr_moved (.shifted _) hshift hmoreb
    | cons u ts =>
      have hcurrent : (Cursor.ofTokens (Token.scan a file)).current = u :=
        (List.cons.inj ((Cursor.toCome_ofTokens a file).trans hscan)).1
      have hne : (Cursor.ofTokens (Token.scan a file)).kind ≠ .eof := by
        rw [Cursor.kind, hcurrent]
        exact hts u (List.mem_cons_self ..)
      rw [← hlong]
      exact expr_append hphrase hfaces hne hstart hmorea
  have hbody := Program.body_of_hasMore hmore
  rw [hstatements] at hbody
  refine ⟨hbody, (Program.clean_statements hbody).trans ?_⟩
  rw [Stmt.diagnosticsOfAll_eq, List.flatMap_append, ← Stmt.diagnosticsOfAll_eq,
    ← Stmt.diagnosticsOfAll_eq, ← Stmt.relocateAll_eq, Stmt.diagnosticsOfAll_relocate, ← hsa, ← hsb,
    hcleana, hcleanb]
  rfl

/-- A call with a comment behind it is not joined with the name in the next text. -/
theorem call_before_assignment :
    let a := Program.parse "var x = 1 f(x) // one" "a.cat"
    let b := Program.parse "x = f(2) + [x]" "a.cat"
    a.diagnostics = [] ∧ b.diagnostics = [] ∧
      (Program.parse ("var x = 1 f(x) // one" ++ "\n" ++ "x = f(2) + [x]") "a.cat").body =
        .statements (a.statements ++ b.statements.map (Stmt.relocate (· + 22))) := by
  have hform {p : Program} (h : p.statements.isEmpty = false) :
      p.body = .statements p.statements := by
    unfold Program.statements at h ⊢
    cases hb : p.body with
    | statements ss => rfl
    | expression e =>
      rw [hb] at h
      cases h
  refine ⟨by decide +kernel, by decide +kernel, ?_⟩
  exact (parse_concatenated (a := "var x = 1 f(x) // one") (b := "x = f(2) + [x]")
    (hform (by decide +kernel)) (by decide +kernel) (hform (by decide +kernel))
    (by decide +kernel)).1

end CatScript
