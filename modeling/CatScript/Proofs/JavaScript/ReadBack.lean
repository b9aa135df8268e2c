import CatScript.Proofs.Grammar.Coverage
import CatScript.Proofs.Grammar.Names
import CatScript.Proofs.JavaScript.Meaning
import CatScript.Proofs.Token.Lossless

/-!
# Emitted expressions are read back

The text of an expression is cut into the lexemes of its tree (`Plain.cuts`), the lexemes are read as
the tree, and the tree means the expression. Each part of an emitted expression is followed by the
end of the text, by a blank, by a comma or by a closing bracket, so no lexeme of it runs on
(`CutsInto`). A sign stands in front of a name, a number, a literal or a bracket, and none of these
makes a longer mark of it.

That names are names and that integers have no sign is known of the tokens of a source (`Genuine`),
and the tokens that were passed spell the expression.

Results:
* `Expr.Plain.read`: the text of a grouped expression is read back as it.
* `expr_read_back`: whatever is read from the tokens of a source is read back from its script.
-/
namespace CatScript

open Token (Kind)

/-! ## Cutting what is emitted -/

namespace JavaScript

/-- What stands behind an emitted expression. -/
def Ends (rest : List Char) : Prop := ∀ c, rest.head? = some c → c ∈ [')', ']', ',', ' ']

theorem ends_nil : Ends [] := nofun

theorem ends_cons {c : Char} (h : c ∈ [')', ']', ',', ' ']) (rest : List Char) :
    Ends (c :: rest) := by
  rintro _ ⟨⟩
  exact h

theorem Ends.endsName {rest : List Char} (h : Ends rest) : EndsName rest := by
  intro c hc
  have hall : [')', ']', ',', ' '].all (fun c => !inName c) = true := by decide
  simpa using List.all_eq_true.1 hall c (h c hc)

theorem Ends.endsNumber {rest : List Char} (h : Ends rest) : endsNumber rest = true := by
  cases rest with
  | nil => rfl
  | cons c rest =>
    have hall : [')', ']', ',', ' '].all (fun c => JavaScript.endsNumber [c]) = true := by decide
    exact List.all_eq_true.1 hall c (h c rfl)

/-- The text is cut into the lexemes wherever it ends as an expression does. -/
def CutsInto (text : String) (ls : List Lexeme) : Prop :=
  ∀ rest, Ends rest → lex (text.toList ++ rest) = (lex rest).map (ls ++ ·)

def isName (x : String) : Bool :=
  match x.toList with
  | [] => false
  | c :: cs => startsName c && cs.all inName

theorem exists_of_isName {x : String} (h : isName x = true) :
    ∃ c cs, x.toList = c :: cs ∧ startsName c = true ∧ ∀ d ∈ cs, inName d = true := by
  unfold isName at h
  split at h
  · cases h
  · next c cs hx =>
    obtain ⟨hc, hcs⟩ := Bool.and_eq_true_iff.1 h
    exact ⟨c, cs, hx, hc, List.all_eq_true.1 hcs⟩

theorem lex_isName {x : String} (h : isName x = true) {rest : List Char} (hrest : EndsName rest) :
    lex (x.toList ++ rest) = (lex rest).map (.name x :: ·) := by
  obtain ⟨c, cs, hx, hc, hcs⟩ := exists_of_isName h
  have := lex_name hc hcs hrest
  rwa [← hx, String.ofList_toList] at this

theorem CutsInto.name {x : String} (h : isName x = true) : CutsInto x [.name x] :=
  fun _ he => lex_isName h he.endsName

/-- A name in front of a bracket or a point. -/
theorem CutsInto.after {x text : String} {ls : List Lexeme} {d : Char} (h : CutsInto text ls)
    (hx : isName x = true) (hd : text.toList.head? = some d) (hin : inName d = false) :
    CutsInto (x ++ text) (.name x :: ls) := by
  intro rest he
  have hends : EndsName (text.toList ++ rest) := by
    rw [EndsName, List.head?_append, hd]
    rintro _ ⟨⟩
    exact hin
  rw [String.toList_append, List.append_assoc, lex_isName hx hends, h rest he, Option.map_map]
  rfl

/-- A sign or point in front of what does not make a longer mark of it. -/
theorem CutsInto.sign {m text : String} {ls : List Lexeme} {d : Char} (h : CutsInto text ls)
    (hm : m ∈ ["-", "!", "."]) (hd : text.toList.head? = some d) (hj : joins d = false) :
    CutsInto (m ++ text) (.mark m :: ls) := by
  intro rest he
  have hmem : ∀ m ∈ ["-", "!", "."], m ∈ ["-", "!", "*", "/", "<", "<=", ">", ">=", "."] := by
    decide
  obtain ⟨ds, hds⟩ := List.head?_eq_some_iff.1 hd
  have hmark := lex_operator (hmem m hm) hj (ds ++ rest)
  rw [← List.cons_append, ← hds, h rest he, Option.map_map] at hmark
  rw [String.toList_append, List.append_assoc, hmark]
  rfl

theorem CutsInto.brackets {text opening closing : String} {ls : List Lexeme}
    (h : CutsInto text ls) (ho : opening ∈ ["(", "["]) (hc : closing ∈ [")", "]"]) :
    CutsInto (opening ++ text ++ closing) (.mark opening :: (ls ++ [.mark closing])) := by
  intro rest _
  have hends : Ends (closing.toList ++ rest) := by
    simp only [List.mem_cons, List.not_mem_nil, or_false] at hc
    rcases hc with rfl | rfl <;> exact ends_cons (by decide) rest
  have hopening : ∀ m ∈ ["(", "["], m ∈ ["(", ")", "[", "]", ","] := by decide
  have hclosing : ∀ m ∈ [")", "]"], m ∈ ["(", ")", "[", "]", ","] := by decide
  rw [String.toList_append, String.toList_append, List.append_assoc, List.append_assoc,
    lex_bracket (hopening _ ho), h _ hends, lex_bracket (hclosing _ hc), Option.map_map,
    Option.map_map]
  simp [Function.comp_def]

theorem CutsInto.call {x text : String} {ls : List Lexeme} (h : CutsInto text ls)
    (hx : isName x = true) :
    CutsInto (x ++ "(" ++ text ++ ")") (.name x :: .mark "(" :: (ls ++ [.mark ")"])) := by
  have hargs : CutsInto ("(" ++ text ++ ")") (.mark "(" :: (ls ++ [.mark ")"])) :=
    h.brackets (by decide) (by decide)
  have := hargs.after (d := '(') hx (by simp [String.toList_append]) (by decide)
  simpa only [String.append_assoc] using this

theorem CutsInto.operation {l r : String} {ls rs : List Lexeme} (hl : CutsInto l ls)
    (hr : CutsInto r rs) (op : Op) :
    CutsInto (l ++ " " ++ op.text ++ " " ++ r) (ls ++ .mark op.text :: rs) := by
  intro rest he
  have hop : op.text ∈ ["-", "!", "*", "/", "<", "<=", ">", ">=", "."] := by cases op <;> decide
  have hsplit : (l ++ " " ++ op.text ++ " " ++ r).toList ++ rest =
      l.toList ++ ' ' :: (op.text.toList ++ ' ' :: (r.toList ++ rest)) := by
    simp [String.toList_append]
  rw [hsplit, hl _ (ends_cons (by decide) _), lex_blank, lex_operator hop (by decide), lex_blank,
    hr rest he, Option.map_map, Option.map_map]
  simp [Function.comp_def]

theorem CutsInto.comma {l r : String} {ls rs : List Lexeme} (hl : CutsInto l ls)
    (hr : CutsInto r rs) : CutsInto (l ++ ", " ++ r) (ls ++ .mark "," :: rs) := by
  intro rest he
  have hsplit : (l ++ ", " ++ r).toList ++ rest =
      l.toList ++ (",".toList ++ ' ' :: (r.toList ++ rest)) := by
    simp [String.toList_append]
  have hends : Ends (",".toList ++ ' ' :: (r.toList ++ rest)) := ends_cons (by decide) _
  rw [hsplit, hl _ hends, lex_bracket (by decide), lex_blank, hr rest he, Option.map_map,
    Option.map_map]
  simp [Function.comp_def]

theorem CutsInto.call₂ {x l r : String} {s t : Tree} (hl : CutsInto l s.lexemes)
    (hr : CutsInto r t.lexemes) (hx : isName x = true) :
    CutsInto (x ++ "(" ++ l ++ ", " ++ r ++ ")") (Tree.call x [s, t]).lexemes := by
  have hargs : CutsInto (l ++ ", " ++ r) (Tree.lexemesOfAll [s, t]) := hl.comma hr
  have hcall : CutsInto (x ++ "(" ++ (l ++ ", " ++ r) ++ ")") (Tree.call x [s, t]).lexemes :=
    hargs.call hx
  simpa only [String.append_assoc] using hcall

theorem joins_eq_false {c : Char} (h : startsName c = true ∨ Token.isDigit c = true) :
    joins c = false := by
  rw [Bool.eq_false_iff]
  intro hj
  have hall : ['-', '=', '*', '/', '<', '>', '.'].all
      (fun c => !(startsName c || Token.isDigit c)) = true := by decide
  have hc := List.all_eq_true.1 hall c (by simpa [joins] using hj)
  rw [Bool.or_eq_true_iff.2 h] at hc
  cases hc

end JavaScript

open JavaScript

/-! ## Emitted expressions -/

theorem UnaryOp.cuts (op : UnaryOp) {text : String} {t : Tree} {d : Char}
    (h : CutsInto text t.lexemes) (hd : text.toList.head? = some d) (hj : joins d = false) :
    CutsInto (op.javaScript ++ text) (op.tree t).lexemes := by
  cases op <;> exact h.sign (by decide) hd hj

theorem BinaryOp.cuts (op : BinaryOp) {l r : String} {s t : Tree} (hl : CutsInto l s.lexemes)
    (hr : CutsInto r t.lexemes) : CutsInto (op.javaScript l r) (op.tree s t).lexemes := by
  have heq : CutsInto ("$eq(" ++ l ++ ", " ++ r ++ ")") (Tree.call "$eq" [s, t]).lexemes :=
    hl.call₂ hr (x := "$eq") (by decide)
  have hmark (o : Op) (htext : op.javaScript l r = l ++ " " ++ o.text ++ " " ++ r)
      (htree : op.tree s t = .binary o s t) :
      CutsInto (op.javaScript l r) (op.tree s t).lexemes := by
    rw [htext, htree]
    exact hl.operation hr o
  cases op with
  | add => exact hl.call₂ hr (x := "$add") (by decide)
  | eq => exact heq
  | ne =>
    rw [BinaryOp.javaScript, show "!$eq(" = "!" ++ "$eq(" from rfl]
    have := heq.sign (m := "!") (d := '$') (by decide) (by simp [String.toList_append]) (by decide)
    simp only [String.append_assoc] at this ⊢
    exact this
  | div =>
    rw [BinaryOp.javaScript, show "Math.trunc(" = "Math" ++ ("." ++ ("trunc" ++ "(")) from rfl,
      show " / " = " " ++ Op.div.text ++ " " from rfl]
    have hcall := (hl.operation hr .div).call (x := "trunc") (by decide)
    have hpoint := hcall.sign (m := ".") (d := 't') (by decide) (by simp [String.toList_append])
      (by decide)
    have := hpoint.after (x := "Math") (d := '.') (by decide) (by simp [String.toList_append])
      (by decide)
    simp only [String.append_assoc] at this ⊢
    exact this
  | sub => exact hmark .sub rfl rfl
  | mul => exact hmark .mul rfl rfl
  | gt => exact hmark .gt rfl rfl
  | ge => exact hmark .ge rfl rfl
  | lt => exact hmark .lt rfl rfl
  | le => exact hmark .le rfl rfl

/-- A name of the source is one of the script. -/
theorem IsName.script {x : String} (h : IsName x) : isName x = true := by
  obtain ⟨c, cs, hx, hc, hcs⟩ := h.word
  have hin : ∀ d ∈ cs, inName d = true := fun d hd => by simp [inName, hcs d hd]
  rw [isName, hx]
  exact Bool.and_eq_true_iff.2 ⟨by simp [startsName, hc], List.all_eq_true.2 hin⟩

namespace Expr

/-- No operand of a sign makes a longer mark of it. -/
theorem javaScript_first {e : Expr} (hl : e.level.height = 0) (hp : e.Plain) :
    ∃ d, e.javaScript.toList.head? = some d ∧ joins d = false := by
  cases e with
  | int n v =>
    obtain ⟨d, ds, hd⟩ := List.exists_cons_of_ne_nil
      (Nat.toDigits_ne_nil (n := v.toInt.toNat) (b := 10))
    have hdigit := Token.isDigit_of_mem_toDigits (hd ▸ List.mem_cons_self ..)
    exact ⟨d, by rw [javaScript, Text.toList_decimal hp, hd]; rfl, joins_eq_false (.inr hdigit)⟩
  | str n v => exact ⟨'"', by simp [javaScript, literal], by decide⟩
  | bool n v =>
    cases v
    · exact ⟨'f', by simp [javaScript], by decide⟩
    · exact ⟨'t', by simp [javaScript], by decide⟩
  | null n => exact ⟨'n', by simp [javaScript], by decide⟩
  | var n x =>
    obtain ⟨c, cs, hx, hc, -⟩ := exists_of_isName hp.script
    exact ⟨c, by rw [javaScript, hx]; rfl, joins_eq_false (.inl hc)⟩
  | unary n op e => cases hl
  | binary n op l r => cases op <;> cases hl
  | paren n e => exact ⟨'(', by simp [javaScript, String.toList_append], by decide⟩
  | list n es => exact ⟨'[', by simp [javaScript, String.toList_append], by decide⟩
  | call n f es symbol =>
    obtain ⟨c, cs, hx, hc, -⟩ := exists_of_isName hp.1.script
    exact ⟨c, by simp [javaScript, String.toList_append, hx], joins_eq_false (.inl hc)⟩

mutual

theorem Plain.cuts : (e : Expr) → e.Plain → e.Grouped → CutsInto e.javaScript e.tree.lexemes
  | int _ v, hv, _ => by
    intro rest he
    rw [javaScript, Text.toList_decimal hv, lex_number _ he.endsNumber]
    rfl
  | str _ v, _, _ => fun rest _ => lex_string v rest
  | bool _ true, _, _ => .name (x := "true") (by decide)
  | bool _ false, _, _ => .name (x := "false") (by decide)
  | null _, _, _ => .name (x := "null") (by decide)
  | var _ x, hx, _ => .name hx.script
  | unary n op e, he, ⟨hl, hg⟩ => by
    have ih := Plain.cuts e he hg
    rw [javaScript, tree]
    split
    · have hgroup : CutsInto ("(" ++ e.javaScript ++ ")") (Tree.paren e.tree).lexemes :=
        ih.brackets (by decide) (by decide)
      have := op.cuts (d := '(') hgroup (by simp [String.toList_append]) (by decide)
      simpa only [String.append_assoc] using this
    · next hu =>
      have hzero := level_operand hl (by simpa using hu)
      obtain ⟨d, hd, hj⟩ := javaScript_first hzero he
      exact op.cuts ih hd hj
  | binary n op l r, ⟨hl, hr⟩, ⟨_, _, hgl, hgr⟩ =>
    op.cuts (Plain.cuts l hl hgl) (Plain.cuts r hr hgr)
  | paren _ e, he, hg => (Plain.cuts e he hg).brackets (by decide) (by decide)
  | list _ es, hes, hg => (PlainAll.cuts es hes hg).brackets (by decide) (by decide)
  | call _ f es _, ⟨hf, hes⟩, hg => (PlainAll.cuts es hes hg).call hf.script

theorem PlainAll.cuts : (es : List Expr) → PlainAll es → GroupedAll es →
    CutsInto (javaScriptAll es) (Tree.lexemesOfAll (treesOfAll es))
  | [], _, _ => fun rest _ => by simp [javaScriptAll, treesOfAll, Tree.lexemesOfAll]
  | [e], ⟨he, _⟩, ⟨hg, _⟩ => Plain.cuts e he hg
  | e :: d :: es, ⟨he, hes⟩, ⟨hg, hgs⟩ =>
    (Plain.cuts e he hg).comma (PlainAll.cuts (d :: es) hes hgs)

end

theorem Plain.read {e : Expr} (hp : e.Plain) (hg : e.Grouped) :
    ∃ e', read e.javaScript = some e' ∧ e'.ungrouped = e.ungrouped := by
  obtain ⟨e', he, hsame⟩ := Plain.means e hp hg
  have hlex : lex e.javaScript.toList = some e.tree.lexemes := by
    have := Plain.cuts e hp hg [] ends_nil
    simpa using this
  have htree : readTree e.javaScript.toList = some e.tree := by
    rw [readTree, hlex, Option.bind_some, (Tree.Grouped.reads (Grouped.tree e hg)).ended]
  exact ⟨e', by rw [JavaScript.read, htree, Option.bind_some, he], hsame⟩

end Expr

/-! ## Expressions of a source -/

namespace Token

/-- The value of an identifier is a name, and that of an integer has digits only. -/
structure Genuine (t : Token) : Prop where
  name : t.kind = .identifier → IsName t.value
  digits : t.kind = .integer → t.value.toList ≠ [] ∧ ∀ c ∈ t.value.toList, isDigit c = true

theorem Genuine.of_kind {t : Token} (k : Kind) (hk : t.kind = k) (hname : k ≠ .identifier)
    (hint : k ≠ .integer) : t.Genuine :=
  ⟨fun h => absurd (hk ▸ h) hname, fun h => absurd (hk ▸ h) hint⟩

theorem isName_of_firstPiece {c : Char} {cs : List Char} {v : String}
    (h : (firstPiece c cs).token = some (.identifier, v)) : IsName v := by
  have hfirst : startsWord c = true := by
    -- the piece is its token's value, so another first character would have to be a digit
    rw [← Bool.not_eq_false]
    intro hc
    obtain ⟨-, hword⟩ := isWord_of_firstPiece h
    have hreads := firstPiece_sound c cs
    rw [Piece.Sound, h] at hreads
    obtain ⟨d, ds, htaken⟩ := List.exists_cons_of_ne_nil (taken_ne_nil c cs)
    have happend := taken_append_rest c cs
    rw [htaken, List.cons_append] at happend
    have hin := hword c (by
      rw [hreads.toList_eq (by decide), htaken, (List.cons.inj happend).1]
      exact List.mem_cons_self)
    have hdigit : isDigit c = true := by
      simp only [startsWord, Bool.or_eq_false_iff] at hc
      simpa [inWord, hc.1, hc.2] using hin
    simp [firstPiece, hc, hdigit, Piece.verbatim] at h
  simp only [firstPiece, if_pos hfirst, Option.some.injEq, Prod.mk.injEq] at h
  obtain ⟨hkind, rfl⟩ := h
  refine ⟨⟨c, cs.takeWhile inWord, String.toList_ofList, hfirst, fun d hd => ?_⟩, hkind⟩
  exact List.all_eq_true.1 List.all_takeWhile d hd

theorem scanFrom_genuine (file : String) (offset : Nat) (cs : List Char) :
    ∀ t ∈ scanFrom file offset cs, t.Genuine := by
  fun_induction scanFrom file offset cs with
  | case1 offset =>
    intro t ht
    rw [List.mem_singleton.1 ht]
    exact .of_kind .eof rfl (by decide) (by decide)
  | case2 offset c cs piece next kind value hp ih =>
    intro t ht
    rcases List.mem_cons.1 ht with rfl | ht
    · refine ⟨fun hk => ?_, (lexical_of_firstPiece hp).digits⟩
      cases hk
      exact isName_of_firstPiece hp
    · exact ih t ht
  | case3 offset c cs piece next hp ih => exact ih

end Token

namespace Expr

theorem Says.nonneg {t : Token} {n : Note} {v : Int64} (h : Says t n v) (ht : t.Genuine)
    (hk : t.kind = .integer) : 0 ≤ v := by
  obtain ⟨hne, hdigits⟩ := ht.digits hk
  rcases h with ⟨hv, -⟩ | ⟨-, rfl, -⟩
  · rw [Text.int64?, Text.integer?_eq hne hdigits, Option.bind_some] at hv
    split at hv
    · next hrange =>
      cases hv
      simp only [Int64.toInt_minValue, Int64.toInt_maxValue] at hrange
      rw [Int64.le_iff_toInt_le, Int64.toInt_ofInt_of_le hrange.1 (by omega), Int64.toInt_zero]
      exact Int.natCast_nonneg _
    · cases hv
  · exact Int64.le_refl 0

mutual

theorem Spells.plain {H : Span → List Token → Prop} : (e : Expr) → ∀ {ts : List Token},
    e.Spells H ts → (∀ t ∈ ts, t.Genuine) → e.Plain
  | int _ _, _, ⟨_, t, hts, hk, hsays⟩, h => hsays.nonneg (h t (by simp [hts])) hk
  | str _ _, _, _, _ | bool _ _, _, _, _ | null _, _, _, _ => trivial
  | var _ _, _, ⟨_, _, t, hts, hk, hv⟩, h => hv ▸ (h t (by simp [hts])).name hk
  | unary _ _ e, _, ⟨_, _, t, es, hts, _, he⟩, h =>
    Spells.plain e he fun u hu => h u (by simp [hts, hu])
  | binary _ _ l r, _, ⟨_, _, ls, t, rs, hts, _, hl, hr⟩, h =>
    ⟨Spells.plain l hl fun u hu => h u (by simp [hts, hu]),
      Spells.plain r hr fun u hu => h u (by simp [hts, hu])⟩
  | paren _ e, _, ⟨_, t, es, close, hts, _, he, _⟩, h =>
    Spells.plain e he fun u hu => h u (by simp [hts, hu])
  | list _ es, _, ⟨_, t, is, close, hts, _, hes, _⟩, h =>
    SpellsAll.plain es hes fun u hu => h u (by simp [hts, hu])
  | call _ f es _, _, ⟨_, name, t, is, close, hts, hk, hv, _, hes, _⟩, h =>
    ⟨hv ▸ (h name (by simp [hts])).name hk,
      SpellsAll.plain es hes fun u hu => h u (by simp [hts, hu])⟩

theorem SpellsAll.plain {H : Span → List Token → Prop} : (es : List Expr) → ∀ {ts : List Token},
    SpellsAll H es ts → (∀ t ∈ ts, t.Genuine) → PlainAll es
  | [], _, _, _ => trivial
  | [e], _, he, h => ⟨Spells.plain e he h, trivial⟩
  | e :: d :: es, _, ⟨a, t, b, hts, he, _, hes⟩, h =>
    ⟨Spells.plain e he fun u hu => h u (by simp [hts, hu]),
      SpellsAll.plain (d :: es) hes fun u hu => h u (by simp [hts, hu])⟩

end

end Expr

namespace Grammar

/-- The halves of a `>=` are neither identifiers nor integers. -/
theorem Refined.genuine {as bs : List Token} (h : Refined as bs) (ha : ∀ t ∈ as, t.Genuine) :
    ∀ t ∈ bs, t.Genuine := by
  induction h with
  | nil => exact ha
  | keep t _ ih =>
    obtain ⟨ht, has⟩ := List.forall_mem_cons.1 ha
    exact List.forall_mem_cons.2 ⟨ht, ih has⟩
  | split _ _ ih =>
    obtain ⟨-, has⟩ := List.forall_mem_cons.1 ha
    exact List.forall_mem_cons.2 ⟨.of_kind .greater rfl (by decide) (by decide),
      List.forall_mem_cons.2 ⟨.of_kind .equal rfl (by decide) (by decide), ih has⟩⟩

/-- Wherever reading comes to in a source, the tokens ahead are genuine. -/
theorem toCome_genuine {source file : String} {c : Cursor}
    (hc : (Cursor.ofTokens (Token.scan source file)).Leads c) :
    c.Ended ∧ ∀ t ∈ c.toCome, t.Genuine := by
  have hstart := Cursor.ofTokens_faces source file
  obtain ⟨ts, hpass⟩ := hc.passes ⟨_, hstart⟩
  obtain ⟨bs, hfaces, hrefined⟩ := hpass.faces hstart
  refine ⟨Cursor.Scanned.ended ⟨bs, hfaces⟩, fun t ht => ?_⟩
  have hall : ∀ t ∈ ts ++ bs, t.Genuine := hrefined.genuine fun u hu =>
    Token.scanFrom_genuine file 0 source.toList u (List.mem_filter.1 hu).1
  obtain ⟨eof, heof, hstream⟩ := hfaces.stream
  rw [Cursor.toCome, hstream] at ht
  rcases List.mem_append.1 ht with ht | ht
  · exact hall t (List.mem_append_right ts ht)
  · rw [List.mem_singleton.1 ht]
    exact .of_kind .eof heof (by decide) (by decide)

/-- An expression is read back from its script. Wherever reading comes to in a source, the script of
an expression that is read there can be read to its end by the rules of JavaScript, and gives the
expression itself, apart from groups and from where its nodes stand. -/
theorem expr_read_back (source file : String) (c r : Cursor) (e : Expr)
    (hc : (Cursor.ofTokens (Token.scan source file)).Leads c) (he : expr c = .ok e r) :
    ∃ e', JavaScript.read e.javaScript = some e' ∧ e'.ungrouped = e.ungrouped := by
  obtain ⟨hended, hgenuine⟩ := toCome_genuine hc
  obtain ⟨ts, htake, hspell⟩ := expr_spelled hended he
  have hplain : e.Plain := by
    refine Expr.Spells.plain e hspell.spells fun t ht => hgenuine t ?_
    rw [htake.toCome]
    exact List.mem_append_left _ ht
  exact hplain.read hspell.grouped

def Outcome.value? {α : Type} : Outcome α → Option α
  | ok a _ => some a
  | failed _ => none

/-- A sign behind a sign gets a group, and `!=` becomes a call. -/
theorem expr_read_back_inequality :
    ∃ e r e', expr (Cursor.ofTokens (Token.scan "- -x - f(1 / y) != [z]" "shell")) = .ok e r ∧
      e.javaScript = "!$eq(-(-x) - f(Math.trunc(1 / y)), [z])" ∧
      JavaScript.read "!$eq(-(-x) - f(Math.trunc(1 / y)), [z])" = some e' ∧
      e'.ungrouped = e.ungrouped := by
  have htext : (expr (Cursor.ofTokens (Token.scan "- -x - f(1 / y) != [z]" "shell"))).value?.map
      Expr.javaScript = some "!$eq(-(-x) - f(Math.trunc(1 / y)), [z])" := by decide +kernel
  cases he : expr (Cursor.ofTokens (Token.scan "- -x - f(1 / y) != [z]" "shell")) with
  | ok e r =>
    rw [he] at htext
    have htext := Option.some.inj htext
    obtain ⟨e', hread, hsame⟩ :=
      expr_read_back "- -x - f(1 / y) != [z]" "shell" _ r e (.refl _) he
    exact ⟨e, r, e', rfl, htext, htext ▸ hread, hsame⟩
  | failed r =>
    rw [he] at htext
    cases htext

end Grammar

end CatScript
