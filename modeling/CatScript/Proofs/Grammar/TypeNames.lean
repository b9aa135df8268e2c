import CatScript.Proofs.Grammar.Precedence
import CatScript.Proofs.Grammar.Recognition
import CatScript.Proofs.Grammar.Recovery
import CatScript.Proofs.Token.Recognised

/-!
# Type names are read as they are displayed

The text of a type is read back as the type. What stands behind it may be anything that does not go
on with its last word and that does not make a `==` of a `=`: the `>` that closes a list may stand
together with a `=` behind it, and the two are one token then. Reading splits that token at the
outermost bracket, and the `=` is left to be read as if it stood alone.

The induction is on the type, with the text behind it as a parameter. In front of the brackets of
the types around it a type is followed by a `>`, so only the outermost one ever meets the `=`.

Results:
* `typeName_display`: a displayed type is read back, and the tokens of what follows are left.
* `declaration_of_displayed`: so is the type of a declaration `var x : … = 1`, with any white space in
  front of the `=` or none.
-/
namespace CatScript

open Token (Kind scanFrom Parts Recognised)

/-! ## Words and marks in front of a text -/

namespace Token

theorem scanFrom_ne_nil (file : String) (offset : Nat) (cs : List Char) :
    scanFrom file offset cs ≠ [] := by
  obtain ⟨ts, e, hts, -, -⟩ := scanFrom_lexical file offset cs
  rw [hts]
  exact List.append_ne_nil_of_right_ne_nil ts (List.cons_ne_nil e [])

end Token

/-! ## Cursors in front of a text -/

namespace Cursor

/-- What is to come are the tokens of the text. -/
def Meets (c : Cursor) (file : String) (cs : List Char) : Prop :=
  ∃ offset, c.toCome = scanFrom file offset cs

variable {c : Cursor} {file : String} {k : Kind} {value : String} {text rest cs ws : List Char}

theorem Meets.token (h : c.Meets file (text ++ rest)) (hr : Recognised k value text rest)
    (hk : k ≠ .eof) : c.kind = k ∧ c.current.value = value ∧ c.advance.Meets file rest := by
  obtain ⟨offset, hc⟩ := h
  rw [hr.scanFrom] at hc
  obtain ⟨hcurrent, hahead⟩ := List.cons.inj hc
  have hkind : c.kind = k := congrArg Token.kind hcurrent
  have hstep := c.takes_advance (hahead ▸ Token.scanFrom_ne_nil _ _ _) (hkind ▸ hk)
  exact ⟨hkind, congrArg Token.value hcurrent, _, hstep.rest (hcurrent ▸ hc)⟩

theorem Meets.blanks (h : c.Meets file (ws ++ cs)) (hws : ∀ w ∈ ws, Text.isBlank w = true) :
    c.Meets file cs := by
  obtain ⟨offset, hc⟩ := h
  exact ⟨_, hc.trans (Token.scanFrom_blanks hws file offset cs)⟩

theorem Meets.space (h : c.Meets file (' ' :: cs)) : c.Meets file cs := by
  obtain ⟨offset, hc⟩ := h
  exact ⟨_, hc.trans (Token.scanFrom_blank (by decide) file offset cs)⟩

end Cursor

namespace Grammar

open Cursor

/-! ## Types -/

/-- The text does not go on with the word in front of it, nor with a `=` that it starts with. -/
structure EndsType (rest : List Char) : Prop where
  word : Token.Stops Token.inWord rest
  equal : ∀ cs, rest = '=' :: cs → Parts '=' cs

theorem endsType_greater (rest : List Char) : EndsType ('>' :: rest) :=
  ⟨Token.stops_cons.2 (by decide), nofun⟩

variable {c : Cursor} {file : String} {rest : List Char}

/-- A type that is a single word. -/
theorem typeName_word {name : String} {t : Ty} (hname : simpleType? name = some t)
    (hrest : Token.Stops Token.inWord rest) (hc : c.Meets file (name.toList ++ rest)) :
    (typeName c).1.ty = t ∧ (typeName c).1.errors = [] ∧ (typeName c).2.Meets file rest := by
  have hword : Recognised .identifier name name.toList rest ∧ name ≠ "list" := by
    unfold simpleType? at hname
    split at hname
    iterate 5 exact ⟨Token.recognised_word (by decide) (by decide) (by decide) hrest, by decide⟩
    cases hname
  obtain ⟨hk, hvalue, hnext⟩ := hc.token hword.1 nofun
  rw [typeName_of_simple hk (hvalue ▸ hword.2) (hvalue ▸ hname)]
  exact ⟨rfl, rfl, hnext⟩

theorem splitGreater_of_glued {span : Span} (h : c.current = ⟨.greaterEqual, ">=", span⟩) :
    splitGreater c = { c with
      current := ⟨.greater, ">", { span with stop := span.start + 1 }⟩
      ahead := ⟨.equal, "=", { span with start := span.start + 1 }⟩ :: c.ahead } := by
  have hsplit : splitGreater c = c.split .greater .equal := if_pos (by rw [Cursor.kind, h])
  have htext : c.current.value.toList = ['>', '='] := by simp [h]
  rw [hsplit, split, htext, h]
  rfl

/-- The bracket that closes a list type is passed, also where it is part of a `>=`. -/
theorem expect_greater (hrest : EndsType rest) (hc : c.Meets file ('>' :: rest)) :
    ((splitGreater c).expect .greater).errors = [] ∧
      ((splitGreater c).expect .greater).rest.Meets file rest := by
  by_cases hglued : rest.head? = some '='
  · obtain ⟨cs, rfl⟩ := List.head?_eq_some_iff.1 hglued
    -- `>=` is one token, and what is left of it is the token that `=` alone would be
    have hpair : Recognised .greaterEqual ">=" ['>', '='] cs := .pair rfl
    have hequal : Recognised .equal "=" ['='] cs := .mark rfl (hrest.equal cs rfl)
    obtain ⟨offset, hc⟩ := hc
    obtain ⟨hcurrent, hahead⟩ := List.cons.inj (hc.trans (hpair.scanFrom file offset))
    rw [splitGreater_of_glued hcurrent, hahead]
    exact ⟨rfl, offset + 1, (hequal.scanFrom file (offset + 1)).symm⟩
  · have hparts : Parts '>' rest := by
      refine Token.parts_of_first fun d hd => ⟨?_, fun hslash => absurd hslash.1 (by decide)⟩
      rintro rfl
      exact hglued hd
    obtain ⟨hk, -, hnext⟩ := hc.token (.mark rfl hparts) nofun
    have hsplit : splitGreater c = c := if_neg (by rw [hk]; decide)
    rw [hsplit, expect, expectOr, if_pos hk]
    exact ⟨rfl, hnext⟩

/-- A displayed type starts with a letter. -/
theorem parts_display (t : Ty) (rest : List Char) : Parts '<' (t.display.toList ++ rest) := by
  have hstart : ∃ c cs, t.display.toList = c :: cs ∧ c ≠ '=' := by
    cases t with
    | list t => exact ⟨'l', "ist<".toList ++ (t.display ++ ">").toList, by simp [Ty.display],
        by decide⟩
    | _ => exact ⟨_, _, rfl, by decide⟩
  obtain ⟨c, cs, htext, hc⟩ := hstart
  rw [htext]
  refine Token.parts_of_first fun d hd => ?_
  cases hd
  exact ⟨hc, fun hslash => absurd hslash.1 (by decide)⟩

/-- A displayed type is read back, and the tokens of what follows it are left. -/
theorem typeName_display : (t : Ty) → ∀ {rest : List Char} {c : Cursor}, EndsType rest →
    c.Meets file (t.display.toList ++ rest) →
    (typeName c).1.ty = t ∧ (typeName c).1.errors = [] ∧ (typeName c).2.Meets file rest
  | .int, _, _, hrest, hc | .bool, _, _, hrest, hc | .string, _, _, hrest, hc
  | .object, _, _, hrest, hc | .void, _, _, hrest, hc => typeName_word rfl hrest.word hc
  | .list t, rest, c, hrest, hc => by
    have htext : (Ty.list t).display.toList ++ rest =
        "list".toList ++ ('<' :: (t.display.toList ++ '>' :: rest)) := by
      simp [Ty.display]
    rw [htext] at hc
    have hlist : Recognised .identifier "list" "list".toList
        ('<' :: (t.display.toList ++ '>' :: rest)) :=
      Token.recognised_word (by decide) (by decide) (by decide) (Token.stops_cons.2 (by decide))
    obtain ⟨hk, hvalue, hopen⟩ := hc.token hlist nofun
    obtain ⟨hless, -, hinner⟩ := hopen.token (.mark (c := '<') rfl (parts_display t _)) nofun
    obtain ⟨hty, herrors, hclose⟩ := typeName_display t (endsType_greater rest) hinner
    obtain ⟨hclosed, hafter⟩ := expect_greater hrest hclose
    rw [typeName_of_list hk hvalue (if_pos hless)]
    exact ⟨congrArg Ty.list hty, by simp only [herrors, hclosed, List.append_nil], hafter⟩

/-! ## Declarations -/

/-- A declaration with a type is read as its type and its value are. -/
theorem stmt_declare {d r : Cursor} {name : TypeName} {e : Expr} (hvar : c.kind = .kwVar)
    (hname : c.advance.kind = .identifier) (hcolon : c.advance.advance.kind = .colon)
    (htype : (name, d) = typeName c.advance.advance.advance) (hequal : d.kind = .equal)
    (hvalue : expr d.advance = .ok e r) :
    stmt false c =
      (.declare ⟨r.spanFrom c.current.span, []⟩ c.advance.current.value (some name) e, r) := by
  have hexpect : c.advance.expect .identifier = ⟨c.advance.current, [], c.advance.advance⟩ :=
    if_pos hname
  have hdeclared : declaredType c.advance.advance = (some name, d) := by
    rw [declaredType, accept?, if_pos hcolon]
    simp only [← htype]
  have hpass : d.expect .equal = ⟨d.current, [], d.advance⟩ := if_pos hequal
  rw [stmt, stmtRest_eq, show c.current.kind = .kwVar from hvar]
  simp only [declareRest, hexpect, hdeclared, hpass, hvalue, Outcome.bind_ok, List.append_nil]
  rfl

/-- White space and a `=` end a type. -/
theorem endsType_equal {ws cs : List Char} (hws : ∀ w ∈ ws, Text.isBlank w = true)
    (hcs : Parts '=' cs) : EndsType (ws ++ '=' :: cs) := by
  cases ws with
  | nil =>
    refine ⟨Token.stops_cons.2 (by decide), fun cs' he => ?_⟩
    cases he
    exact hcs
  | cons w ws =>
    obtain ⟨hword, -, hequal, -⟩ := Token.isBlank_plain (hws w (List.mem_cons_self ..))
    exact ⟨Token.stops_cons.2 hword, fun _ he => absurd (List.cons.inj he).1 hequal⟩

/-- The literal `1` at the end of a text. -/
theorem expr_one (hc : c.Meets file ['1']) :
    ∃ note r, expr c = .ok (.int note 1) r ∧ note.errors = [] ∧ r.kind = .eof := by
  obtain ⟨offset, hc⟩ := hc
  have hone : Recognised .integer "1" ['1'] [] := .integer (by decide) nofun (Token.stops_nil _)
  rw [← List.append_nil ['1'], hone.scanFrom, scanFrom, ← List.singleton_append] at hc
  have hblank : Expr.Note.Blank (.fresh .nowhere []) := ⟨rfl, rfl⟩
  obtain ⟨e, r, hread, hplace, hclean, hend⟩ :=
    expr_of_lexemes (e := .int (.fresh .nowhere []) 1) ⟨hblank, by decide⟩ rfl hc rfl
  cases e with
  | int note v =>
    obtain ⟨-, rfl⟩ := Expr.int.inj hplace
    exact ⟨note, r, hread, hclean, hend⟩
  | _ => cases hplace

end Grammar

open Grammar

theorem Program.body_of_stmt {c r : Cursor} {s : Stmt} (hk : c.kind ∉ .eof :: exprKinds)
    (hs : stmt false c = (s, r)) (hr : r.kind = .eof) : (read c).1.body = .statements [s] := by
  rw [List.mem_cons, not_or] at hk
  have hmore : (Grammar.statements r).1 = [] := by rw [Grammar.statements, dif_pos hr]
  rw [read, expr_failed hk.2]
  simp only [readStatements, statements_of_ne hk.1, hs, hmore]

/-- A declaration is read with the type that it displays, with any white space in front of the `=`
or none. -/
theorem declaration_of_displayed (t : Ty) (ws : List Char) (file : String)
    (hws : ∀ w ∈ ws, Text.isBlank w = true) :
    let p := Program.parse ("var x : " ++ t.display ++ String.ofList ws ++ "= 1") file
    p.diagnostics = [] ∧ ∃ note name value,
      p.body = .statements [.declare note "x" (some name) (.int value 1)] ∧ name.ty = t := by
  intro p
  let c := Cursor.ofTokens (Token.scan ("var x : " ++ t.display ++ String.ofList ws ++ "= 1") file)
  have hc : c.Meets file ("var".toList ++ ' ' :: ("x".toList ++ ' ' :: (":".toList ++
      ' ' :: (t.display.toList ++ (ws ++ '=' :: [' ', '1']))))) := by
    refine ⟨0, ?_⟩
    rw [Cursor.toCome_ofTokens, Token.scan]
    simp
  have hspace (cs : List Char) : Token.Stops Token.inWord (' ' :: cs) :=
    Token.stops_cons.2 (by decide)
  have hgap (m : Char) (cs : List Char) : Parts m (' ' :: cs) :=
    Token.parts_of_blank (by simp; decide)
  obtain ⟨hvar, -, hc⟩ :=
    hc.token (k := .kwVar) (Token.recognised_word (by decide) (by decide) (by decide) (hspace _))
      nofun
  obtain ⟨hname, hx, hc⟩ := hc.space.token (k := .identifier)
    (Token.recognised_word (by decide) (by decide) (by decide) (hspace _)) nofun
  obtain ⟨hcolon, -, hc⟩ := hc.space.token (k := .colon) (.mark (c := ':') rfl (hgap _ _)) nofun
  obtain ⟨hty, herrors, hc⟩ := typeName_display t (endsType_equal hws (hgap _ _)) hc.space
  obtain ⟨⟨name, d⟩, htype⟩ : ∃ read, read = typeName c.advance.advance.advance := ⟨_, rfl⟩
  rw [← htype] at hty herrors hc
  dsimp only at hty herrors hc
  obtain ⟨hequal, -, hc⟩ :=
    (hc.blanks hws).token (k := .equal) (.mark (c := '=') rfl (hgap _ _)) nofun
  obtain ⟨note, r, hvalue, hclean, hend⟩ := expr_one hc.space
  have hstmt := stmt_declare hvar hname hcolon htype hequal hvalue
  have hbody : p.body = _ := Program.body_of_stmt (by rw [hvar]; decide) hstmt hend
  rw [hx] at hbody
  refine ⟨?_, _, name, note, hbody, hty⟩
  rw [Program.diagnostics, hbody]
  simp only [Stmt.diagnosticsOfAll, Stmt.diagnostics, Expr.diagnostics, herrors, hclean,
    List.append_nil]

/-- The two brackets of a list of lists and the `=`, without a space between them. -/
theorem declaration_of_glued_brackets :
    let p := Program.parse "var x : list<list<int>>= 1" "main"
    p.diagnostics = [] ∧ ∃ note name value,
      p.body = .statements [.declare note "x" (some name) (.int value 1)] ∧
        name.ty = .list (.list .int) := by
  have htext : "var x : " ++ (Ty.list (.list .int)).display ++ String.ofList [] ++ "= 1" =
      "var x : list<list<int>>= 1" := by decide
  rw [← htext]
  exact declaration_of_displayed (.list (.list .int)) [] "main" nofun

end CatScript
