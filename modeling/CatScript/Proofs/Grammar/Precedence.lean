import CatScript.Proofs.Grammar.Readable
import CatScript.Proofs.Grammar.Spelling
import CatScript.Proofs.Token.Recognised

/-!
# Reading and writing expressions

`lexemes` writes an expression as kinds and texts of tokens. It puts no brackets of its own, so
only a tree that the levels of binding allow can be read back: one whose operands bind as tightly
as their operation demands (`Grouped`). Integers have no sign, and nothing has been found out about
the tree (`Canonical`).

Reading gives a canonical tree back, whatever stands behind it, if that cannot go on with it: no
binary operator, and no `(` behind a name. The induction is on the tree. A chain of operators is
read from the left with its left operand in hand, so what is proved of a tree at a level is that the
reader of the level comes to the chain behind it (`ReadsAs`); a tree that binds tighter is read on
the way by every level up to that one.

Results:
* `Canonical.readsAs`: tokens that spell a canonical tree are read as it.
* `expr_reads_levels`: reading inverts writing, and everything that is read is grouped by the levels
  and spelled by the tokens passed.
-/
namespace CatScript

open Token (Kind)

/-! ## Writing -/

/-- The kind and the text of a token. -/
def Token.lexeme (t : Token) : Kind × String := (t.kind, t.value)

def UnaryOp.kind : UnaryOp → Kind
  | negate => .minus
  | not => .kwNot

def BinaryOp.kind : BinaryOp → Kind
  | add => .plus
  | sub => .minus
  | mul => .star
  | div => .slash
  | gt => .greater
  | ge => .greaterEqual
  | lt => .less
  | le => .lessEqual
  | eq => .equalEqual
  | ne => .bangEqual

theorem UnaryOp.ofKind?_kind (op : UnaryOp) : UnaryOp.ofKind? op.kind = some op := by
  cases op <;> rfl

theorem BinaryOp.ofKind?_kind (op : BinaryOp) : BinaryOp.ofKind? op.kind = some op := by
  cases op <;> rfl

namespace Expr

open Grammar (Level)

mutual

/-- What the tokens of the expression are, from left to right. -/
def lexemes : Expr → List (Kind × String)
  | int _ v => [(.integer, Text.decimal v)]
  | str _ v => [(.string, v)]
  | bool _ true => [(.kwTrue, "true")]
  | bool _ false => [(.kwFalse, "false")]
  | null _ => [(.kwNull, "null")]
  | var _ x => [(.identifier, x)]
  | unary _ op e => (op.kind, op.text) :: e.lexemes
  | binary _ op l r => l.lexemes ++ (op.kind, op.text) :: r.lexemes
  | paren _ e => (.leftParen, "(") :: (e.lexemes ++ [(.rightParen, ")")])
  | list _ es => (.leftBracket, "[") :: (lexemesOfAll es ++ [(.rightBracket, "]")])
  | call _ f es _ =>
    (.identifier, f) :: (.leftParen, "(") :: (lexemesOfAll es ++ [(.rightParen, ")")])

def lexemesOfAll : List Expr → List (Kind × String)
  | [] => []
  | [e] => e.lexemes
  | e :: d :: es => e.lexemes ++ (.comma, ",") :: lexemesOfAll (d :: es)

end

/-- Nothing has been found out about the node. -/
def Note.Blank (n : Note) : Prop := n.errors = [] ∧ n.ty = none

mutual

/-- The tree is as the levels of binding demand, has no negative integer and has not been checked. -/
def Canonical : Expr → Prop
  | int n v => n.Blank ∧ 0 ≤ v
  | str n _ | bool n _ | null n | var n _ => n.Blank
  | unary n _ e => n.Blank ∧ e.level.height ≤ Level.unary.height ∧ e.Canonical
  | binary n op l r =>
    n.Blank ∧ l.level.height ≤ op.level.height ∧ r.level.height < op.level.height ∧
      l.Canonical ∧ r.Canonical
  | paren n e => n.Blank ∧ e.Canonical
  | list n es => n.Blank ∧ CanonicalAll es
  | call n _ es symbol => n.Blank ∧ symbol = none ∧ CanonicalAll es

def CanonicalAll : List Expr → Prop
  | [] => True
  | e :: es => e.Canonical ∧ CanonicalAll es

end

/-! ## Spans left out -/

def Note.placeless (n : Note) : Note := { n with span := .nowhere }

mutual

/-- The expression without the places its nodes were read from. -/
def placeless : Expr → Expr
  | int n v => int n.placeless v
  | str n v => str n.placeless v
  | bool n v => bool n.placeless v
  | null n => null n.placeless
  | var n x => var n.placeless x
  | unary n op e => unary n.placeless op e.placeless
  | binary n op l r => binary n.placeless op l.placeless r.placeless
  | paren n e => paren n.placeless e.placeless
  | list n es => list n.placeless (placelessOfAll es)
  | call n f es symbol => call n.placeless f (placelessOfAll es) symbol

def placelessOfAll : List Expr → List Expr
  | [] => []
  | e :: es => e.placeless :: placelessOfAll es

end

theorem Note.Blank.placeless {n : Note} (h : n.Blank) (span : Span) :
    (Note.fresh span []).placeless = n.placeless := by
  obtain ⟨_, _, _⟩ := n
  obtain ⟨rfl, rfl⟩ := h
  rfl

mutual

theorem diagnostics_placeless : (e : Expr) → e.placeless.diagnostics = e.diagnostics
  | int _ _ | str _ _ | bool _ _ | null _ | var _ _ => rfl
  | unary _ _ e | paren _ e => by
    simp only [placeless, diagnostics, Note.placeless, diagnostics_placeless e]
  | binary _ _ l r => by
    simp only [placeless, diagnostics, Note.placeless, diagnostics_placeless l,
      diagnostics_placeless r]
  | list _ es | call _ _ es _ => by
    simp only [placeless, diagnostics, Note.placeless, diagnosticsOfAll_placeless es]

theorem diagnosticsOfAll_placeless : (es : List Expr) →
    diagnosticsOfAll (placelessOfAll es) = diagnosticsOfAll es
  | [] => rfl
  | e :: es => by
    simp only [placelessOfAll, diagnosticsOfAll, diagnostics_placeless e,
      diagnosticsOfAll_placeless es]

end

mutual

theorem Canonical.diagnostics : (e : Expr) → e.Canonical → e.diagnostics = []
  | int _ _, ⟨h, _⟩ => h.1
  | str _ _, h | bool _ _, h | null _, h | var _ _, h => h.1
  | unary _ _ e, ⟨h, _, he⟩ | paren _ e, ⟨h, he⟩ => by
    simp only [Expr.diagnostics, h.1, Canonical.diagnostics e he, List.append_nil]
  | binary _ _ l r, ⟨h, _, _, hl, hr⟩ => by
    simp only [Expr.diagnostics, h.1, Canonical.diagnostics l hl, Canonical.diagnostics r hr,
      List.append_nil]
  | list _ es, ⟨h, hes⟩ | call _ _ es _, ⟨h, _, hes⟩ => by
    simp only [Expr.diagnostics, h.1, CanonicalAll.diagnostics es hes, List.append_nil]

theorem CanonicalAll.diagnostics : (es : List Expr) → CanonicalAll es → diagnosticsOfAll es = []
  | [], _ => rfl
  | e :: es, ⟨he, hes⟩ => by
    simp only [diagnosticsOfAll, Canonical.diagnostics e he, CanonicalAll.diagnostics es hes,
      List.append_nil]

end

end Expr

/-! ## Tokens that are written -/

open Grammar (decimalValue) in
/-- An integer without a sign is read as it is written. -/
theorem Text.int64?_decimal {v : Int64} (h : 0 ≤ v) : int64? (decimal v).toList = some v := by
  obtain ⟨n, hn⟩ : ∃ n : Nat, v.toInt = n :=
    Int.eq_ofNat_of_zero_le (by simpa using Int64.le_iff_toInt_le.1 h)
  have hdec : (decimal v).toList = Nat.toDigits 10 n := by
    rw [toList_decimal h, hn, Int.toNat_natCast]
  have hdigits : ∀ c ∈ Nat.toDigits 10 n, Token.isDigit c = true :=
    fun _ hc => Token.isDigit_of_mem_toDigits hc
  have hvalue : decimalValue (Nat.toDigits 10 n) = n := Nat.ofDigitChars_ten_toDigits
  rw [hdec, int64?, integer?_eq Nat.toDigits_ne_nil hdigits, hvalue, Option.bind_some, ← hn,
    if_pos ⟨Int64.minValue_le_toInt v, Int64.toInt_le v⟩, Int64.ofInt_toInt]

namespace Expr

theorem lexeme_eq_iff {t : Token} {k : Kind} {v : String} :
    t.lexeme = (k, v) ↔ t.kind = k ∧ t.value = v := by
  rw [Token.lexeme, Prod.mk.injEq]

mutual

/-- Tokens as an expression is written spell it. -/
theorem Canonical.spelled : (e : Expr) → e.Canonical → ∀ {ts : List Token},
    ts.map Token.lexeme = e.lexemes → e.Spelled ts
  | int n v, ⟨hn, hv⟩, ts, h => by
    obtain ⟨t, rfl, ht⟩ := List.map_eq_singleton_iff.1 h
    obtain ⟨hk, hval⟩ := lexeme_eq_iff.1 ht
    exact ⟨trivial, t, rfl, hk, .inl ⟨hval ▸ Text.int64?_decimal hv, hn.1⟩⟩
  | str n v, hn, ts, h => by
    obtain ⟨t, rfl, ht⟩ := List.map_eq_singleton_iff.1 h
    obtain ⟨hk, hval⟩ := lexeme_eq_iff.1 ht
    exact ⟨trivial, hn.1, t, rfl, hk, hval⟩
  | bool n true, hn, ts, h | bool n false, hn, ts, h | null n, hn, ts, h => by
    obtain ⟨t, rfl, ht⟩ := List.map_eq_singleton_iff.1 h
    exact ⟨trivial, hn.1, t, rfl, (lexeme_eq_iff.1 ht).1⟩
  | var n x, hn, ts, h => by
    obtain ⟨t, rfl, ht⟩ := List.map_eq_singleton_iff.1 h
    obtain ⟨hk, hval⟩ := lexeme_eq_iff.1 ht
    exact ⟨trivial, hn.1, t, rfl, hk, hval⟩
  | unary n op e, ⟨hn, _, he⟩, ts, h => by
    obtain ⟨t, es, rfl, ht, hes⟩ := List.map_eq_cons_iff.1 h
    obtain ⟨hk, -⟩ := lexeme_eq_iff.1 ht
    exact ⟨trivial, hn.1, t, es, rfl, hk ▸ op.ofKind?_kind, Canonical.spelled e he hes⟩
  | binary n op l r, ⟨hn, _, _, hl, hr⟩, ts, h => by
    obtain ⟨ls, rest, rfl, hls, hrest⟩ := List.map_eq_append_iff.1 h
    obtain ⟨t, rs, rfl, ht, hrs⟩ := List.map_eq_cons_iff.1 hrest
    obtain ⟨hk, -⟩ := lexeme_eq_iff.1 ht
    exact ⟨trivial, hn.1, ls, t, rs, rfl, hk ▸ op.ofKind?_kind, Canonical.spelled l hl hls,
      Canonical.spelled r hr hrs⟩
  | paren n e, ⟨hn, he⟩, ts, h => by
    obtain ⟨t, rest, rfl, ht, hrest⟩ := List.map_eq_cons_iff.1 h
    obtain ⟨es, close, rfl, hes, hclose⟩ := List.map_eq_append_iff.1 hrest
    obtain ⟨u, rfl, hu⟩ := List.map_eq_singleton_iff.1 hclose
    exact ⟨trivial, t, es, [u], rfl, (lexeme_eq_iff.1 ht).1, Canonical.spelled e he hes,
      .inl ⟨hn.1, u, rfl, (lexeme_eq_iff.1 hu).1⟩⟩
  | list n es, ⟨hn, hes⟩, ts, h => by
    obtain ⟨t, rest, rfl, ht, hrest⟩ := List.map_eq_cons_iff.1 h
    obtain ⟨is, close, rfl, his, hclose⟩ := List.map_eq_append_iff.1 hrest
    obtain ⟨u, rfl, hu⟩ := List.map_eq_singleton_iff.1 hclose
    exact ⟨trivial, t, is, [u], rfl, (lexeme_eq_iff.1 ht).1, CanonicalAll.spelled es hes his,
      .inl ⟨hn.1, u, rfl, (lexeme_eq_iff.1 hu).1⟩⟩
  | call n f es symbol, ⟨hn, _, hes⟩, ts, h => by
    obtain ⟨name, rest, rfl, hname, hrest⟩ := List.map_eq_cons_iff.1 h
    obtain ⟨t, rest, rfl, ht, hrest⟩ := List.map_eq_cons_iff.1 hrest
    obtain ⟨is, close, rfl, his, hclose⟩ := List.map_eq_append_iff.1 hrest
    obtain ⟨u, rfl, hu⟩ := List.map_eq_singleton_iff.1 hclose
    obtain ⟨hk, hv⟩ := lexeme_eq_iff.1 hname
    exact ⟨trivial, name, t, is, [u], rfl, hk, hv, (lexeme_eq_iff.1 ht).1,
      CanonicalAll.spelled es hes his, .inl ⟨hn.1, u, rfl, (lexeme_eq_iff.1 hu).1⟩⟩

theorem CanonicalAll.spelled : (es : List Expr) → CanonicalAll es → ∀ {ts : List Token},
    ts.map Token.lexeme = lexemesOfAll es → SpellsAll (fun _ _ => True) es ts
  | [], _, _, h => List.map_eq_nil_iff.1 h
  | [e], ⟨he, _⟩, _, h => Canonical.spelled e he h
  | e :: d :: es, ⟨he, hes⟩, ts, h => by
    obtain ⟨a, rest, rfl, ha, hrest⟩ := List.map_eq_append_iff.1 h
    obtain ⟨t, b, rfl, ht, hb⟩ := List.map_eq_cons_iff.1 hrest
    exact ⟨a, t, b, rfl, Canonical.spelled e he ha, (lexeme_eq_iff.1 ht).1,
      CanonicalAll.spelled (d :: es) hes hb⟩

end

/-- The first token of an expression can start one. -/
theorem Spells.startsWith {H : Span → List Token → Prop} : (e : Expr) → ∀ {ts : List Token},
    e.Spells H ts → Grammar.StartsWith Grammar.exprKinds ts
  | int _ _, _, ⟨_, t, hts, hk, _⟩ | str _ _, _, ⟨_, _, t, hts, hk, _⟩
  | null _, _, ⟨_, _, t, hts, hk⟩ | var _ _, _, ⟨_, _, t, hts, hk, _⟩ =>
    ⟨t, [], hts, by rw [hk]; decide⟩
  | bool _ v, _, ⟨_, _, t, hts, hk⟩ => ⟨t, [], hts, by rw [hk]; cases v <;> decide⟩
  | unary _ op _, _, ⟨_, _, t, es, hts, hop, _⟩ => by
    obtain ⟨u, us, he, hk⟩ := Grammar.Sign.startsWith ⟨t, op, hop, hts⟩
    exact ⟨u, us, he, hk⟩
  | binary _ _ l _, _, ⟨_, _, ls, t, rs, hts, _, hl, _⟩ => by
    obtain ⟨u, us, rfl, hk⟩ := Spells.startsWith l hl
    exact ⟨u, us ++ t :: rs, hts, hk⟩
  | paren _ _, _, ⟨_, t, _, _, hts, hk, _⟩ | list _ _, _, ⟨_, t, _, _, hts, hk, _⟩ =>
    ⟨t, _, hts, by rw [hk]; decide⟩
  | call _ _ _ _, _, ⟨_, name, _, _, _, hts, hk, _⟩ => ⟨name, _, hts, by rw [hk]; decide⟩

theorem SpellsAll.startsWith {H : Span → List Token → Prop} {e : Expr} {es : List Expr}
    {ts : List Token} (h : SpellsAll H (e :: es) ts) :
    Grammar.StartsWith Grammar.exprKinds ts := by
  cases es with
  | nil => exact Spells.startsWith e h
  | cons d es =>
    obtain ⟨a, t, b, hts, ha, -⟩ := h
    obtain ⟨u, us, rfl, hk⟩ := Spells.startsWith e ha
    exact ⟨u, us ++ t :: b, hts, hk⟩

theorem Closes.of_blank {closing : Kind} {cause : Cause} {n : Note} {ts : List Token}
    (h : Closes closing cause n ts) (hn : n.Blank) : ∃ t, ts = [t] ∧ t.kind = closing := by
  rcases h with ⟨-, h⟩ | ⟨-, d, hd, -⟩
  · exact h
  · rw [hn.1] at hd
    cases hd

end Expr

/-! ## Reading back -/

namespace Cursor

variable {c r : Cursor} {t : Token} {ts us : List Token}

/-- What is left when the tokens have been passed. -/
theorem Takes.rest (h : c.Takes ts r) (hc : c.toCome = ts ++ us) : r.toCome = us :=
  List.append_cancel_left (h.toCome.symm.trans hc)

theorem Takes.current (h : c.Takes ts r) (hc : c.toCome = ts ++ t :: us) : r.current = t :=
  (List.cons.inj (h.rest hc)).1

end Cursor

namespace Grammar

open Cursor CatScript.Expr

/-- The token does not go on with an expression that the tokens spell: it is no operator that binds
tighter than the level, and no `(` behind a name. -/
def Halts (level : Level) (ts : List Token) (t : Token) : Prop :=
  (∀ op, BinaryOp.ofKind? t.kind = some op → level.height ≤ op.level.height) ∧
  (ts.getLast?.map (·.kind) = some .identifier → t.kind ≠ .leftParen)

theorem Halts.mono {l m : Level} {ts : List Token} {t : Token} (h : Halts l ts t)
    (hm : m.height ≤ l.height) : Halts m ts t :=
  ⟨fun op hop => Nat.le_trans hm (h.1 op hop), h.2⟩

/-- The token does not go on with the last part of the expression either. -/
theorem Halts.last {level : Level} {bs : List Token} {t : Token} (as : List Token)
    (h : Halts level (as ++ bs) t) : Halts level bs t := by
  refine ⟨h.1, fun hb => h.2 ?_⟩
  obtain ⟨u, hu, hk⟩ := Option.map_eq_some_iff.1 hb
  rw [List.getLast?_append, hu]
  exact congrArg some hk

theorem Halts.operator {ts : List Token} {t : Token} {op : BinaryOp}
    (h : BinaryOp.ofKind? t.kind = some op) : Halts op.level ts t := by
  refine ⟨fun op' hop => ?_, fun _ hk => ?_⟩
  · rw [h] at hop
    cases hop
    exact Nat.le_refl _
  · rw [hk] at h
    cases h

/-- In front of the token no chain of a tighter level goes on. -/
theorem Halts.chain_eq {l m : Level} {ts : List Token} {c : Cursor} (h : Halts l ts c.current)
    (hm : m.height < l.height) (e : Expr) : chain m e c = .ok e c := by
  refine chain_of_ne (fun op hop he => ?_) e
  have := h.1 op hop
  rw [he] at this
  omega

/-- The tokens are read as the expression at the level: the reader of the level comes to the chain
behind them with the expression in hand, whatever stands there that does not go on with it. -/
def ReadsAs (level : Level) (e : Expr) (ts : List Token) : Prop :=
  ∀ c t after, c.toCome = ts ++ t :: after → Halts level ts t →
    ∃ e' r, binary level c = chain level e' r ∧ c.Takes ts r ∧ e'.placeless = e.placeless

theorem readsAs_primary {e : Expr} {ts : List Token}
    (h : ∀ c t after, c.toCome = ts ++ t :: after → Halts .primary ts t →
      UnaryOp.ofKind? c.kind = none ∧
      ∃ e' r, primary c = .ok e' r ∧ c.Takes ts r ∧ e'.placeless = e.placeless) :
    ReadsAs .primary e ts := by
  intro c t after hc hs
  obtain ⟨hop, e', r, hp, htake, he⟩ := h c t after hc hs
  refine ⟨e', r, ?_, htake, he⟩
  rw [chain_of_height (by decide), binary_of_not_isBinary rfl, unary_eq, hop, hp]

/-- What is read by the next tighter level is read by this one. -/
theorem ReadsAs.operand {l : Level} {e : Expr} {ts : List Token} (h : ReadsAs l.tighter e ts)
    (hl : l.isBinary = true) : ReadsAs l e ts := by
  intro c t after hc hs
  have hlt : l.tighter.height < l.height := by
    have := Level.height_tighter hl
    omega
  obtain ⟨e', r, hb, htake, he⟩ := h c t after hc (hs.mono (Nat.le_of_lt hlt))
  have hcur : r.current = t := htake.current hc
  rw [Halts.chain_eq (hcur ▸ hs) hlt] at hb
  exact ⟨e', r, by rw [binary_of_isBinary hl, hb]; rfl, htake, he⟩

theorem Level.height_inj {l m : Level} (h : l.height = m.height) : l = m := by
  cases l <;> cases m <;> first | rfl | cases h

theorem chain_of_not_isBinary {level : Level} (h : level.isBinary = false) (e : Expr) (c : Cursor) :
    chain level e c = .ok e c :=
  chain_of_height (by cases level <;> simp_all [Level.isBinary, Level.height]) e c

theorem ReadsAs.mono {l m : Level} {e : Expr} {ts : List Token} (h : ReadsAs l e ts)
    (hm : l.height ≤ m.height) : ReadsAs m e ts := by
  by_cases hb : m.isBinary = true
  · have := Level.height_tighter hb
    by_cases hlm : l.height = m.height
    · rwa [← Level.height_inj hlm]
    · exact (h.mono (by omega)).operand hb
  · -- both are read by the reader of unary operators
    have hl : l.isBinary = false := by
      cases l <;> cases m <;> simp_all [Level.isBinary, Level.height]
    have hm' : m.isBinary = false := by simpa using hb
    intro c t after hc hs
    obtain ⟨e', r, hread, htake, he⟩ := h c t after hc (hs.mono hm)
    rw [binary_of_not_isBinary hl, chain_of_not_isBinary hl] at hread
    exact ⟨e', r, by rw [binary_of_not_isBinary hm', chain_of_not_isBinary hm', hread], htake, he⟩
termination_by m.height

theorem readsAs_unary {n : Note} {op : UnaryOp} {e : Expr} {tok : Token} {es : List Token}
    (hn : n.Blank) (hop : UnaryOp.ofKind? tok.kind = some op) (h : ReadsAs .unary e es) :
    ReadsAs .unary (.unary n op e) (tok :: es) := by
  intro c t after hc hs
  obtain ⟨rfl, hahead⟩ := List.cons.inj hc
  have hstep := c.takes_advance (by simp [hahead]) (kind_ne_eof_of_unaryOp hop)
  obtain ⟨e', r, hb, htake, he⟩ := h c.advance t after (hstep.rest hc) (Halts.last [c.current] hs)
  rw [chain_of_height (by decide), binary_of_not_isBinary rfl] at hb
  refine ⟨unaryNode c.current op e', r, ?_, hstep.trans htake, ?_⟩
  · rw [chain_of_height (by decide), binary_of_not_isBinary rfl, unary_eq, Cursor.kind, hop, hb]
    rfl
  · simp only [unaryNode, placeless, hn.placeless, he]

theorem readsAs_binary {n : Note} {op : BinaryOp} {l r : Expr} {ls rs : List Token} {tok : Token}
    (hn : n.Blank) (hop : BinaryOp.ofKind? tok.kind = some op) (hl : ReadsAs op.level l ls)
    (hr : ReadsAs op.level.tighter r rs) :
    ReadsAs op.level (.binary n op l r) (ls ++ tok :: rs) := by
  intro c t after hc hs
  rw [List.append_assoc] at hc
  have hlt : op.level.tighter.height < op.level.height := by
    have := Level.height_tighter (level_isBinary op)
    omega
  -- the left operand, up to the operator
  obtain ⟨l', d, hleft, htake, hel⟩ := hl c tok (rs ++ t :: after) hc (.operator hop)
  have hd : d.toCome = tok :: (rs ++ t :: after) := htake.rest hc
  obtain ⟨rfl, hahead⟩ := List.cons.inj hd
  have hat : operatorAt? op.level d = some op := Option.filter_eq_some_iff.2 ⟨hop, by simp⟩
  have hstep := d.takes_advance (by simp [hahead]) (kind_ne_eof_of_operatorAt? hat)
  -- the right operand, behind which no operator of a tighter level stands
  have hs' : Halts op.level rs t := Halts.last [d.current] (Halts.last ls hs)
  obtain ⟨r', d', hright, htake', her⟩ :=
    hr d.advance t after (hstep.rest hd) (hs'.mono (Nat.le_of_lt hlt))
  have hcur : d'.current = t := htake'.current (hstep.rest hd)
  rw [Halts.chain_eq (hcur ▸ hs') hlt] at hright
  refine ⟨binaryNode op l' r', d', ?_, htake.trans (hstep.trans htake'), ?_⟩
  · rw [hleft, Grammar.chain_eq, hat, hright]
    rfl
  · simp only [binaryNode, placeless, hn.placeless, hel, her]

theorem level_le_equality (e : Expr) : e.level.height ≤ Level.equality.height := by
  have hops : ∀ op : BinaryOp, op.level.height ≤ Level.equality.height := by
    intro op
    cases op <;> decide
  cases e with
  | binary _ op _ _ => exact hops op
  | unary _ _ _ => exact (by decide : Level.unary.height ≤ Level.equality.height)
  | _ => exact Nat.zero_le _

/-- A whole expression is read up to a token that is no operator. -/
theorem ReadsAs.expr_eq {e : Expr} {ts after : List Token} {c : Cursor} {t : Token}
    (h : ReadsAs e.level e ts) (hc : c.toCome = ts ++ t :: after) (ht : BinaryOp.ofKind? t.kind = none)
    (hp : ts.getLast?.map (·.kind) = some .identifier → t.kind ≠ .leftParen) :
    ∃ e' r, expr c = .ok e' r ∧ c.Takes ts r ∧ e'.placeless = e.placeless := by
  have hs : Halts .default ts t := ⟨fun op hop => (Option.some_ne_none op (hop ▸ ht)).elim, hp⟩
  obtain ⟨e', r, hb, htake, he⟩ := (h.mono (level_le_equality e)) c t after hc (hs.mono (by decide))
  have hcur : r.current = t := htake.current hc
  exact ⟨e', r, hb.trans (Halts.chain_eq (hcur ▸ hs) (by decide) e'), htake, he⟩

/-! ## Brackets -/

/-- The kinds of closing brackets. -/
def closers : List Kind := [.rightParen, .rightBracket]

theorem closers_end : ∀ k ∈ closers, BinaryOp.ofKind? k = none ∧ k ≠ .leftParen ∧ k ≠ .comma ∧
    k ≠ .eof ∧ k ∉ exprKinds := by decide

/-- The tokens are read as the expressions, up to a closing bracket. -/
def SeqReadsAs (es : List Expr) (is : List Token) : Prop :=
  ∀ c t after, c.toCome = is ++ t :: after → t.kind ∈ closers →
    ∃ es' r, seq c = .ok es' r ∧ c.Takes is r ∧ placelessOfAll es' = placelessOfAll es

theorem seqReadsAs_one {e : Expr} {ts : List Token} (h : ReadsAs e.level e ts) :
    SeqReadsAs [e] ts := by
  intro c t after hc ht
  obtain ⟨hop, hparen, hcomma, -⟩ := closers_end _ ht
  obtain ⟨e', r, he, htake, hplace⟩ := h.expr_eq hc hop fun _ => hparen
  have hstop : r.accept? .comma = none := if_neg (by rwa [Cursor.kind, htake.current hc])
  refine ⟨[e'], r, ?_, htake, by simp only [placelessOfAll, hplace]⟩
  rw [seq_eq, he, Outcome.bind_ok, hstop]

theorem seqReadsAs_cons {e : Expr} {es : List Expr} {a b : List Token} {tok : Token}
    (h : ReadsAs e.level e a) (htok : tok.kind = .comma) (hes : SeqReadsAs es b) :
    SeqReadsAs (e :: es) (a ++ tok :: b) := by
  intro c t after hc ht
  rw [List.append_assoc] at hc
  obtain ⟨e', r, he, htake, hplace⟩ :=
    h.expr_eq hc (by rw [htok]; rfl) (fun _ => by rw [htok]; decide)
  have hr : r.toCome = tok :: (b ++ t :: after) := htake.rest hc
  obtain ⟨rfl, hahead⟩ := List.cons.inj hr
  have hstep := r.takes_advance (by simp [hahead]) (by rw [Cursor.kind, htok]; decide)
  obtain ⟨es', r', hseq, htake', hplaces⟩ := hes r.advance t after (hstep.rest hr) ht
  have hgo : r.accept? .comma = some r.advance := if_pos htok
  refine ⟨e' :: es', r', ?_, htake.trans (hstep.trans htake'), ?_⟩
  · rw [seq_eq, he, Outcome.bind_ok, hgo]
    simp only [hseq, Outcome.map_ok]
  · simp only [placelessOfAll, hplace, hplaces]

/-- The items in brackets, none or some. -/
theorem items_read {es : List Expr} {is after : List Token} {c : Cursor} {t : Token}
    (hspell : SpellsAll (fun _ _ => True) es is) (h : es ≠ [] → SeqReadsAs es is)
    (hc : c.toCome = is ++ t :: after) (ht : t.kind ∈ closers) :
    ∃ es' r, items t.kind c = .ok es' r ∧ c.Takes is r ∧
      placelessOfAll es' = placelessOfAll es := by
  cases es with
  | nil =>
    cases hspell
    have hcur : c.kind = t.kind := by rw [Cursor.kind, (Takes.refl c).current hc]
    exact ⟨[], c, by rw [items_eq, if_pos hcur], .refl c, rfl⟩
  | cons e es =>
    obtain ⟨u, us, rfl, hu⟩ := SpellsAll.startsWith hspell
    have hne : ¬ c.kind = t.kind := by
      intro he
      rw [Cursor.kind, (List.cons.inj hc).1] at he
      exact (closers_end _ ht).2.2.2.2 (he ▸ hu)
    rw [items_eq, if_neg hne]
    exact h (by simp) c t after hc ht

theorem close_read {t : Token} {c : Cursor} {after : List Token} (hc : c.toCome = t :: after)
    (hafter : after ≠ []) (ht : t.kind ∈ closers) :
    c.Takes [t] c.advance ∧ ∀ opening cause build, close opening t.kind cause build c =
      .ok (build (.fresh (c.advance.spanFrom opening.span) [])) c.advance := by
  obtain ⟨rfl, hahead⟩ := List.cons.inj hc
  refine ⟨c.takes_advance (hahead ▸ hafter) (closers_end _ ht).2.2.2.1, fun _ cause _ => ?_⟩
  have hpass : c.expectOr c.current.kind cause = ⟨c.current, [], c.advance⟩ := if_pos rfl
  rw [close, hpass]

/-! ## Trees -/

theorem readsAs_atom {e : Expr} {tok : Token} (hk : tok.kind ≠ .eof)
    (hop : UnaryOp.ofKind? tok.kind = none)
    (h : ∀ c : Cursor, c.current = tok → (tok.kind = .identifier → c.advance.kind ≠ .leftParen) →
      ∃ e', primary c = .ok e' c.advance ∧ e'.placeless = e.placeless) :
    ReadsAs .primary e [tok] := by
  refine readsAs_primary fun c t after hc hs => ?_
  obtain ⟨rfl, hahead⟩ := List.cons.inj hc
  have hstep := c.takes_advance (by simp [hahead]) hk
  obtain ⟨e', hp, he⟩ := h c rfl fun hi => by
    rw [Cursor.kind, hstep.current hc]
    exact hs.2 (congrArg some hi)
  exact ⟨hop, e', c.advance, hp, hstep, he⟩

theorem readsAs_group {n : Note} {e : Expr} {tok close : Token} {es : List Token} (hn : n.Blank)
    (htok : tok.kind = .leftParen) (hclose : close.kind = .rightParen) (h : ReadsAs e.level e es) :
    ReadsAs .primary (.paren n e) (tok :: (es ++ [close])) := by
  refine readsAs_primary fun c t after hc hs => ?_
  obtain ⟨rfl, hahead⟩ := List.cons.inj hc
  have hkind : c.kind = .leftParen := htok
  have hstep := c.takes_advance (by simp [hahead]) (by rw [hkind]; decide)
  have hin : c.advance.toCome = es ++ close :: (t :: after) := by
    rw [hstep.rest hc]
    simp
  obtain ⟨e', r, he, htake, hplace⟩ := h.expr_eq hin (by rw [hclose]; rfl)
    (fun _ => by rw [hclose]; decide)
  obtain ⟨hstep', hread⟩ := close_read (htake.rest hin) (by simp) (by rw [hclose]; decide)
  refine ⟨by rw [hkind]; rfl, .paren (.fresh (r.advance.spanFrom c.current.span) []) e', r.advance, ?_,
    hstep.trans (htake.trans hstep'), ?_⟩
  · rw [primary_eq, hkind]
    simp only [group, groupRest_eq, he, Outcome.bind_ok]
    rw [← hclose]
    exact hread _ _ _
  · simp only [placeless, hn.placeless, hplace]

theorem readsAs_list {n : Note} {es : List Expr} {tok close : Token} {is : List Token}
    (hn : n.Blank) (htok : tok.kind = .leftBracket) (hclose : close.kind = .rightBracket)
    (hspell : SpellsAll (fun _ _ => True) es is) (h : es ≠ [] → SeqReadsAs es is) :
    ReadsAs .primary (.list n es) (tok :: (is ++ [close])) := by
  refine readsAs_primary fun c t after hc hs => ?_
  obtain ⟨rfl, hahead⟩ := List.cons.inj hc
  have hkind : c.kind = .leftBracket := htok
  have hstep := c.takes_advance (by simp [hahead]) (by rw [hkind]; decide)
  have hin : c.advance.toCome = is ++ close :: (t :: after) := by
    rw [hstep.rest hc]
    simp
  have hcloser : close.kind ∈ closers := by rw [hclose]; decide
  obtain ⟨es', r, he, htake, hplace⟩ := items_read hspell h hin hcloser
  obtain ⟨hstep', hread⟩ := close_read (htake.rest hin) (by simp) hcloser
  refine ⟨by rw [hkind]; rfl, .list (.fresh (r.advance.spanFrom c.current.span) []) es', r.advance, ?_,
    hstep.trans (htake.trans hstep'), ?_⟩
  · rw [primary_eq, hkind]
    simp only [list, listRest_eq]
    rw [← hclose, he, Outcome.bind_ok]
    exact hread _ _ _
  · simp only [placeless, hn.placeless, hplace]

theorem readsAs_call {n : Note} {es : List Expr} {name tok close : Token} {is : List Token}
    (hn : n.Blank) (hname : name.kind = .identifier) (htok : tok.kind = .leftParen)
    (hclose : close.kind = .rightParen) (hspell : SpellsAll (fun _ _ => True) es is)
    (h : es ≠ [] → SeqReadsAs es is) :
    ReadsAs .primary (.call n name.value es none) (name :: tok :: (is ++ [close])) := by
  refine readsAs_primary fun c t after hc hs => ?_
  obtain ⟨rfl, hahead⟩ := List.cons.inj hc
  have hkind : c.kind = .identifier := hname
  have hstep := c.takes_advance (by simp [hahead]) (by rw [hkind]; decide)
  have hopen : c.advance.toCome = tok :: (is ++ close :: (t :: after)) := by
    rw [hstep.rest hc]
    simp
  obtain ⟨rfl, hahead'⟩ := List.cons.inj hopen
  have hstep' := c.advance.takes_advance (by simp [hahead']) (by rw [Cursor.kind, htok]; decide)
  have hin : c.advance.advance.toCome = is ++ close :: (t :: after) := hstep'.rest hopen
  have hcloser : close.kind ∈ closers := by rw [hclose]; decide
  obtain ⟨es', r, he, htake, hplace⟩ := items_read hspell h hin hcloser
  obtain ⟨hstep'', hread⟩ := close_read (htake.rest hin) (by simp) hcloser
  refine ⟨by rw [hkind]; rfl, .call (.fresh (r.advance.spanFrom c.current.span) []) c.current.value es' none, r.advance, ?_,
    hstep.trans (hstep'.trans (htake.trans hstep'')), ?_⟩
  · rw [primary_eq, hkind]
    have hparen : c.advance.kind = .leftParen := htok
    simp only [if_pos hparen, call, callRest_eq]
    rw [← hclose, he, Outcome.bind_ok]
    exact hread _ _ _
  · simp only [placeless, hn.placeless, hplace]

end Grammar

namespace Expr

open Grammar

mutual

/-- Tokens that spell a canonical tree are read as it, by the reader of its level. -/
theorem Canonical.readsAs : (e : Expr) → e.Canonical → ∀ {ts : List Token}, e.Spelled ts →
    ReadsAs e.level e ts
  | int n v, ⟨hn, hv⟩, _, ⟨_, t, hts, hk, hsays⟩ => by
    subst hts
    refine readsAs_atom (by rw [hk]; decide) (by rw [hk]; rfl) fun c hc _ => ?_
    have hread : Text.int64? t.value.toList = some v := by
      rcases hsays with ⟨h, -⟩ | ⟨-, -, h⟩
      · exact h
      · rw [hn.1] at h
        cases h
    refine ⟨integerLiteral t, by rw [primary_eq, Cursor.kind, hc, hk], ?_⟩
    rw [integerLiteral, hread]
    simp only [placeless, hn.placeless]
  | str n v, hn, _, ⟨_, _, t, hts, hk, hv⟩ => by
    subst hts hv
    refine readsAs_atom (by rw [hk]; decide) (by rw [hk]; rfl) fun c hc _ => ?_
    exact ⟨_, by rw [primary_eq, Cursor.kind, hc, hk], by simp only [placeless, hn.placeless]⟩
  | bool n v, hn, _, ⟨_, _, t, hts, hk⟩ => by
    subst hts
    cases v with
    | true =>
      refine readsAs_atom (by rw [hk]; decide) (by rw [hk]; rfl) fun c hc _ => ?_
      refine ⟨.bool (.fresh t.span []) true, ?_, by simp only [placeless, hn.placeless]⟩
      rw [primary_eq, Cursor.kind, hc, hk]
      rfl
    | false =>
      refine readsAs_atom (by rw [hk]; decide) (by rw [hk]; rfl) fun c hc _ => ?_
      refine ⟨.bool (.fresh t.span []) false, ?_, by simp only [placeless, hn.placeless]⟩
      rw [primary_eq, Cursor.kind, hc, hk]
      rfl
  | null n, hn, _, ⟨_, _, t, hts, hk⟩ => by
    subst hts
    refine readsAs_atom (by rw [hk]; decide) (by rw [hk]; rfl) fun c hc _ => ?_
    exact ⟨_, by rw [primary_eq, Cursor.kind, hc, hk], by simp only [placeless, hn.placeless]⟩
  | var n x, hn, _, ⟨_, _, t, hts, hk, hv⟩ => by
    subst hts hv
    refine readsAs_atom (by rw [hk]; decide) (by rw [hk]; rfl) fun c hc hparen => ?_
    refine ⟨.var (.fresh t.span []) t.value, ?_, by simp only [placeless, hn.placeless]⟩
    rw [primary_eq, Cursor.kind, hc, hk]
    simp only [if_neg (hparen hk)]
  | unary n op e, ⟨hn, hl, he⟩, _, ⟨_, _, t, es, hts, hop, hspell⟩ => by
    subst hts
    exact readsAs_unary hn hop ((Canonical.readsAs e he hspell).mono hl)
  | binary n op l r, ⟨hn, hl, hr, hcl, hcr⟩, _, ⟨_, _, ls, t, rs, hts, hop, hspell, hspell'⟩ => by
    subst hts
    have := Level.height_tighter (level_isBinary op)
    exact readsAs_binary hn hop ((Canonical.readsAs l hcl hspell).mono hl)
      ((Canonical.readsAs r hcr hspell').mono (by omega))
  | paren n e, ⟨hn, he⟩, _, ⟨_, t, es, close, hts, hk, hspell, hclose⟩ => by
    subst hts
    obtain ⟨u, rfl, hu⟩ := Closes.of_blank hclose hn
    exact readsAs_group hn hk hu (Canonical.readsAs e he hspell)
  | list n es, ⟨hn, hes⟩, _, ⟨_, t, is, close, hts, hk, hspell, hclose⟩ => by
    subst hts
    obtain ⟨u, rfl, hu⟩ := Closes.of_blank hclose hn
    exact readsAs_list hn hk hu hspell (CanonicalAll.readsAs es hes hspell)
  | call n f es symbol, ⟨hn, hsymbol, hes⟩, _,
      ⟨_, name, t, is, close, hts, hname, hf, hk, hspell, hclose⟩ => by
    subst hts hf hsymbol
    obtain ⟨u, rfl, hu⟩ := Closes.of_blank hclose hn
    exact readsAs_call hn hname hk hu hspell (CanonicalAll.readsAs es hes hspell)

theorem CanonicalAll.readsAs : (es : List Expr) → CanonicalAll es → ∀ {is : List Token},
    SpellsAll (fun _ _ => True) es is → es ≠ [] → SeqReadsAs es is
  | [], _, _, _, hne => absurd rfl hne
  | [e], ⟨he, _⟩, _, hspell, _ => seqReadsAs_one (Canonical.readsAs e he hspell)
  | e :: d :: es, ⟨he, hes⟩, _, ⟨a, t, b, hts, hspell, hk, hspells⟩, _ => by
    subst hts
    exact seqReadsAs_cons (Canonical.readsAs e he hspell) hk
      (CanonicalAll.readsAs (d :: es) hes hspells (by simp))

end

end Expr

namespace Grammar

/-- Tokens as a canonical tree is written, with nothing behind them, are read as the tree. -/
theorem expr_of_lexemes {e : Expr} {ts : List Token} {c : Cursor} {t : Token} (he : e.Canonical)
    (hts : ts.map Token.lexeme = e.lexemes) (hc : c.toCome = ts ++ [t]) (ht : t.kind = .eof) :
    ∃ e' r, expr c = .ok e' r ∧ e'.placeless = e.placeless ∧ e'.diagnostics = [] ∧
      r.kind = .eof := by
  have hspell := Expr.Canonical.spelled e he hts
  obtain ⟨e', r, hread, htake, hplace⟩ := (Expr.Canonical.readsAs e he hspell).expr_eq hc
    (by rw [ht]; rfl) (fun _ => by rw [ht]; decide)
  refine ⟨e', r, hread, hplace, ?_, by rw [Cursor.kind, htake.current hc, ht]⟩
  rw [← Expr.diagnostics_placeless, hplace, Expr.diagnostics_placeless,
    Expr.Canonical.diagnostics e he]

/-- Reading inverts writing on the trees that the levels of binding allow, and gives no other. The
tokens of a canonical tree are read as the tree, without a diagnostic and up to the token behind
them, if that is no binary operator and no `(` behind a name. Whatever is read from a stream is
grouped by the levels, and the tokens passed spell it: each once, in order, and with every bracket
closed except where the node says that it is not. -/
theorem expr_reads_levels :
    (∀ (e : Expr) (ts : List Token) (c : Cursor) (t : Token) (after : List Token),
      e.Canonical → ts.map Token.lexeme = e.lexemes → c.toCome = ts ++ t :: after →
      BinaryOp.ofKind? t.kind = none →
      (ts.getLast?.map (·.kind) = some .identifier → t.kind ≠ .leftParen) →
      ∃ e' r, expr c = .ok e' r ∧ e'.placeless = e.placeless ∧ e'.diagnostics = [] ∧
        c.Takes ts r ∧ r.current = t) ∧
    (∀ (c r : Cursor) (e : Expr), c.Ended → expr c = .ok e r →
      e.Grouped ∧ ∃ ts, c.Takes ts r ∧ e.Spelled ts) := by
  refine ⟨fun e ts c t after he hts hc ht hp => ?_, fun c r e hc hread => ?_⟩
  · have hspell := Expr.Canonical.spelled e he hts
    obtain ⟨e', r, hread, htake, hplace⟩ := (Expr.Canonical.readsAs e he hspell).expr_eq hc ht hp
    refine ⟨e', r, hread, hplace, ?_, htake, htake.current hc⟩
    rw [← Expr.diagnostics_placeless, hplace, Expr.diagnostics_placeless,
      Expr.Canonical.diagnostics e he]
  · obtain ⟨ts, htake, hspell⟩ := expr_spelled hc hread
    exact ⟨hspell.grouped, ts, htake, Expr.Spells.imp e (fun _ _ _ _ => trivial) hspell.spells⟩

/-- The tokens of `1 - 2 * -x` in front of `)`, with nothing said about where they stand. -/
theorem expr_reads_levels_difference :
    let blank : Expr.Note := .fresh .nowhere []
    let e : Expr := .binary blank .sub (.int blank 1)
      (.binary blank .mul (.int blank 2) (.unary blank .negate (.var blank "x")))
    let ts : List Token := e.lexemes.map fun l => ⟨l.1, l.2, .nowhere⟩
    let c := Cursor.ofTokens (ts ++ [⟨.rightParen, ")", .nowhere⟩])
    (∃ e' r, expr c = .ok e' r ∧ e'.placeless = e ∧ e'.diagnostics = [] ∧ c.Takes ts r ∧
      r.kind = .rightParen) ∧
    ∃ e' r us, expr c = .ok e' r ∧ e'.Grouped ∧ c.Takes us r ∧ e'.Spelled us := by
  intro blank e ts c
  have hblank : blank.Blank := ⟨rfl, rfl⟩
  have he : e.Canonical :=
    ⟨hblank, by decide, by decide, ⟨hblank, by decide⟩, hblank, by decide, by decide,
      ⟨hblank, by decide⟩, hblank, by decide, hblank⟩
  obtain ⟨e', r, hread, hplace, hd, htake, hcur⟩ :=
    expr_reads_levels.1 e ts c ⟨.rightParen, ")", .nowhere⟩ [.endAt .nowhere] he rfl rfl rfl
      (by decide)
  obtain ⟨hgroup, us, htake', hspell⟩ := expr_reads_levels.2 c r e' (by rfl) hread
  exact ⟨⟨e', r, hread, hplace, hd, htake, by rw [Cursor.kind, hcur]⟩,
    e', r, us, hread, hgroup, htake', hspell⟩

end Grammar

end CatScript
