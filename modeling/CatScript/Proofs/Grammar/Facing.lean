import CatScript.Proofs.Grammar.Sentences
import CatScript.Token.Scan

/-!
# Cursors and the tokens in front of them

A cursor faces a list of tokens if they are what lies between it and the end of the stream
(`Cursor.Faces`). The moves of a cursor are given in these terms: passing a token takes it off the
front, asking for a kind of token succeeds as the list starts with one, and splitting a `>=`
puts its two halves in its place. The cursor on a scanned text faces all of its tokens.
-/
namespace CatScript

open Token (Kind)

/-! ## Tokens of a text -/

namespace Token

/-- A token as scanning gives it: an integer is a run of digits and a `>=` is written so. -/
structure Lexical (t : Token) : Prop where
  more : t.kind ≠ .eof
  digits : t.kind = .integer → t.value.toList ≠ [] ∧ ∀ c ∈ t.value.toList, isDigit c = true
  greaterEqual : t.kind = .greaterEqual → t.value = ">="

theorem Lexical.of_kind {t : Token} (h : t.kind ∉ [Kind.eof, .integer, .greaterEqual]) :
    t.Lexical := by
  simp only [List.mem_cons, List.not_mem_nil, or_false, not_or] at h
  exact ⟨h.1, fun hk => absurd hk h.2.1, fun hk => absurd hk h.2.2⟩

theorem ofWord_plain (word : String) : Kind.ofWord word ∉ [Kind.eof, .integer, .greaterEqual] := by
  unfold Kind.ofWord
  split <;> decide

theorem markKind?_plain (c : Char) :
    (markKind? c).getD .error ∉ [Kind.eof, .integer, .greaterEqual] := by
  unfold markKind?
  split <;> decide

theorem lexical_of_pairKind? {c d : Char} {k : Kind} {span : Span} (h : pairKind? c d = some k) :
    (⟨k, String.ofList [c, d], span⟩ : Token).Lexical := by
  unfold pairKind? at h
  split at h <;> cases h
  · exact .of_kind (by simp)
  · exact .of_kind (by simp)
  · exact .of_kind (by simp)
  · exact ⟨nofun, nofun, fun _ => rfl⟩

theorem lexical_of_markPiece {c : Char} {cs : List Char} {k : Kind} {v : String} {span : Span}
    (h : (markPiece c cs).token = some (k, v)) : (⟨k, v, span⟩ : Token).Lexical := by
  unfold markPiece at h
  split at h
  · cases h
    exact .of_kind (markKind?_plain c)
  · split at h
    · next hk =>
      cases h
      exact lexical_of_pairKind? hk
    · cases h
      exact .of_kind (markKind?_plain c)

theorem lexical_of_firstPiece {c : Char} {cs : List Char} {k : Kind} {v : String} {span : Span}
    (h : (firstPiece c cs).token = some (k, v)) : (⟨k, v, span⟩ : Token).Lexical := by
  unfold firstPiece at h
  split at h
  · cases h
    exact .of_kind (ofWord_plain _)
  split at h
  · next hc =>
    cases h
    refine ⟨nofun, fun _ => ?_, nofun⟩
    simp only [String.toList_ofList]
    refine ⟨List.cons_ne_nil _ _, fun d hd => ?_⟩
    rcases List.mem_cons.1 hd with rfl | hd
    · exact hc
    · exact List.all_eq_true.1 List.all_takeWhile d hd
  split at h
  · cases h
  split at h
  · split at h <;> cases h <;> exact .of_kind (by simp)
  split at h
  · cases h
  · exact lexical_of_markPiece h

/-- The tokens of a text end in the one that marks its end, and in no other place. -/
theorem scanFrom_lexical (file : String) (offset : Nat) (cs : List Char) :
    ∃ ts e, scanFrom file offset cs = ts ++ [e] ∧ e.kind = .eof ∧ ∀ t ∈ ts, t.Lexical := by
  fun_induction scanFrom file offset cs with
  | case1 offset => exact ⟨[], _, rfl, rfl, by simp⟩
  | case2 offset c cs piece next kind value hp ih =>
    obtain ⟨ts, e, hts, he, hall⟩ := ih
    refine ⟨_ :: ts, e, by rw [hts]; rfl, he, fun t ht => ?_⟩
    rcases List.mem_cons.1 ht with rfl | ht
    · exact lexical_of_firstPiece hp
    · exact hall t ht
  | case3 offset c cs piece next hp ih => exact ih

end Token

/-! ## Integers -/

namespace Text

open Grammar (decimalValue)

theorem digitsOnto_eq {cs : List Char} (h : ∀ c ∈ cs, Token.isDigit c = true) (n : Nat) :
    digitsOnto n cs = some (cs.foldl (fun n c => 10 * n + (c.toNat - '0'.toNat)) n) := by
  induction cs generalizing n with
  | nil => rfl
  | cons c cs ih =>
    have hc : '0' ≤ c ∧ c ≤ '9' := by
      have := h c (List.mem_cons_self ..)
      simpa [Token.isDigit] using this
    rw [digitsOnto, digit?, if_pos hc]
    exact ih (fun d hd => h d (List.mem_cons_of_mem _ hd)) _

theorem integer?_eq {cs : List Char} (hne : cs ≠ []) (h : ∀ c ∈ cs, Token.isDigit c = true) :
    integer? cs = some (decimalValue cs : Int) := by
  obtain ⟨c, cs, rfl⟩ := List.exists_cons_of_ne_nil hne
  have hc := h c (List.mem_cons_self ..)
  have hn : natural? (c :: cs) = some (decimalValue (c :: cs)) := digitsOnto_eq h 0
  unfold integer?
  split
  · next he => cases he; cases hc
  · next he => cases he; cases hc
  · rw [hn]
    rfl

/-- A run of digits reads as a literal if its value is in range. -/
theorem int64?_isSome_iff {cs : List Char} (hne : cs ≠ [])
    (h : ∀ c ∈ cs, Token.isDigit c = true) :
    (int64? cs).isSome ↔ decimalValue cs ≤ 2 ^ 63 - 1 := by
  have hmin : Int64.minValue.toInt ≤ (decimalValue cs : Int) :=
    Int.le_trans (by decide) (Int.natCast_nonneg _)
  have hmax : (decimalValue cs : Int) ≤ Int64.maxValue.toInt ↔ decimalValue cs ≤ 2 ^ 63 - 1 := by
    rw [show Int64.maxValue.toInt = ((2 ^ 63 - 1 : Nat) : Int) by decide]
    exact Int.ofNat_le
  rw [int64?, integer?_eq hne h, Option.bind_some]
  simp only [hmin, true_and, hmax]
  split <;> simp_all

end Text

theorem Token.Lexical.integerLiteral_iff {t : Token} (h : t.Lexical) (hk : t.kind = .integer) :
    (Grammar.integerLiteral t).diagnostics = [] ↔
      Grammar.decimalValue t.value.toList ≤ 2 ^ 63 - 1 := by
  obtain ⟨hne, hd⟩ := h.digits hk
  rw [← Text.int64?_isSome_iff hne hd]
  unfold Grammar.integerLiteral
  split
  · next hi => simp [hi, Expr.diagnostics, Expr.Note.fresh]
  · next hi => simp [hi, Expr.diagnostics, Expr.Note.fresh]

/-! ## Facing -/

open Grammar

namespace Cursor

/-- The tokens between the cursor and the end of the stream. -/
structure Faces (c : Cursor) (ts : List Token) : Prop where
  stream : ∃ e, e.kind = .eof ∧ c.current :: c.ahead = ts ++ [e]
  lexical : ∀ t ∈ ts, t.Lexical

variable {c d : Cursor} {ts rest : List Token} {t : Token} {k : Kind} {kinds : List Kind}

theorem Faces.current (h : c.Faces (t :: ts)) : c.current = t := by
  obtain ⟨e, -, hs⟩ := h.stream
  exact (List.cons.inj hs).1

theorem Faces.kind_nil (h : c.Faces []) : c.kind = .eof := by
  obtain ⟨e, he, hs⟩ := h.stream
  rw [Cursor.kind, (List.cons.inj hs).1, he]

theorem Faces.kind_cons (h : c.Faces (t :: ts)) : c.kind = t.kind := by
  rw [Cursor.kind, h.current]

theorem Faces.eq_nil (h : c.Faces ts) (hk : c.kind = .eof) : ts = [] := by
  cases ts with
  | nil => rfl
  | cons t ts =>
    rw [h.kind_cons] at hk
    exact absurd hk (h.lexical t (List.mem_cons_self ..)).more

theorem Faces.hasMore (h : c.Faces ts) : c.hasMore = true ↔ ts ≠ [] := by
  rw [Cursor.hasMore, decide_eq_true_iff]
  refine ⟨fun hk hts => hk ?_, fun hts hk => hts (h.eq_nil hk)⟩
  subst hts
  exact h.kind_nil

theorem Faces.advance (h : c.Faces (t :: ts)) : c.advance.Faces ts := by
  have hk : c.kind ≠ .eof := by
    rw [h.kind_cons]
    exact (h.lexical t (List.mem_cons_self ..)).more
  refine ⟨?_, fun u hu => h.lexical u (List.mem_cons_of_mem _ hu)⟩
  obtain ⟨e, he, hs⟩ := h.stream
  have ha : c.ahead = ts ++ [e] := (List.cons.inj hs).2
  unfold Cursor.advance
  rw [if_neg hk]
  cases hts : c.ahead with
  | nil => rw [hts] at ha; simp at ha
  | cons u us => exact ⟨e, he, by rw [← ha, hts]⟩

/-- Away from the end the cursor is on the first of the tokens it faces. -/
theorem Faces.uncons (h : c.Faces ts) (hk : c.kind ≠ .eof) :
    ∃ rest, ts = c.current :: rest ∧ c.advance.Faces rest := by
  cases ts with
  | nil => exact absurd h.kind_nil hk
  | cons t ts => exact ⟨ts, by rw [h.current], h.advance⟩

theorem Faces.mark (h : c.Faces ts) (hc : c.kind = k) (hk : k ≠ .eof) :
    ∃ rest, Mark k ts rest ∧ c.advance.Faces rest := by
  obtain ⟨rest, rfl, hr⟩ := h.uncons (hc ▸ hk)
  exact ⟨rest, ⟨c.current, hc, rfl⟩, hr⟩

theorem Faces.kind_of_mark (h : c.Faces ts) (hm : Mark k ts rest) : c.kind = k := by
  obtain ⟨t, rfl, rfl⟩ := hm
  exact h.kind_cons

theorem Faces.current_kind (h : c.Faces ts) (hm : Mark k ts rest) : c.current.kind = k :=
  h.kind_of_mark hm

theorem Faces.advance_of_mark (h : c.Faces ts) (hm : Mark k ts rest) : c.advance.Faces rest := by
  obtain ⟨t, rfl, rfl⟩ := hm
  exact h.advance

theorem Faces.kind_mem (h : c.Faces ts) (hs : StartsWith kinds ts) : c.kind ∈ kinds := by
  obtain ⟨t, rest, rfl, ht⟩ := hs
  rw [h.kind_cons]
  exact ht

theorem Faces.startsWith (h : c.Faces ts) (hk : c.kind ∈ kinds) (he : .eof ∉ kinds) :
    StartsWith kinds ts := by
  obtain ⟨rest, rfl, -⟩ := h.uncons fun e => he (e ▸ hk)
  exact ⟨_, rest, rfl, hk⟩

/-! ## Asking for tokens -/

theorem Faces.expectOr {cause : Cause} (h : c.Faces ts) (he : (c.expectOr k cause).errors = [])
    (hk : k ≠ .eof) : ∃ rest, Mark k ts rest ∧ (c.expectOr k cause).rest.Faces rest := by
  unfold Cursor.expectOr at he ⊢
  split at he
  · next hc =>
    rw [if_pos hc]
    exact h.mark hc hk
  · cases he

theorem Faces.expect (h : c.Faces ts) (he : (c.expect k).errors = []) (hk : k ≠ .eof) :
    ∃ rest, Mark k ts rest ∧ (c.expect k).rest.Faces rest :=
  h.expectOr he hk

theorem Faces.expectOr_of_mark (h : c.Faces ts) (hm : Mark k ts rest) (cause : Cause) :
    (c.expectOr k cause).errors = [] ∧ (c.expectOr k cause).rest.Faces rest := by
  unfold Cursor.expectOr
  rw [if_pos (h.kind_of_mark hm)]
  exact ⟨rfl, h.advance_of_mark hm⟩

theorem Faces.expect_of_mark (h : c.Faces ts) (hm : Mark k ts rest) :
    (c.expect k).errors = [] ∧ (c.expect k).rest.Faces rest :=
  h.expectOr_of_mark hm _

theorem Faces.accept? (h : c.Faces ts) (ha : c.accept? k = some d) (hk : k ≠ .eof) :
    ∃ rest, Mark k ts rest ∧ d.Faces rest := by
  unfold Cursor.accept? at ha
  split at ha
  · next hc => cases ha; exact h.mark hc hk
  · cases ha

theorem Faces.accept?_of_mark (h : c.Faces ts) (hm : Mark k ts rest) :
    ∃ d, c.accept? k = some d ∧ d.Faces rest :=
  ⟨c.advance, if_pos (h.kind_of_mark hm), h.advance_of_mark hm⟩

theorem Faces.accept?_eq_none (h : c.Faces ts) (hs : ¬ StartsWith [k] ts) (hk : k ≠ .eof) :
    c.accept? k = none := by
  refine if_neg fun hc => hs ?_
  exact h.startsWith (List.mem_singleton.2 hc) (by simpa using hk.symm)

/-- The two halves of a `>=`. -/
theorem Faces.split (h : c.Faces (t :: ts)) (ht : t.kind = .greaterEqual) :
    ∃ rest, Mark .greater rest (equalOf t :: ts) ∧ (c.split .greater .equal).Faces rest := by
  have hv := (h.lexical t (List.mem_cons_self ..)).greaterEqual ht
  have hl : c.current.value.toList = ['>', '='] := by
    rw [h.current, hv]
    rfl
  obtain ⟨e, he, hs⟩ := h.stream
  have ha : c.ahead = ts ++ [e] := (List.cons.inj hs).2
  refine ⟨⟨.greater, ">", { t.span with stop := t.span.start + 1 }⟩ :: equalOf t :: ts,
    ⟨_, rfl, rfl⟩, ⟨e, he, ?_⟩, fun u hu => ?_⟩
  · unfold Cursor.split
    rw [hl]
    simp only [ha, h.current]
    rfl
  · rcases List.mem_cons.1 hu with rfl | hu
    · exact .of_kind (by simp)
    · rcases List.mem_cons.1 hu with rfl | hu
      · exact .of_kind (by simp [equalOf])
      · exact h.lexical u (List.mem_cons_of_mem _ hu)

/-- The cursor on a text faces its tokens up to the end. -/
theorem ofTokens_faces (source file : String) :
    (ofTokens (Token.scan source file)).Faces
      ((Token.scan source file).filter fun t => t.kind ≠ .eof) := by
  obtain ⟨ts, e, hts, he, hall⟩ := Token.scanFrom_lexical file 0 source.toList
  have hscan : Token.scan source file = ts ++ [e] := hts
  have hfilter : (ts ++ [e]).filter (fun t => t.kind ≠ .eof) = ts := by
    rw [List.filter_append, List.filter_eq_self.2 fun t ht => decide_eq_true (hall t ht).more]
    simp [he]
  have hterm : terminated (ts ++ [e]) = ts ++ [e] := by
    simp [terminated, he]
  rw [hscan, hfilter]
  refine ⟨⟨e, he, ?_⟩, hall⟩
  unfold ofTokens
  rw [hterm]
  cases ts <;> rfl

end Cursor

end CatScript
