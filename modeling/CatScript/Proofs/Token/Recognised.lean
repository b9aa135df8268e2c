import CatScript.Proofs.Token.Lossless
import CatScript.Text.Decimal

/-!
# Tokens at the front of a text

Which characters a token takes is decided by the characters themselves and by the next one: a word
ends in front of a character that no word holds, an integer in front of one that is no digit, an
operator where no longer one and no comment stands. A string literal ends at its quote, whatever
follows. `Recognised` says this by itself, without the scanner.

A token is read again from its own text, in front of anything that starts with the same character or
with white space (`Recognised.resumes`). This is not so for unrecognised text: a quote that opens no
literal may open one when more text follows.

Results:
* `Recognised.scanFrom`, `scanFrom_blanks`, `scanFrom_gap`: what scanning makes of a text that starts
  with a recognised token, with white space, or with a gap.
* `recognised_of_firstPiece`: a token that scanning gives is recognised, unless it is an error token.
* `divided_of_scanFrom`: a text without error tokens consists of recognised tokens and gaps.
* `Divided.newline`: such a text is scanned alike in front of a line break.
-/
namespace CatScript

/-- The digits of an integer without a sign. -/
theorem Text.toList_decimal {v : Int64} (h : 0 ≤ v) :
    (decimal v).toList = Nat.toDigits 10 v.toInt.toNat := by
  have hpos : 0 ≤ v.toInt := by simpa using Int64.le_iff_toInt_le.1 h
  obtain ⟨n, hn⟩ := Int.eq_ofNat_of_zero_le hpos
  rw [decimal, hn]
  exact Nat.toList_repr

namespace Token

open Text (bytes isBlank)

/-! ## Characters -/

/-- The text does not start with a character of the class. -/
def Stops (p : Char → Bool) (cs : List Char) : Prop := ∀ c ∈ cs.head?, p c = false

theorem stops_nil (p : Char → Bool) : Stops p [] := nofun

theorem stops_cons {p : Char → Bool} {c : Char} {cs : List Char} :
    Stops p (c :: cs) ↔ p c = false := by
  simp [Stops]

theorem stops_dropWhile (p : Char → Bool) (cs : List Char) : Stops p (cs.dropWhile p) := by
  intro c hc
  have hstop := List.head?_dropWhile_not p cs
  rw [Option.mem_def.1 hc] at hstop
  simpa using hstop

theorem takeWhile_append_of_all {p : Char → Bool} {cs rest : List Char} (h : ∀ c ∈ cs, p c = true)
    (hrest : Stops p rest) : (cs ++ rest).takeWhile p = cs ∧ (cs ++ rest).dropWhile p = rest := by
  rw [List.takeWhile_append_of_pos h, List.dropWhile_append_of_pos h]
  cases rest with
  | nil => simp
  | cons c rest => simp [stops_cons.1 hrest]

theorem isDigit_iff {c : Char} : isDigit c = true ↔ 48 ≤ c.toNat ∧ c.toNat ≤ 57 := by
  simp only [isDigit, Bool.and_eq_true, decide_eq_true_eq]
  exact Iff.rfl

theorem isLetter_iff {c : Char} : isLetter c = true ↔
    (97 ≤ c.toNat ∧ c.toNat ≤ 122) ∨ (65 ≤ c.toNat ∧ c.toNat ≤ 90) := by
  simp only [isLetter, Bool.or_eq_true, Bool.and_eq_true, decide_eq_true_eq]
  exact Iff.rfl

theorem inWord_iff {c : Char} :
    inWord c = true ↔ startsWord c = true ∨ isDigit c = true := by
  simp only [inWord, startsWord, Bool.or_eq_true]
  exact or_right_comm

theorem startsWord_of_isDigit {c : Char} (h : isDigit c = true) : startsWord c = false := by
  rw [isDigit_iff] at h
  rw [Bool.eq_false_iff, startsWord, ne_eq, Bool.or_eq_true, isLetter_iff, decide_eq_true_eq,
    not_or]
  refine ⟨by omega, ?_⟩
  rintro rfl
  revert h
  decide

theorem isDigit_of_mem_toDigits {n : Nat} {c : Char} (h : c ∈ Nat.toDigits 10 n) :
    isDigit c = true := by
  have := Nat.isDigit_of_mem_toDigits (by decide) (by decide) h
  simpa [isDigit, Char.isDigit, Char.le_def] using this

/-- White space is in no word, no literal starts with it, and no longer operator ends in it. -/
theorem isBlank_plain {c : Char} (h : isBlank c = true) :
    inWord c = false ∧ c ≠ '"' ∧ c ≠ '=' ∧ c ≠ '/' := by
  have hcode : c.toNat ≤ 32 ∨ 127 < c.toNat := by
    obtain ⟨r, hr, hlo, hhi⟩ := (Text.CharSet.contains_iff _ c).1 h
    have hall : ∀ r ∈ Text.blanks, r.2 ≤ 32 ∨ 127 < r.1 := by decide
    rcases hall r hr with hle | hlt
    · exact .inl (Nat.le_trans hhi hle)
    · exact .inr (Nat.lt_of_lt_of_le hlt hlo)
  have hne (d : Char) (hd : 32 < d.toNat ∧ d.toNat ≤ 127) : c ≠ d := by
    rintro rfl
    omega
  refine ⟨?_, hne '"' (by decide), hne '=' (by decide), hne '/' (by decide)⟩
  rw [Bool.eq_false_iff]
  intro hword
  rw [inWord_iff, isDigit_iff, startsWord, Bool.or_eq_true, isLetter_iff,
    decide_eq_true_eq] at hword
  rcases hword with (hletter | rfl) | hdigit
  · omega
  · exact hne '_' (by decide) rfl
  · omega

theorem Stops.of_inWord {cs : List Char} (h : Stops inWord cs) : Stops isDigit cs := by
  intro c hc
  have hword := h c hc
  rw [Bool.eq_false_iff] at hword ⊢
  exact fun hdigit => hword (inWord_iff.2 (.inr hdigit))

/-! ## Recognised tokens -/

/-- The text does not make a longer operator or a comment of the character in front of it. -/
def Parts (c : Char) (cs : List Char) : Prop :=
  ∀ d ∈ cs.head?, pairKind? c d = none ∧ ¬ (c = '/' ∧ d = '/')

/-- A token of this kind and value is read from `text` in front of `rest`. -/
inductive Recognised : Kind → String → List Char → List Char → Prop
  | word {c : Char} {cs rest : List Char} : startsWord c = true → (∀ d ∈ cs, inWord d = true) →
      Stops inWord rest →
      Recognised (.ofWord (String.ofList (c :: cs))) (String.ofList (c :: cs)) (c :: cs) rest
  | integer {c : Char} {cs rest : List Char} : isDigit c = true → (∀ d ∈ cs, isDigit d = true) →
      Stops isDigit rest → Recognised .integer (String.ofList (c :: cs)) (c :: cs) rest
  | literal {cs body after rest : List Char} : closeLiteral? cs = some (body, after) →
      Recognised .string (String.ofList (unescape body.dropLast)) ('"' :: body) rest
  | pair {kind : Kind} {c d : Char} {rest : List Char} : pairKind? c d = some kind →
      Recognised kind (String.ofList [c, d]) [c, d] rest
  | mark {kind : Kind} {c : Char} {rest : List Char} : markKind? c = some kind → Parts c rest →
      Recognised kind (String.ofList [c]) [c] rest

variable {kind : Kind} {value : String} {text rest rest' : List Char}

theorem eq_equal_of_pairKind? {c d : Char} (h : pairKind? c d = some kind) : d = '=' := by
  unfold pairKind? at h
  split at h <;> cases h <;> rfl

/-- A word is recognised in front of a text that does not go on with it. -/
theorem recognised_word {word : String} (hkind : .ofWord word = kind)
    (hstart : word.toList.head?.any startsWord = true)
    (hall : word.toList.all inWord = true) (hrest : Stops inWord rest) :
    Recognised kind word word.toList rest := by
  subst hkind
  cases hword : word.toList with
  | nil =>
    rw [hword] at hstart
    cases hstart
  | cons c cs =>
    rw [hword] at hstart hall
    have hvalue : word = String.ofList (c :: cs) := by rw [← hword, String.ofList_toList]
    rw [hvalue]
    exact .word hstart (fun d hd => List.all_eq_true.1 hall d (List.mem_cons_of_mem _ hd)) hrest

theorem mem_of_pairKind? {c d : Char} (h : pairKind? c d = some kind) :
    c ∈ ['=', '!', '<', '>', '/'] := by
  unfold pairKind? at h
  split at h <;> cases h <;> decide

/-- Other characters are not the start of something longer. -/
theorem parts_of_plain {c : Char} (h : c ∉ ['=', '!', '<', '>', '/']) (cs : List Char) :
    Parts c cs := by
  intro d _
  refine ⟨?_, ?_⟩
  · cases hpair : pairKind? c d with
    | none => rfl
    | some kind => exact absurd (mem_of_pairKind? hpair) h
  · rintro ⟨rfl, -⟩
    exact h (by decide)

/-- A character is not the start of something longer, if no `=` follows and it is no comment. -/
theorem parts_of_first {c : Char} {cs : List Char}
    (h : ∀ d ∈ cs.head?, d ≠ '=' ∧ ¬ (c = '/' ∧ d = '/')) : Parts c cs := by
  intro d hd
  refine ⟨?_, (h d hd).2⟩
  cases hpair : pairKind? c d with
  | none => rfl
  | some kind => exact absurd (eq_equal_of_pairKind? hpair) (h d hd).1

theorem parts_of_blank {c : Char} {cs : List Char} (h : ∀ d ∈ cs.head?, isBlank d = true) :
    Parts c cs := by
  refine parts_of_first fun d hd => ?_
  obtain ⟨-, -, hequal, hslash⟩ := isBlank_plain (h d hd)
  exact ⟨hequal, fun hcomment => hslash hcomment.2⟩

/-- `rest'` starts as `rest` does, or with white space, or it is the end. -/
def Resumes (rest rest' : List Char) : Prop :=
  rest'.head? = rest.head? ∨ ∀ c ∈ rest'.head?, isBlank c = true

theorem Resumes.stops {p : Char → Bool} (hr : Resumes rest rest')
    (hp : ∀ c, p c = true → inWord c = true) (h : Stops p rest) : Stops p rest' := by
  rcases hr with he | hblank
  · rwa [Stops, he]
  · intro c hc
    rw [Bool.eq_false_iff]
    intro hpc
    have hword := (isBlank_plain (hblank c hc)).1
    rw [hp c hpc] at hword
    cases hword

theorem Resumes.parts {c : Char} (hr : Resumes rest rest') (h : Parts c rest) : Parts c rest' := by
  rcases hr with he | hblank
  · rwa [Parts, he]
  · exact parts_of_blank hblank

/-- A recognised token does not depend on what follows it, but for the next character. -/
theorem Recognised.resumes (h : Recognised kind value text rest) (hr : Resumes rest rest') :
    Recognised kind value text rest' := by
  cases h with
  | word hc hcs hrest => exact .word hc hcs (hr.stops (fun _ h => h) hrest)
  | integer hc hcs hrest =>
    exact .integer hc hcs (hr.stops (fun _ h => inWord_iff.2 (.inr h)) hrest)
  | literal hclose => exact .literal hclose
  | pair hpair => exact .pair hpair
  | mark hmark hrest => exact .mark hmark (hr.parts hrest)

/-! ## Recognised tokens are read -/

/-- The literal ends at its own quote, whatever follows. -/
theorem closeLiteral?_again {cs body after : List Char} (h : closeLiteral? cs = some (body, after))
    (after' : List Char) : closeLiteral? (body ++ after') = some (body, after') := by
  fun_induction closeLiteral? cs generalizing body after with
  | case1 => cases h
  | case2 => cases h; rfl
  | case3 => cases h
  | case4 c rest hc ih =>
    obtain ⟨⟨b, a⟩, hr, he⟩ := Option.map_eq_some_iff.1 h
    cases he
    simp only [List.cons_append, closeLiteral?, if_neg hc, ih hr, Option.map_some]
  | case5 => cases h
  | case6 c rest hquote hslash hlast ih =>
    obtain ⟨⟨b, a⟩, hr, he⟩ := Option.map_eq_some_iff.1 h
    cases he
    have hbs : c ≠ '\\' := by
      rintro rfl
      cases rest with
      | nil => exact hlast rfl rfl
      | cons d ds => exact hslash d ds rfl rfl
    rw [List.cons_append, closeLiteral?, ih hr]
    · rfl
    all_goals simp_all

/-- Operators and brackets start with a character that starts nothing else. -/
theorem firstPiece_of_mark {c : Char} {cs : List Char}
    (hc : (inWord c || isBlank c || c = '"') = false)
    (hcomment : ¬ (c = '/' ∧ cs.head? = some '/')) : firstPiece c cs = markPiece c cs := by
  simp only [Bool.or_eq_false_iff, decide_eq_false_iff_not] at hc
  obtain ⟨⟨hword, hblank⟩, hquote⟩ := hc
  have hstart : ¬ startsWord c = true := fun h => by simp [inWord_iff.2 (.inl h)] at hword
  have hdigit : ¬ isDigit c = true := fun h => by simp [inWord_iff.2 (.inr h)] at hword
  rw [firstPiece, if_neg hstart, if_neg hdigit, if_neg (by simp [hblank]), if_neg hquote,
    if_neg hcomment]

theorem firstPiece_pair {c d : Char} (h : pairKind? c d = some kind) (rest : List Char) :
    firstPiece c (d :: rest) = .verbatim kind [c, d] rest := by
  have hplain : (inWord c || isBlank c || c = '"') = false ∧ c ≠ '/' := by
    unfold pairKind? at h
    split at h <;> cases h <;> decide
  rw [firstPiece_of_mark hplain.1 fun hcomment => hplain.2 hcomment.1]
  simp only [markPiece, h]

theorem firstPiece_mark {c : Char} (h : markKind? c = some kind) (hrest : Parts c rest) :
    firstPiece c rest = .verbatim kind [c] rest := by
  have hplain : (inWord c || isBlank c || c = '"') = false := by
    unfold markKind? at h
    split at h <;> cases h <;> decide
  rw [firstPiece_of_mark hplain fun hcomment => (hrest '/' hcomment.2).2 ⟨hcomment.1, rfl⟩]
  cases rest with
  | nil => simp only [markPiece, h, Option.getD_some]
  | cons d ds => simp only [markPiece, (hrest d rfl).1, h, Option.getD_some]

theorem Recognised.firstPiece (h : Recognised kind value text rest) :
    ∃ c cs, text = c :: cs ∧ firstPiece c (cs ++ rest) = ⟨text, rest, some (kind, value)⟩ := by
  cases h with
  | @word c cs _ hc hcs hrest =>
    obtain ⟨htake, hdrop⟩ := takeWhile_append_of_all hcs hrest
    refine ⟨c, cs, rfl, ?_⟩
    simp only [Token.firstPiece, if_pos hc, htake, hdrop]
  | @integer c cs _ hc hcs hrest =>
    obtain ⟨htake, hdrop⟩ := takeWhile_append_of_all hcs hrest
    refine ⟨c, cs, rfl, ?_⟩
    simp only [Token.firstPiece, startsWord_of_isDigit hc, Bool.false_eq_true, if_false, if_pos hc,
      htake, hdrop, Piece.verbatim]
  | @literal _ body _ _ hclose =>
    have hplain : startsWord '"' = false ∧ isDigit '"' = false ∧ isBlank '"' = false := by decide
    refine ⟨'"', body, rfl, ?_⟩
    simp only [Token.firstPiece, hplain, Bool.false_eq_true, if_false, if_true,
      closeLiteral?_again hclose rest]
  | @pair _ c d _ hpair => exact ⟨c, [d], rfl, firstPiece_pair hpair rest⟩
  | @mark _ c _ hmark hrest => exact ⟨c, [], rfl, firstPiece_mark hmark hrest⟩

theorem Recognised.scanFrom (h : Recognised kind value text rest) (file : String) (offset : Nat) :
    scanFrom file offset (text ++ rest) = ⟨kind, value, ⟨file, offset, offset + bytes text⟩⟩ ::
      scanFrom file (offset + bytes text) rest := by
  obtain ⟨c, cs, rfl, hpiece⟩ := h.firstPiece
  rw [List.cons_append, Token.scanFrom]
  simp only [hpiece]

theorem firstPiece_blank {c : Char} (h : isBlank c = true) (cs : List Char) :
    Token.firstPiece c cs = ⟨c :: cs.takeWhile isBlank, cs.dropWhile isBlank, none⟩ := by
  have hword := (isBlank_plain h).1
  have hstart : ¬ startsWord c = true := fun h => by simp [inWord_iff.2 (.inl h)] at hword
  have hdigit : ¬ isDigit c = true := fun h => by simp [inWord_iff.2 (.inr h)] at hword
  rw [Token.firstPiece, if_neg hstart, if_neg hdigit, if_pos h]

theorem scanFrom_dropWhile (file : String) (offset : Nat) (cs : List Char) :
    scanFrom file offset cs =
      scanFrom file (offset + bytes (cs.takeWhile isBlank)) (cs.dropWhile isBlank) := by
  cases cs with
  | nil => rfl
  | cons c cs =>
    by_cases hc : isBlank c = true
    · rw [scanFrom, List.takeWhile_cons_of_pos hc, List.dropWhile_cons_of_pos hc]
      simp only [firstPiece_blank hc]
    · rw [List.takeWhile_cons_of_neg hc, List.dropWhile_cons_of_neg hc, Text.bytes_nil,
        Nat.add_zero]

/-- White space in front of a text only moves its tokens. -/
theorem scanFrom_blanks {ws : List Char} (h : ∀ c ∈ ws, isBlank c = true) (file : String)
    (offset : Nat) (cs : List Char) :
    scanFrom file offset (ws ++ cs) = scanFrom file (offset + bytes ws) cs := by
  rw [scanFrom_dropWhile, List.takeWhile_append_of_pos h, List.dropWhile_append_of_pos h,
    Text.bytes_append, ← Nat.add_assoc, ← scanFrom_dropWhile]

theorem scanFrom_blank {c : Char} (h : isBlank c = true) (file : String) (offset : Nat)
    (cs : List Char) : scanFrom file offset (c :: cs) = scanFrom file (offset + bytes [c]) cs := by
  rw [← List.singleton_append]
  exact scanFrom_blanks (by simpa using h) file offset cs

theorem scanFrom_comment {body rest : List Char} (hbody : '\n' ∉ body)
    (hrest : ∀ c ∈ rest.head?, c = '\n') (file : String) (offset : Nat) :
    scanFrom file offset ('/' :: '/' :: (body ++ rest)) =
      scanFrom file (offset + bytes ('/' :: '/' :: body)) rest := by
  have hline : ∀ c ∈ '/' :: body, decide (c ≠ '\n') = true := by
    intro c hc
    rcases List.mem_cons.1 hc with rfl | hc
    · decide
    · exact decide_eq_true fun he => hbody (he ▸ hc)
  have hstop : Stops (· ≠ '\n') rest := fun c hc => by simp [hrest c hc]
  obtain ⟨htake, hdrop⟩ := takeWhile_append_of_all hline hstop
  have hplain : startsWord '/' = false ∧ isDigit '/' = false ∧ isBlank '/' = false := by decide
  have hpiece : Token.firstPiece '/' ('/' :: body ++ rest) = ⟨'/' :: '/' :: body, rest, none⟩ := by
    rw [Token.firstPiece, htake, hdrop]
    simp [hplain]
  rw [← List.cons_append, scanFrom]
  simp only [hpiece]

/-- A gap in front of a text only moves its tokens. -/
theorem scanFrom_gap {gap after : List Char} (h : Gap after gap) (file : String) (offset : Nat) :
    scanFrom file offset (gap ++ after) = scanFrom file (offset + bytes gap) after := by
  induction h generalizing offset with
  | nil => rfl
  | @blank c cs hc _ ih =>
    rw [List.cons_append, scanFrom_blank hc, ih, Text.bytes_cons, Text.bytes_cons, Text.bytes_nil,
      Nat.add_zero, Nat.add_assoc]
  | @comment body cs hbody hend _ ih =>
    rw [List.cons_append, List.cons_append, List.append_assoc, scanFrom_comment hbody hend, ih]
    simp only [Text.bytes_cons, Text.bytes_append, Nat.add_assoc]

/-! ## Tokens that are read are recognised -/

theorem recognised_of_markPiece {c : Char} {cs : List Char}
    (hcomment : ¬ (c = '/' ∧ cs.head? = some '/'))
    (h : (markPiece c cs).token = some (kind, value)) (hk : kind ≠ .error) :
    Recognised kind value (markPiece c cs).taken (markPiece c cs).rest := by
  have hmark : ∀ {k : Kind}, (markKind? c).getD .error = k → k ≠ .error → markKind? c = some k := by
    intro k hget hne
    cases hm : markKind? c with
    | none => rw [hm] at hget; exact absurd hget.symm hne
    | some k' => rw [hm] at hget; exact congrArg some hget
  cases cs with
  | nil =>
    cases h
    exact .mark (hmark rfl hk) nofun
  | cons d ds =>
    cases hpair : pairKind? c d with
    | some k =>
      simp only [markPiece, hpair] at h ⊢
      cases h
      exact .pair hpair
    | none =>
      simp only [markPiece, hpair] at h ⊢
      cases h
      refine .mark (hmark rfl hk) fun e he => ?_
      cases he
      exact ⟨hpair, fun hslash => hcomment ⟨hslash.1, congrArg some hslash.2⟩⟩

/-- A token is recognised, unless it is an error token. -/
theorem recognised_of_firstPiece {c : Char} {cs : List Char}
    (h : (Token.firstPiece c cs).token = some (kind, value)) (hk : kind ≠ .error) :
    Recognised kind value (Token.firstPiece c cs).taken (Token.firstPiece c cs).rest := by
  unfold Token.firstPiece at h ⊢
  by_cases hword : startsWord c = true
  · simp only [if_pos hword] at h ⊢
    cases h
    exact .word hword (List.all_eq_true.1 List.all_takeWhile) (stops_dropWhile _ _)
  by_cases hdigit : isDigit c = true
  · simp only [if_neg hword, if_pos hdigit] at h ⊢
    cases h
    exact .integer hdigit (List.all_eq_true.1 List.all_takeWhile) (stops_dropWhile _ _)
  by_cases hblank : isBlank c = true
  · simp only [if_neg hword, if_neg hdigit, if_pos hblank] at h
    cases h
  by_cases hquote : c = '"'
  · subst hquote
    simp only [if_neg hword, if_neg hdigit, if_neg hblank, if_true] at h ⊢
    cases hclose : closeLiteral? cs with
    | none =>
      rw [hclose] at h
      cases h
      exact absurd rfl hk
    | some p =>
      rw [hclose] at h
      cases h
      exact .literal hclose
  by_cases hcomment : c = '/' ∧ cs.head? = some '/'
  · simp only [if_neg hword, if_neg hdigit, if_neg hblank, if_neg hquote, if_pos hcomment] at h
    cases h
  simp only [if_neg hword, if_neg hdigit, if_neg hblank, if_neg hquote, if_neg hcomment] at h ⊢
  exact recognised_of_markPiece hcomment h hk

/-! ## Texts without error tokens -/

/-- The text from byte `offset` on consists of these tokens, each recognised in front of what
follows it, with gaps between. -/
inductive Divided (file : String) : Nat → List Char → List Token → Prop
  | done {offset : Nat} {gap : List Char} : Gap [] gap → Divided file offset gap []
  | token {offset start stop : Nat} {kind : Kind} {value : String} {gap text after : List Char}
      {tokens : List Token} : Gap (text ++ after) gap → Recognised kind value text after →
      start = offset + bytes gap → stop = start + bytes text → Divided file stop after tokens →
      Divided file offset (gap ++ (text ++ after)) (⟨kind, value, ⟨file, start, stop⟩⟩ :: tokens)

theorem Divided.skip {file : String} {offset : Nat} {skipped cs : List Char} {tokens : List Token}
    (hgap : Gap cs skipped) (h : Divided file (offset + bytes skipped) cs tokens) :
    Divided file offset (skipped ++ cs) tokens := by
  cases h with
  | done hdone => exact .done (.append (by simpa using hgap) hdone)
  | token hg hr hstart hstop hrest =>
    rw [← List.append_assoc]
    exact .token (.append hgap hg) hr (by simp [hstart, Nat.add_assoc]) hstop hrest

/-- A text without error tokens consists of its tokens. -/
theorem divided_of_scanFrom (file : String) (offset : Nat) (cs : List Char) :
    (∀ t ∈ scanFrom file offset cs, t.kind ≠ .error) →
    ∃ ts, scanFrom file offset cs = ts ++ [.endAt ⟨file, offset + bytes cs, offset + bytes cs⟩] ∧
      Divided file offset cs ts := by
  fun_induction scanFrom file offset cs with
  | case1 offset => exact fun _ => ⟨[], rfl, .done .nil⟩
  | case2 offset c cs piece next kind value htoken ih =>
    intro herror
    rw [List.forall_mem_cons] at herror
    obtain ⟨ts, hts, hdivided⟩ := ih herror.2
    have hcs : piece.taken ++ piece.rest = c :: cs := taken_append_rest c cs
    refine ⟨⟨kind, value, ⟨file, offset, next⟩⟩ :: ts, ?_, ?_⟩
    · rw [hts, ← hcs, Text.bytes_append, ← Nat.add_assoc]
      rfl
    · rw [← hcs]
      exact .token .nil (recognised_of_firstPiece htoken herror.1) rfl rfl hdivided
  | case3 offset c cs piece next htoken ih =>
    intro herror
    obtain ⟨ts, hts, hdivided⟩ := ih herror
    have hcs : piece.taken ++ piece.rest = c :: cs := taken_append_rest c cs
    have hgap : Gap piece.rest piece.taken := by
      have hsound := firstPiece_sound c cs
      rwa [Piece.Sound, show (Token.firstPiece c cs).token = none from htoken] at hsound
    refine ⟨ts, ?_, ?_⟩
    · rw [hts, ← hcs, Text.bytes_append, ← Nat.add_assoc]
    · rw [← hcs]
      exact hdivided.skip hgap

theorem Gap.newline {after gap : List Char} (h : Gap after gap) (more : List Char) :
    Gap (after ++ '\n' :: more) gap := by
  induction h with
  | nil => exact .nil
  | blank hc _ ih => exact .blank hc ih
  | @comment body cs hbody hend _ ih =>
    refine .comment hbody ?_ ih
    rw [← List.append_assoc]
    intro c hc
    cases hcs : cs ++ after with
    | nil =>
      rw [hcs] at hc
      simpa using hc.symm
    | cons d ds =>
      rw [hcs] at hc hend
      exact hend c hc

theorem resumes_newline (rest more : List Char) : Resumes rest (rest ++ '\n' :: more) := by
  cases rest with
  | nil => exact .inr fun c hc => by cases hc; decide
  | cons c cs => exact .inl rfl

/-- Such a text has the same tokens in front of a line break. -/
theorem Divided.newline {file : String} {offset : Nat} {cs : List Char} {ts : List Token}
    (h : Divided file offset cs ts) (more : List Char) :
    scanFrom file offset (cs ++ '\n' :: more) =
      ts ++ scanFrom file (offset + bytes cs) ('\n' :: more) := by
  induction h with
  | @done offset gap hgap => exact scanFrom_gap (hgap.newline more) file offset
  | @token offset start stop kind value gap text after ts hgap hread hstart hstop _ ih =>
    subst hstart hstop
    have hgap' := hgap.newline more
    rw [List.append_assoc] at hgap'
    rw [List.append_assoc, List.append_assoc, scanFrom_gap hgap',
      (hread.resumes (resumes_newline after more)).scanFrom, ih]
    simp only [Text.bytes_append, Nat.add_assoc, List.cons_append]

end Token

end CatScript
