import CatScript.JavaScript.Emit
import CatScript.Proofs.Token.Recognised

/-!
# Lexemes of a script

How JavaScript cuts the text of an expression into lexemes: numbers, string literals, names and
marks, with blanks between them. A name may hold `$`. Every word counts as a name; which of them are
literals is a matter of what they mean.

A mark is the longest one that stands at its place, so `--` is never read as two signs, nor `!=` as
a sign in front of `=`, nor `//` as two divisions. A decimal number has no zero in front, and no name
may start right behind it.

A string literal ends at the next quote that is not escaped and holds no line break. A backslash
stands in front of a letter for a control character, in front of `x` or `u` for the character whose
hexadecimal number follows, and in front of any other character but a digit for that character.

Results:
* `lex_number`, `lex_string`, `lex_name`, `lex_mark`: what is cut off the front of a text.
* `readString_literal`: the literal of a text is read as the text.
-/
namespace CatScript.JavaScript

inductive Lexeme where
  | number (value : Nat)
  | string (value : String)
  | name (text : String)
  | mark (text : String)
  deriving DecidableEq, Repr

/-! ## Names, numbers and blanks -/

def startsName (c : Char) : Bool := Token.startsWord c || c = '$'

def inName (c : Char) : Bool := Token.inWord c || c = '$'

def isBlank (c : Char) : Bool := c = ' ' || c = '\t' || c = '\n' || c = '\r'

/-- Whether a number may end in front of this text. -/
def endsNumber : List Char → Bool
  | [] => true
  | c :: _ => !(inName c || c = '.')

/-- A number without zeros in front, from its first digit on. -/
def readNumber (c : Char) (cs : List Char) : Option (Lexeme × List Char) :=
  let digits := c :: cs.takeWhile Token.isDigit
  let rest := cs.dropWhile Token.isDigit
  if (c = '0' ∧ digits.length > 1) ∨ endsNumber rest = false then none
  else some (.number (Nat.ofDigitChars 10 digits 0), rest)

/-! ## Marks -/

/-- The marks of the language, longer ones first, and the two that start a comment. -/
def marks : List String :=
  [">>>=",
   "...", "===", "!==", "**=", "<<=", ">>=", ">>>", "&&=", "||=", "??=",
   "=>", "==", "!=", "<=", ">=", "&&", "||", "??", "?.", "++", "--", "+=", "-=", "*=", "/=", "%=",
   "&=", "|=", "^=", "<<", ">>", "**", "//", "/*",
   "(", ")", "[", "]", ".", ";", ",", "<", ">", "+", "-", "*", "/", "%", "&", "|", "^", "!", "~",
   "?", ":", "="]

/-- The longest mark in front of a text. -/
def readMark (cs : List Char) : Option (Lexeme × List Char) :=
  (marks.find? fun m => m.toList.isPrefixOf cs).map fun m =>
    (.mark m, cs.drop m.toList.length)

/-! ## String literals -/

def hexDigit? (c : Char) : Option Nat :=
  if '0' ≤ c ∧ c ≤ '9' then some (c.toNat - '0'.toNat)
  else if 'a' ≤ c ∧ c ≤ 'f' then some (c.toNat - 'a'.toNat + 10)
  else if 'A' ≤ c ∧ c ≤ 'F' then some (c.toNat - 'A'.toNat + 10)
  else none

/-- The character whose number the hexadecimal digits give. -/
def hexChar? (digits : List Char) : Option Char :=
  (digits.mapM hexDigit?).bind fun ds =>
    let n := ds.foldl (fun n d => 16 * n + d) 0
    if n.isValidChar then some (.ofNat n) else none

/-- What a character behind a backslash stands for, apart from `x` and `u`. -/
def escape? (c : Char) : Option Char :=
  if c = 'n' then some '\n'
  else if c = 't' then some '\t'
  else if c = 'r' then some '\r'
  else if c = 'b' then some '\x08'
  else if c = 'f' then some '\x0c'
  else if c = 'v' then some '\x0b'
  else if c = 'u' ∨ c = 'x' ∨ c = '\n' ∨ c = '\r' ∨ Token.isDigit c then none
  else some c

/-- A character that stands for itself. -/
def plain? (c : Char) : Option Char := if c = '\\' ∨ c = '\n' ∨ c = '\r' then none else some c

/-- One more character in front of what has been read. -/
def onto (char : Option Char) (tail : Option (List Char × List Char)) :
    Option (List Char × List Char) :=
  char.bind fun c => tail.map fun (value, rest) => (c :: value, rest)

/-- The inside of a literal, from behind its opening quote on, and what follows the closing one. -/
def readString : List Char → Option (List Char × List Char)
  | [] => none
  | '"' :: rest => some ([], rest)
  | '\\' :: 'u' :: a :: b :: c :: d :: rest => onto (hexChar? [a, b, c, d]) (readString rest)
  | '\\' :: 'x' :: a :: b :: rest => onto (hexChar? [a, b]) (readString rest)
  | '\\' :: c :: rest => onto (escape? c) (readString rest)
  | c :: rest => onto (plain? c) (readString rest)

/-! ## Cutting a text -/

/-- The first lexeme of a text that starts with no blank. -/
def firstLexeme (c : Char) (cs : List Char) : Option (Lexeme × List Char) :=
  if startsName c then
    some (.name (String.ofList (c :: cs.takeWhile inName)), cs.dropWhile inName)
  else if Token.isDigit c then readNumber c cs
  else if c = '"' then (readString cs).map fun (value, rest) => (.string (String.ofList value), rest)
  else readMark (c :: cs)

theorem onto_eq_some {char : Option Char} {tail : Option (List Char × List Char)}
    {value rest : List Char} (h : onto char tail = some (value, rest)) :
    ∃ value', tail = some (value', rest) := by
  obtain ⟨c, -, h⟩ := Option.bind_eq_some_iff.1 h
  obtain ⟨⟨value', rest'⟩, htail, he⟩ := Option.map_eq_some_iff.1 h
  cases he
  exact ⟨value', htail⟩

theorem readString_length {cs value rest : List Char} (h : readString cs = some (value, rest)) :
    rest.length < cs.length := by
  fun_induction readString cs generalizing value with
  | case1 => cases h
  | case2 => cases h; simp
  | case3 _ _ _ _ tail ih | case4 _ _ tail ih | case5 _ tail _ _ ih | case6 _ tail _ _ _ _ ih =>
    obtain ⟨value', htail⟩ := onto_eq_some h
    have := ih htail
    simp only [List.length_cons]
    omega

theorem marks_ne_nil : ∀ m ∈ marks, 0 < m.toList.length := by decide

theorem firstLexeme_length {c : Char} {cs rest : List Char} {l : Lexeme}
    (h : firstLexeme c cs = some (l, rest)) : rest.length < (c :: cs).length := by
  simp only [List.length_cons]
  unfold firstLexeme at h
  split at h
  · cases h
    have := (List.dropWhile_sublist inName (l := cs)).length_le
    omega
  split at h
  · dsimp only [readNumber] at h
    split at h
    · cases h
    · cases h
      have := (List.dropWhile_sublist Token.isDigit (l := cs)).length_le
      omega
  split at h
  · obtain ⟨⟨value, rest'⟩, hs, he⟩ := Option.map_eq_some_iff.1 h
    cases he
    have := readString_length hs
    omega
  · obtain ⟨m, hm, he⟩ := Option.map_eq_some_iff.1 h
    cases he
    have := marks_ne_nil m (List.mem_of_find?_eq_some hm)
    simp only [List.length_drop, List.length_cons]
    omega

/-- The lexemes of a text, if all of it can be cut. -/
def lex (cs : List Char) : Option (List Lexeme) :=
  match cs with
  | [] => some []
  | c :: cs =>
    if isBlank c then lex cs
    else
      match _h : firstLexeme c cs with
      | none => none
      | some (l, rest) => (lex rest).map (l :: ·)
termination_by cs.length
decreasing_by
  · simp
  · exact firstLexeme_length _h

@[simp] theorem lex_nil : lex [] = some [] := by rw [lex]

@[simp] theorem lex_blank (cs : List Char) : lex (' ' :: cs) = lex cs := by
  rw [lex, if_pos (by decide)]

theorem lex_cons {c : Char} {cs rest : List Char} {l : Lexeme} (hb : isBlank c = false)
    (h : firstLexeme c cs = some (l, rest)) : lex (c :: cs) = (lex rest).map (l :: ·) := by
  rw [lex, if_neg (by simp [hb])]
  split
  · next hn => rw [hn] at h; cases h
  · next l' rest' hs =>
    rw [hs] at h
    cases h
    rfl

/-! ## What is cut off the front of a text -/

/-- The text does not go on with a name. -/
def EndsName (rest : List Char) : Prop := ∀ c, rest.head? = some c → inName c = false

theorem isBlank_of_startsName {c : Char} (h : startsName c = true) : isBlank c = false := by
  rw [Bool.eq_false_iff]
  intro hb
  simp only [isBlank, Bool.or_eq_true, decide_eq_true_eq] at hb
  rcases hb with ((rfl | rfl) | rfl) | rfl <;> revert h <;> decide

theorem lex_name {c : Char} {cs rest : List Char} (hc : startsName c = true)
    (hcs : ∀ d ∈ cs, inName d = true) (hrest : EndsName rest) :
    lex (c :: cs ++ rest) = (lex rest).map (.name (String.ofList (c :: cs)) :: ·) := by
  obtain ⟨htake, hdrop⟩ := Token.takeWhile_append_of_all hcs hrest
  rw [List.cons_append]
  refine lex_cons (isBlank_of_startsName hc) ?_
  rw [firstLexeme, if_pos hc, htake, hdrop]

/-- Marks that no longer mark starts with. -/
theorem readMark_bracket {m : String} (hm : m ∈ ["(", ")", "[", "]", ","]) (rest : List Char) :
    readMark (m.toList ++ rest) = some (.mark m, rest) := by
  simp only [List.mem_cons, List.not_mem_nil, or_false] at hm
  rcases hm with rfl | rfl | rfl | rfl | rfl <;>
    simp [readMark, marks, List.isPrefixOf]

/-- Characters that can make a longer mark of one in front of them. -/
def joins (c : Char) : Bool := c ∈ ['-', '=', '*', '/', '<', '>', '.']

theorem readMark_operator {m : String} (hm : m ∈ ["-", "!", "*", "/", "<", "<=", ">", ">=", "."])
    {c : Char} (hc : joins c = false) (rest : List Char) :
    readMark (m.toList ++ c :: rest) = some (.mark m, c :: rest) := by
  simp only [joins, List.mem_cons, List.not_mem_nil, or_false, decide_eq_false_iff_not,
    not_or] at hc
  obtain ⟨h1, h2, h3, h4, h5, h6, h7⟩ := hc
  simp only [List.mem_cons, List.not_mem_nil, or_false] at hm
  rcases hm with rfl | rfl | rfl | rfl | rfl | rfl | rfl | rfl | rfl <;>
    simp [readMark, marks, List.isPrefixOf, Ne.symm h1, Ne.symm h2, Ne.symm h3, Ne.symm h4,
      Ne.symm h5, Ne.symm h6, Ne.symm h7]

/-- A mark starts no lexeme of another kind. -/
theorem lex_mark {m : String} {rest : List Char} (hm : m ∈ marks)
    (h : readMark (m.toList ++ rest) = some (.mark m, rest)) :
    lex (m.toList ++ rest) = (lex rest).map (.mark m :: ·) := by
  obtain ⟨c, cs, hc⟩ := List.exists_cons_of_length_pos (marks_ne_nil m hm)
  have hfirst : ∀ m ∈ marks, m.toList.head?.all (fun c =>
      !isBlank c && !startsName c && !Token.isDigit c && c != '"') = true := by decide +kernel
  have hthis := hfirst m hm
  simp only [hc, List.head?_cons, Option.all_some, Bool.and_eq_true, Bool.not_eq_true',
    bne_iff_ne] at hthis
  obtain ⟨⟨⟨hblank, hname⟩, hdigit⟩, hquote⟩ := hthis
  rw [hc, List.cons_append] at h ⊢
  refine lex_cons hblank ?_
  rw [firstLexeme, if_neg (by simp [hname]), if_neg (by simp [hdigit]), if_neg hquote, h]

theorem lex_bracket {m : String} (hm : m ∈ ["(", ")", "[", "]", ","]) (rest : List Char) :
    lex (m.toList ++ rest) = (lex rest).map (.mark m :: ·) := by
  refine lex_mark ?_ (readMark_bracket hm rest)
  have hall : ∀ m ∈ ["(", ")", "[", "]", ","], m ∈ marks := by decide
  exact hall m hm

theorem lex_operator {m : String} (hm : m ∈ ["-", "!", "*", "/", "<", "<=", ">", ">=", "."])
    {c : Char} (hc : joins c = false) (rest : List Char) :
    lex (m.toList ++ c :: rest) = (lex (c :: rest)).map (.mark m :: ·) := by
  refine lex_mark ?_ (readMark_operator hm hc rest)
  have hall : ∀ m ∈ ["-", "!", "*", "/", "<", "<=", ">", ">=", "."], m ∈ marks := by decide
  exact hall m hm

/-! ## Numbers -/

/-- No number is written with a zero in front. -/
theorem head?_toDigits {n : Nat} (h : 0 < n) : (Nat.toDigits 10 n).head? ≠ some '0' := by
  induction n using Nat.strongRecOn with
  | ind n ih =>
    by_cases hn : n < 10
    · rw [Nat.toDigits_of_lt_base hn]
      have : ∀ n < 10, 0 < n → [Nat.digitChar n].head? ≠ some '0' := by decide
      exact this n hn h
    · have hhead := ih (n / 10) (by omega) (by omega)
      obtain ⟨c, cs, hcs⟩ := List.exists_cons_of_ne_nil (Nat.toDigits_ne_nil (n := n / 10) (b := 10))
      rw [Nat.toDigits_of_base_le (by decide) (by omega), hcs]
      rw [hcs] at hhead
      exact hhead

/-- A digit starts neither a blank nor a name. -/
theorem isDigit_plain {c : Char} (h : Token.isDigit c = true) :
    isBlank c = false ∧ startsName c = false := by
  have hc : '0' ≤ c ∧ c ≤ '9' := by simpa [Token.isDigit] using h
  have hlo : 48 ≤ c.toNat := hc.1
  have hhi : c.toNat ≤ 57 := hc.2
  have hne (d : Char) (hd : d.toNat < 48 ∨ 57 < d.toNat) : c ≠ d := by
    rintro rfl
    omega
  have hletter : Token.isLetter c = false := by
    rw [Bool.eq_false_iff]
    intro hl
    have hl : ('a' ≤ c ∧ c ≤ 'z') ∨ ('A' ≤ c ∧ c ≤ 'Z') := by simpa [Token.isLetter] using hl
    rcases hl with ⟨ha, -⟩ | ⟨ha, -⟩
    · have : 97 ≤ c.toNat := ha
      omega
    · have : 65 ≤ c.toNat := ha
      omega
  refine ⟨?_, ?_⟩
  · simp [isBlank, hne ' ' (by decide), hne '\t' (by decide), hne '\n' (by decide),
      hne '\r' (by decide)]
  · simp [startsName, Token.startsWord, hletter, hne '_' (by decide), hne '$' (by decide)]

theorem lex_number (n : Nat) {rest : List Char} (hrest : endsNumber rest = true) :
    lex (Nat.toDigits 10 n ++ rest) = (lex rest).map (.number n :: ·) := by
  obtain ⟨c, cs, hcs⟩ := List.exists_cons_of_ne_nil (Nat.toDigits_ne_nil (n := n) (b := 10))
  have hdigits : ∀ d ∈ c :: cs, Token.isDigit d = true :=
    fun d hd => Token.isDigit_of_mem_toDigits (hcs ▸ hd)
  have hc := hdigits c (List.mem_cons_self ..)
  have hstop : ∀ d, rest.head? = some d → Token.isDigit d = false := by
    intro d hd
    obtain ⟨tail, rfl⟩ := List.head?_eq_some_iff.1 hd
    rw [Bool.eq_false_iff]
    intro hdigit
    simp [endsNumber, inName, Token.inWord, hdigit] at hrest
  obtain ⟨htake, hdrop⟩ := Token.takeWhile_append_of_all
    (fun d hd => hdigits d (List.mem_cons_of_mem _ hd)) hstop
  -- only the number zero starts with a zero, and it has no other digit
  have hzero : ¬ ((c = '0' ∧ (c :: cs).length > 1) ∨ endsNumber rest = false) := by
    rintro (⟨rfl, hlong⟩ | hend)
    · rcases Nat.eq_zero_or_pos n with rfl | hpos
      · rw [← hcs] at hlong
        revert hlong
        decide
      · exact head?_toDigits hpos (by rw [hcs]; rfl)
    · rw [hrest] at hend
      cases hend
  have hvalue : Nat.ofDigitChars 10 (c :: cs) 0 = n := hcs ▸ Nat.ofDigitChars_ten_toDigits
  rw [hcs, List.cons_append]
  refine lex_cons (isDigit_plain hc).1 ?_
  rw [firstLexeme, if_neg (by simp [(isDigit_plain hc).2]), if_pos hc]
  dsimp only [readNumber]
  rw [htake, hdrop, if_neg hzero, hvalue]

/-! ## Literals -/

/-- The character below the space that four hexadecimal digits stand for. -/
theorem readString_control {c : Char} (h : c.toNat < 0x20) (rest : List Char) :
    readString ('\\' :: 'u' :: hex4 c.toNat ++ rest) = onto (some c) (readString rest) := by
  have hall : ∀ n < 0x20, (hex4 n).length = 4 ∧ hexChar? (hex4 n) = some (Char.ofNat n) := by
    decide
  obtain ⟨hlength, hchar⟩ := hall c.toNat h
  obtain ⟨a, b, d, e, hhex⟩ : ∃ a b d e, hex4 c.toNat = [a, b, d, e] := by
    match hex4 c.toNat, hlength with
    | [a, b, d, e], _ => exact ⟨a, b, d, e, rfl⟩
  rw [hhex] at hchar ⊢
  simp only [List.cons_append, List.nil_append, readString, hchar, Char.ofNat_toNat]

/-- A character is read as it is written in a literal. -/
theorem readString_literalChar (c : Char) (rest : List Char) :
    readString (literalChar c ++ rest) = onto (some c) (readString rest) := by
  unfold literalChar
  split
  · next h => subst h; rfl
  split
  · next h => subst h; rfl
  split
  · next h => subst h; rfl
  split
  · next h => subst h; rfl
  split
  · next h => subst h; rfl
  split
  · next h => exact readString_control h rest
  · next hquote hback hline hreturn _ _ =>
    rw [List.singleton_append, readString]
    · rw [plain?, if_neg (by simp [hback, hline, hreturn])]
    all_goals simp_all

theorem readString_literal (s rest : List Char) :
    readString (s.flatMap literalChar ++ '"' :: rest) = some (s, rest) := by
  induction s with
  | nil => rfl
  | cons c s ih =>
    rw [List.flatMap_cons, List.append_assoc, readString_literalChar, ih]
    rfl

theorem lex_string (s : String) (rest : List Char) :
    lex ((literal s).toList ++ rest) = (lex rest).map (.string s :: ·) := by
  have hlit : (literal s).toList ++ rest = '"' :: (s.toList.flatMap literalChar ++ '"' :: rest) := by
    simp [literal]
  rw [hlit]
  refine lex_cons (by decide) ?_
  have hquote : startsName '"' = false ∧ Token.isDigit '"' = false := by decide
  rw [firstLexeme, if_neg (by simp [hquote.1]), if_neg (by simp [hquote.2]), if_pos rfl,
    readString_literal]
  simp

end CatScript.JavaScript
