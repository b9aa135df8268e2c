import CatScript.JavaScript.Emit
import CatScript.Proofs.Grammar.Concatenation

/-!
# Script literals in a source

A literal that is written for a script is a literal of the source language as well. The five
characters that a script writes by a letter behind a backslash are the five that a source reads in
this way, and no other character is written with a backslash, apart from the control characters
below the space. These have a number behind a backslash in a script, and the source language knows
no numbers: it would keep the backslash and the digits.

The closing quote of such a literal is the first one that no backslash escapes, since every
backslash stands in front of the one character that it was written for. So the token ends with the
literal, whatever follows. How the literal is read does not depend on offsets. The spans of the
tokens are exact as all spans are, for a text of less than 2^32 bytes.

Results:
* `recognised_literal`: the literal of a text is a token whose value is the text.
* `scan_literal`: it is the first token of every source that starts with it, and the others are
  those of the rest.
-/
namespace CatScript.Token

open Text (bytes)
open JavaScript (literal literalChar)

/-- A character that has no number in a literal. -/
def Unnumbered (c : Char) : Prop := 0x20 ≤ c.toNat ∨ c = '\n' ∨ c = '\t' ∨ c = '\r'

/-- Such a character is written by a letter behind a backslash, or as itself. -/
theorem literalChar_cases {c : Char} (h : Unnumbered c) :
    (∃ d, literalChar c = ['\\', d] ∧ d ≠ '\n' ∧
      ∀ rest, unescape ('\\' :: d :: rest) = c :: unescape rest) ∨
    literalChar c = [c] ∧ c ≠ '"' ∧ c ≠ '\\' := by
  unfold literalChar
  split
  · next hc => exact .inl ⟨'"', rfl, by decide, fun rest => by rw [unescape, hc]⟩
  split
  · next hc => exact .inl ⟨'\\', rfl, by decide, fun rest => by rw [unescape, hc]⟩
  split
  · next hc => exact .inl ⟨'n', rfl, by decide, fun rest => by rw [unescape, hc]⟩
  split
  · next hc => exact .inl ⟨'r', rfl, by decide, fun rest => by rw [unescape, hc]⟩
  split
  · next hc => exact .inl ⟨'t', rfl, by decide, fun rest => by rw [unescape, hc]⟩
  next hquote hback hline hreturn htab =>
  rw [if_neg]
  · exact .inr ⟨rfl, hquote, hback⟩
  · rcases h with h | h | h | h
    · omega
    · exact absurd h hline
    · exact absurd h htab
    · exact absurd h hreturn

/-! ## The end of a literal -/

/-- What is written for a character neither ends a literal nor hides its end. -/
theorem closeLiteral?_literalChar {c : Char} (h : Unnumbered c) (rest : List Char) :
    closeLiteral? (literalChar c ++ rest) =
      (closeLiteral? rest).map fun (body, after) => (literalChar c ++ body, after) := by
  rcases literalChar_cases h with ⟨d, hd, hline, -⟩ | ⟨hc, hquote, hback⟩
  · rw [hd, List.cons_append, List.singleton_append, closeLiteral?, if_neg hline]
    rfl
  · rw [hc, List.singleton_append, closeLiteral?]
    · rfl
    · exact hquote
    · intro d ds he
      exact absurd he hback
    · intro he
      exact absurd he hback

theorem closeLiteral?_literal {s : List Char} (h : ∀ c ∈ s, Unnumbered c) :
    closeLiteral? (s.flatMap literalChar ++ ['"']) = some (s.flatMap literalChar ++ ['"'], []) := by
  induction s with
  | nil => rfl
  | cons c s ih =>
    rw [List.forall_mem_cons] at h
    rw [List.flatMap_cons, List.append_assoc, closeLiteral?_literalChar h.1, ih h.2]
    rfl

/-! ## The value of a literal -/

theorem unescape_literalChar {c : Char} (h : Unnumbered c) (rest : List Char) :
    unescape (literalChar c ++ rest) = c :: unescape rest := by
  rcases literalChar_cases h with ⟨d, hd, -, hread⟩ | ⟨hc, -, hback⟩
  · rw [hd]
    exact hread rest
  · rw [hc, List.singleton_append, unescape]
    all_goals simp_all

theorem unescape_literal {s : List Char} (h : ∀ c ∈ s, Unnumbered c) :
    unescape (s.flatMap literalChar) = s := by
  induction s with
  | nil => rfl
  | cons c s ih =>
    rw [List.forall_mem_cons] at h
    rw [List.flatMap_cons, unescape_literalChar h.1, ih h.2]

/-- The literal of a text is a token of its own in front of anything, and its value is the text. -/
theorem recognised_literal {s : String} (h : ∀ c ∈ s.toList, Unnumbered c) (rest : List Char) :
    Recognised .string s (literal s).toList rest := by
  have htext : (literal s).toList = '"' :: (s.toList.flatMap literalChar ++ ['"']) := by
    simp [literal]
  have hvalue : String.ofList (unescape (s.toList.flatMap literalChar ++ ['"']).dropLast) = s := by
    rw [List.dropLast_concat, unescape_literal h, String.ofList_toList]
  have htoken : Recognised .string _ _ rest := .literal (closeLiteral?_literal h)
  rwa [hvalue, ← htext] at htoken

/-- A text that starts with the literal of a string is scanned to a token with the string for its
value, whose span is the literal, and to the tokens of the rest, moved behind it. -/
theorem scan_literal {s : String}
    (h : ∀ c ∈ s.toList, c.toNat < 0x20 → c = '\n' ∨ c = '\t' ∨ c = '\r') (r file : String) :
    scan (literal s ++ r) file =
      ⟨.string, s, ⟨file, 0, (literal s).utf8ByteSize⟩⟩ ::
        (scan r file).map (·.relocate (· + (literal s).utf8ByteSize)) := by
  have hread : Recognised .string s (literal s).toList r.toList := by
    refine recognised_literal (fun c hc => ?_) r.toList
    rcases Nat.lt_or_ge c.toNat 0x20 with hlow | hhigh
    · exact .inr (h c hc hlow)
    · exact .inl hhigh
  rw [scan, String.toList_append, hread.scanFrom, bytes_toList, Nat.zero_add]
  have hmoved := scanFrom_add file 0 (literal s).utf8ByteSize r.toList
  rw [Nat.zero_add] at hmoved
  rw [hmoved]
  rfl

/-- Quotes at both ends, a run of backslashes in front of a quote, a backslash in front of a letter
and a line break, and behind the literal what looks like the end of another one. -/
theorem scan_literal_backslashes :
    let s := "\"\\\\\\\" \\n\n\t\""
    let r := "\\\" + \"x\""
    (∀ c ∈ s.toList, c.toNat < 0x20 → c = '\n' ∨ c = '\t' ∨ c = '\r') ∧
      literal s = "\"\\\"\\\\\\\\\\\\\\\" \\\\n\\n\\t\\\"\"" ∧
      scan (literal s ++ r) "a.cat" =
        ⟨.string, s, ⟨"a.cat", 0, (literal s).utf8ByteSize⟩⟩ ::
          (scan r "a.cat").map (·.relocate (· + (literal s).utf8ByteSize)) := by
  intro s r
  have hall : s.toList.all (fun c => c.toNat < 0x20 → c = '\n' ∨ c = '\t' ∨ c = '\r') = true := by
    decide
  have h : ∀ c ∈ s.toList, c.toNat < 0x20 → c = '\n' ∨ c = '\t' ∨ c = '\r' :=
    fun c hc => of_decide_eq_true (List.all_eq_true.1 hall c hc)
  exact ⟨h, by decide, scan_literal h r "a.cat"⟩

end CatScript.Token
