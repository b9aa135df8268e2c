/-!
# Characters

A set of characters is a list of closed ranges of code points. Membership looks at every range, so
the ranges may come in any order and may overlap.

White space are the 25 characters with the White_Space property. The scanner skips them between
tokens, and a displayed source line loses them at its end.

Offsets into a source text count the bytes of its UTF-8 encoding, one to four for each character.
-/
namespace CatScript.Text

/-- Closed ranges of code points. -/
abbrev CharSet := List (Nat × Nat)

def CharSet.contains (s : CharSet) (c : Char) : Bool :=
  s.any fun r => decide (r.1 ≤ c.toNat) && decide (c.toNat ≤ r.2)

theorem CharSet.contains_iff (s : CharSet) (c : Char) :
    s.contains c = true ↔ ∃ r ∈ s, r.1 ≤ c.toNat ∧ c.toNat ≤ r.2 := by
  simp [CharSet.contains, List.any_eq_true]

/-! ## White space -/

def blanks : CharSet :=
  [(0x09, 0x0d), (0x20, 0x20), (0x85, 0x85), (0xa0, 0xa0), (0x1680, 0x1680),
   (0x2000, 0x200a), (0x2028, 0x2029), (0x202f, 0x202f), (0x205f, 0x205f), (0x3000, 0x3000)]

def isBlank (c : Char) : Bool := blanks.contains c

/-- The text without the white space at its end. -/
def trimEnd (cs : List Char) : List Char := (cs.reverse.dropWhile isBlank).reverse

theorem trimEnd_append_blanks (cs ws : List Char) (h : ∀ c ∈ ws, isBlank c = true) :
    trimEnd (cs ++ ws) = trimEnd cs := by
  simp only [trimEnd, List.reverse_append]
  rw [List.dropWhile_append_of_pos]
  simpa using h

/-! ## Byte length -/

/-- Number of bytes that encode the characters. -/
def bytes : List Char → Nat
  | [] => 0
  | c :: cs => c.utf8Size + bytes cs

@[simp] theorem bytes_nil : bytes [] = 0 := rfl

@[simp] theorem bytes_cons (c : Char) (cs : List Char) :
    bytes (c :: cs) = c.utf8Size + bytes cs := rfl

@[simp] theorem bytes_append (a b : List Char) : bytes (a ++ b) = bytes a + bytes b := by
  induction a with
  | nil => simp
  | cons c a ih => simp [ih, Nat.add_assoc]

theorem length_le_bytes (cs : List Char) : cs.length ≤ bytes cs := by
  induction cs with
  | nil => simp
  | cons c cs ih =>
    have := c.utf8Size_pos
    simp only [List.length_cons, bytes_cons]; omega

/-- Whether the character takes a single byte. -/
def isAscii (c : Char) : Bool := decide (c.utf8Size = 1)

end CatScript.Text
