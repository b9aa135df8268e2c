import CatScript.Text.Chars
import CatScript.Token

/-!
# Scanning (specification §4.0)

A source text is cut into pieces from left to right. At each place the first rule that
applies decides:

* a letter or `_`, then letters, digits and `_`: a keyword or an identifier;
* decimal digits: an integer;
* white space: skipped;
* a string literal, from a double quote to the next one that no backslash escapes, where no
  backslash stands before a newline;
* `//` up to the end of the line: skipped;
* an operator or a bracket, the two-character ones first;
* any other character: an error token of its own.

A quote that opens no literal falls to the last rule. In a literal `\n`, `\t`, `\r`, `\\` and
`\"` stand for one character, and any other backslash stands for itself. The tokens are
followed by one of kind `eof` at the end of the text.
-/
namespace CatScript.Token

/-! ## Character classes -/

def isLetter (c : Char) : Bool := ('a' ≤ c && c ≤ 'z') || ('A' ≤ c && c ≤ 'Z')

def isDigit (c : Char) : Bool := '0' ≤ c && c ≤ '9'

def startsWord (c : Char) : Bool := isLetter c || c = '_'

def inWord (c : Char) : Bool := isLetter c || isDigit c || c = '_'

/-! ## String literals -/

/-- Splits a text that follows an opening quote into the rest of the literal, with its
closing quote, and what comes after it. -/
def closeLiteral? : List Char → Option (List Char × List Char)
  | [] => none
  | '"' :: rest => some (['"'], rest)
  | '\\' :: c :: rest =>
    if c = '\n' then none
    else (closeLiteral? rest).map fun (body, after) => ('\\' :: c :: body, after)
  | '\\' :: [] => none
  | c :: rest => (closeLiteral? rest).map fun (body, after) => (c :: body, after)

/-- The text that the inside of a literal stands for. -/
def unescape : List Char → List Char
  | '\\' :: 'n' :: rest => '\n' :: unescape rest
  | '\\' :: 't' :: rest => '\t' :: unescape rest
  | '\\' :: 'r' :: rest => '\r' :: unescape rest
  | '\\' :: '\\' :: rest => '\\' :: unescape rest
  | '\\' :: '"' :: rest => '"' :: unescape rest
  | '\\' :: c :: rest => '\\' :: c :: unescape rest
  | c :: rest => c :: unescape rest
  | [] => []

/-! ## Operators and brackets -/

/-- The kind of a two-character operator. -/
def pairKind? : Char → Char → Option Kind
  | '=', '=' => some .equalEqual
  | '!', '=' => some .bangEqual
  | '<', '=' => some .lessEqual
  | '>', '=' => some .greaterEqual
  | _, _ => none

/-- The kind of a one-character operator or bracket. -/
def markKind? : Char → Option Kind
  | '[' => some .leftBracket
  | ']' => some .rightBracket
  | '\x7b' => some .leftBrace
  | '\x7d' => some .rightBrace
  | '(' => some .leftParen
  | ')' => some .rightParen
  | '=' => some .equal
  | '<' => some .less
  | '>' => some .greater
  | ':' => some .colon
  | ',' => some .comma
  | '+' => some .plus
  | '-' => some .minus
  | '/' => some .slash
  | '*' => some .star
  | _ => none

/-! ## Pieces -/

/-- The first piece of a text: the characters it takes, what follows, and the kind and value
of its token unless it is skipped. -/
structure Piece where
  taken : List Char
  rest : List Char
  token : Option (Kind × String)

/-- A piece whose token has the taken text as its value. -/
def Piece.verbatim (kind : Kind) (taken rest : List Char) : Piece :=
  ⟨taken, rest, some (kind, String.ofList taken)⟩

/-- An operator, a bracket or unrecognised text. -/
def markPiece (c : Char) (cs : List Char) : Piece :=
  match cs with
  | [] => .verbatim ((markKind? c).getD .error) [c] []
  | d :: ds =>
    match pairKind? c d with
    | some kind => .verbatim kind [c, d] ds
    | none => .verbatim ((markKind? c).getD .error) [c] (d :: ds)

/-- The first piece of the text `c :: cs`. -/
def firstPiece (c : Char) (cs : List Char) : Piece :=
  if startsWord c then
    let taken := c :: cs.takeWhile inWord
    ⟨taken, cs.dropWhile inWord, some (.ofWord (String.ofList taken), String.ofList taken)⟩
  else if isDigit c then
    .verbatim .integer (c :: cs.takeWhile isDigit) (cs.dropWhile isDigit)
  else if Text.isBlank c then
    ⟨c :: cs.takeWhile Text.isBlank, cs.dropWhile Text.isBlank, none⟩
  else if c = '"' then
    match closeLiteral? cs with
    | some (body, after) =>
      ⟨c :: body, after, some (.string, String.ofList (unescape body.dropLast))⟩
    | none => .verbatim .error [c] cs
  else if c = '/' ∧ cs.head? = some '/' then
    ⟨c :: cs.takeWhile (· ≠ '\n'), cs.dropWhile (· ≠ '\n'), none⟩
  else markPiece c cs

theorem closeLiteral?_append {cs body after : List Char}
    (h : closeLiteral? cs = some (body, after)) : body ++ after = cs := by
  fun_induction closeLiteral? cs generalizing body after with
  | case1 => cases h
  | case2 => cases h; rfl
  | case3 => cases h
  | case4 c rest _ ih =>
    obtain ⟨⟨b, a⟩, hr, he⟩ := Option.map_eq_some_iff.1 h
    cases he
    simp [ih hr]
  | case5 => cases h
  | case6 c rest _ _ _ ih =>
    obtain ⟨⟨b, a⟩, hr, he⟩ := Option.map_eq_some_iff.1 h
    cases he
    simp [ih hr]

/-- A piece takes the characters in front of what it leaves. -/
theorem taken_append_rest (c : Char) (cs : List Char) :
    (firstPiece c cs).taken ++ (firstPiece c cs).rest = c :: cs := by
  unfold firstPiece
  split
  · simp
  split
  · simp [Piece.verbatim]
  split
  · simp
  split
  · split
    · next h => simp [closeLiteral?_append h]
    · simp [Piece.verbatim]
  split
  · simp
  · unfold markPiece
    split
    · simp [Piece.verbatim]
    · split <;> simp [Piece.verbatim]

/-- A piece takes at least its first character. -/
theorem taken_ne_nil (c : Char) (cs : List Char) : (firstPiece c cs).taken ≠ [] := by
  unfold firstPiece
  split
  · simp
  split
  · simp [Piece.verbatim]
  split
  · simp
  split
  · split <;> simp [Piece.verbatim]
  split
  · simp
  · unfold markPiece
    split
    · simp [Piece.verbatim]
    · split <;> simp [Piece.verbatim]

theorem rest_length_lt (c : Char) (cs : List Char) :
    (firstPiece c cs).rest.length < (c :: cs).length := by
  have h := congrArg List.length (taken_append_rest c cs)
  have := List.length_pos_iff.2 (taken_ne_nil c cs)
  simp only [List.length_append] at h
  omega

/-! ## The token stream -/

/-- The tokens of a text that starts at byte `offset` of `file`. The offsets of the tokens are
those of a scanner that keeps 32 bits of them as long as the text ends below 2^32. -/
def scanFrom (file : String) (offset : Nat) (cs : List Char) : List Token :=
  match cs with
  | [] => [.endAt ⟨file, offset, offset⟩]
  | c :: cs =>
    let piece := firstPiece c cs
    let next := offset + Text.bytes piece.taken
    match piece.token with
    | some (kind, value) => ⟨kind, value, ⟨file, offset, next⟩⟩ :: scanFrom file next piece.rest
    | none => scanFrom file next piece.rest
termination_by cs.length
decreasing_by all_goals exact rest_length_lt c cs

/-- The file name of a text that was not read from a file. -/
def interactiveFile : String := "shell"

/-- The tokens of a source text. -/
def scan (source : String) (file : String := interactiveFile) : List Token :=
  scanFrom file 0 source.toList

end CatScript.Token
