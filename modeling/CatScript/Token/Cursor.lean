import CatScript.Text.Chars
import CatScript.Token

/-!
# Cursors over a token stream

A cursor stands on a token of a stream: it keeps the tokens already passed, the current one
and those ahead. The stream ends in a token of kind `eof`, and no move goes past one.

The weight of a cursor bounds what can still be consumed. The end of the stream weighs
nothing and a `>=` weighs as much as the `>` and `=` it can be split into, so splitting
leaves the weight alone and every other move lowers it.
-/
namespace CatScript

open Token (Kind)

/-- A stream with a place in it. The three lists of tokens together are the stream. -/
structure Cursor where
  before : List Token  -- the tokens passed, latest first
  current : Token
  ahead : List Token
  torn : Bool          -- a token had to be split inside a character
  deriving DecidableEq, Repr

namespace Cursor

/-! ## Building and looking -/

/-- The tokens with an `eof` token behind the last one, unless that is one itself. -/
def terminated (tokens : List Token) : List Token :=
  match tokens.getLast? with
  | none => [.endAt .nowhere]
  | some last => if last.kind = .eof then tokens else tokens ++ [.endAt last.span.after]

/-- The cursor on the first token. -/
def ofTokens (tokens : List Token) : Cursor :=
  match terminated tokens with
  | [] => ⟨[], .endAt .nowhere, [], false⟩
  | t :: ts => ⟨[], t, ts, false⟩

/-- The whole stream. -/
def tokens (c : Cursor) : List Token := c.before.reverse ++ c.current :: c.ahead

def kind (c : Cursor) : Kind := c.current.kind

/-- The kind `n` tokens ahead, `eof` past the end. -/
def peek (c : Cursor) (n : Nat) : Kind :=
  match (c.current :: c.ahead)[n]? with
  | some t => t.kind
  | none => .eof

def isOneOf (c : Cursor) (kinds : List Kind) : Bool := kinds.contains c.kind

def hasMore (c : Cursor) : Bool := c.kind ≠ .eof

/-- The position in the stream, counted from 0. -/
def mark (c : Cursor) : Nat := c.before.length

/-- The token passed last, the first of the stream if none was. -/
def previous (c : Cursor) : Token := c.before.head?.getD c.current

/-- From `start` to the token passed last, `start` itself if that one lies before it. -/
def spanFrom (c : Cursor) (start : Span) : Span :=
  if c.previous.span.stop < start.start then start else start.between c.previous.span

/-! ## Moving -/

/-- Passes the current token, unless the stream ends here. -/
def advance (c : Cursor) : Cursor :=
  if c.kind = .eof then c
  else
    match c.ahead with
    | [] => { c with before := c.current :: c.before, current := .endAt c.current.span.after }
    | t :: ts => { c with before := c.current :: c.before, current := t, ahead := ts }

/-- Moves to position `n`, to the last token if there is no such position. -/
def moveTo (c : Cursor) (n : Nat) : Cursor :=
  let i := min n (c.tokens.length - 1)
  match c.tokens.drop i with
  | [] => c
  | t :: ts => { c with before := (c.tokens.take i).reverse, current := t, ahead := ts }

/-- Splits the current token after its first character into two tokens of the given kinds.
A token of less than two bytes stays whole, and one that starts with a character of several
bytes tears the cursor. -/
def split (c : Cursor) (first second : Kind) : Cursor :=
  match c.current.value.toList with
  | [] => c
  | a :: as =>
    if Text.isAscii a = false then { c with torn := true }
    else if as.isEmpty then c
    else
      let span := c.current.span
      let middle := span.start + 1
      { c with
        current := ⟨first, String.ofList [a], { span with stop := middle }⟩
        ahead := ⟨second, String.ofList as, { span with start := middle }⟩ :: c.ahead }

/-- Passes the current token if it has the given kind. -/
def accept? (c : Cursor) (kind : Kind) : Option Cursor :=
  if c.kind = kind then some c.advance else none

/-- The outcome of asking for a kind of token: the token found, what is wrong with it, and
the cursor afterwards. -/
structure Expected where
  token : Token
  errors : List Diagnostic
  rest : Cursor

/-- Passes a token of the given kind. A token of another kind stays, with `cause` reported. -/
def expectOr (c : Cursor) (kind : Kind) (cause : Cause) : Expected :=
  if c.kind = kind then ⟨c.current, [], c.advance⟩ else ⟨c.current, [cause.at c.current.span], c⟩

/-- Passes a token of the given kind. A token of another kind stays and is reported. -/
def expect (c : Cursor) (kind : Kind) : Expected :=
  c.expectOr kind (.unexpectedToken c.current.value)

/-! ## Weight -/

end Cursor

def Token.Kind.weight : Kind → Nat
  | .eof => 0
  | .greaterEqual => 2
  | _ => 1

theorem Token.Kind.weight_pos {k : Kind} (h : k ≠ .eof) : 0 < k.weight := by
  cases k <;> simp_all [weight]

namespace Cursor

/-- The weight of the current token and of those ahead. The readers recur over it. -/
def weight (c : Cursor) : Nat :=
  c.kind.weight + (c.ahead.map (·.kind.weight)).foldr (· + ·) 0

theorem weight_advance_lt {c : Cursor} (h : c.kind ≠ .eof) : c.advance.weight < c.weight := by
  have := Token.Kind.weight_pos h
  unfold advance
  rw [if_neg h]
  split <;> rename_i ha
  · simp [weight, kind, Token.endAt, Token.Kind.weight, ha] at this ⊢; omega
  · simp [weight, kind, ha] at this ⊢; omega

theorem weight_advance_le (c : Cursor) : c.advance.weight ≤ c.weight := by
  by_cases h : c.kind = .eof
  · simp [advance, h]
  · exact Nat.le_of_lt (weight_advance_lt h)

theorem weight_expectOr_le (c : Cursor) (k : Kind) (cause : Cause) :
    (c.expectOr k cause).rest.weight ≤ c.weight := by
  unfold expectOr
  split
  · exact weight_advance_le c
  · exact Nat.le_refl _

theorem weight_expect_le (c : Cursor) (k : Kind) : (c.expect k).rest.weight ≤ c.weight :=
  weight_expectOr_le c k _

theorem weight_accept?_lt {c d : Cursor} {k : Kind} (hk : k ≠ .eof) (h : c.accept? k = some d) :
    d.weight < c.weight := by
  unfold accept? at h
  split at h
  · next e => cases h; exact weight_advance_lt (e ▸ hk)
  · cases h

theorem weight_split (c : Cursor) (h : c.kind = .greaterEqual) :
    (c.split .greater .equal).weight = c.weight := by
  unfold split
  split
  · rfl
  · split
    · rfl
    · split
      · rfl
      · simp only [weight, kind] at h ⊢
        simp only [h, Token.Kind.weight, List.map_cons, List.foldr_cons]
        omega

end Cursor

end CatScript
