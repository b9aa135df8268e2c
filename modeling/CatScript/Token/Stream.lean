import CatScript.Token.Cursor

/-!
# Token streams by index (specification §4.0)

The same stream as that of a `Cursor`, as one list with the index of the current token. A cursor
always stands on a token; an index may lie past the end of the list, and looking at a token then
fails. The list need not end in an `eof` token either, since a split can replace the last token like
any other.

Every operation gives an answer and the stream afterwards, or a fault.
-/
namespace CatScript.Token

structure Stream where
  tokens : List Token
  position : Nat
  deriving DecidableEq, Repr

namespace Stream

/-- Why an operation fails. -/
inductive Fault where
  | pastEnd          -- there is no token at the index
  | insideCharacter  -- a token would be split in the middle of a character
  deriving DecidableEq, Repr

/-- The stream at the first of the tokens, with an `eof` token behind the last if there is none. -/
def ofTokens (tokens : List Token) : Stream := ⟨Cursor.terminated tokens, 0⟩

/-! ## Looking -/

def tokenAt (s : Stream) (i : Nat) : Except Fault Token :=
  match s.tokens[i]? with
  | some t => .ok t
  | none => .error .pastEnd

def current (s : Stream) : Except Fault Token := s.tokenAt s.position

/-- The kind `n` tokens ahead, `eof` past the end. -/
def peek (s : Stream) (n : Nat) : Kind :=
  match s.tokens[s.position + n]? with
  | some t => t.kind
  | none => .eof

/-- The token in front of the current one, the first of the stream if there is none. -/
def previous (s : Stream) : Except Fault Token := s.tokenAt (s.position - 1)

/-! ## Moving -/

/-- Passes the given current token, unless the stream ends there. -/
def pass (s : Stream) (t : Token) : Stream :=
  if t.kind = .eof then s else { s with position := s.position + 1 }

/-- Moves to position `n`, to the last token if there is no such position. -/
def moveTo (s : Stream) (n : Nat) : Stream :=
  { s with position := min n (s.tokens.length - 1) }

end Stream

/-- The tokens that take the place of one that is split after its first character. A token of less
than two bytes stays whole. The offset between the halves is exact for a token that starts below
2^32 - 1. -/
def halves (t : Token) (first second : Kind) : Except Stream.Fault (List Token) :=
  match t.value.toList with
  | [] => .ok [t]
  | a :: as =>
    if Text.isAscii a = false then .error .insideCharacter
    else if as.isEmpty then .ok [t]
    else
      let middle := t.span.start + 1
      .ok [⟨first, String.ofList [a], { t.span with stop := middle }⟩,
        ⟨second, String.ofList as, { t.span with start := middle }⟩]

namespace Stream

/-- The stream with other tokens in the place of the current one. -/
def replace (s : Stream) (ts : List Token) : Stream :=
  { s with tokens := s.tokens.take s.position ++ (ts ++ s.tokens.drop (s.position + 1)) }

/-! ## Operations -/

/-- What the parser may ask of a stream (specification §6). -/
inductive Operation where
  | current
  | kind
  | peek (n : Nat)
  | isOneOf (kinds : List Kind)
  | hasMore
  | consume
  | mark
  | moveTo (n : Nat)
  | previous
  | split (first second : Kind)
  deriving DecidableEq, Repr

/-- What an operation gives back; `nothing` for those that only move or change the stream. -/
inductive Answer where
  | token (t : Token)
  | kind (k : Kind)
  | truth (b : Bool)
  | position (n : Nat)
  | nothing
  deriving DecidableEq, Repr

/-- The answer to one operation and the stream behind it. -/
def step (s : Stream) : Operation → Except Fault (Answer × Stream)
  | .current => do return (.token (← s.current), s)
  | .kind => do return (.kind (← s.current).kind, s)
  | .peek n => .ok (.kind (s.peek n), s)
  | .isOneOf kinds => do return (.truth (kinds.contains (← s.current).kind), s)
  | .hasMore => do return (.truth ((← s.current).kind ≠ .eof), s)
  | .consume => do
    let t ← s.current
    return (.token t, s.pass t)
  | .mark => .ok (.position s.position, s)
  | .moveTo n => .ok (.nothing, s.moveTo n)
  | .previous => do return (.token (← s.previous), s)
  | .split first second => do
    let t ← s.current
    return (.nothing, s.replace (← t.halves first second))

/-- The answers to a sequence of operations and the stream behind them. -/
def run (s : Stream) : List Operation → Except Fault (List Answer × Stream)
  | [] => .ok ([], s)
  | op :: ops => do
    let (a, s) ← s.step op
    let (as, s) ← s.run ops
    return (a :: as, s)

end Stream

end CatScript.Token
