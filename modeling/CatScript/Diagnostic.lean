import CatScript.Text.Quoted

/-!
# Spans and diagnostics (specification §7)

A span is the part of a named source file from byte offset `start` up to, not including, byte
offset `stop`. Offsets are natural numbers without a bound, so a result that reads one assumes a
source of less than 2^32 bytes, whose offsets fit the 32 bits in which spans are kept.

A diagnostic says what is wrong with a source text: a cause and the place it was found at. Causes
up to `invalidInteger` come from reading the text, the others from checking names and types. Every
cause has a name, a one-line message, and, apart from unrecognised text, a tip.
-/
namespace CatScript

/-- A part of a source file. Its offsets are exact below 2^32. -/
structure Span where
  file : String
  start : Nat
  stop : Nat
  deriving DecidableEq, Repr

/-- The span at the start of no file at all. -/
def Span.nowhere : Span := ⟨"<null>", 0, 0⟩

/-- From the start of `first` to the stop of `last`. -/
def Span.between (first last : Span) : Span := { first with stop := last.stop }

/-- The empty span at the stop of `s`. -/
def Span.after (s : Span) : Span := { s with start := s.stop }

@[simp] theorem Span.between_self (s : Span) : s.between s = s := rfl

@[simp] theorem Span.between_start (a b : Span) : (a.between b).start = a.start := rfl

@[simp] theorem Span.between_stop (a b : Span) : (a.between b).stop = b.stop := rfl

/-! ## Diagnostics -/

/-- What is wrong with a source text. -/
inductive Cause where
  | unrecognisedToken (text : String)
  | unexpectedToken (text : String)
  | unterminatedArguments
  | unterminatedList
  | unterminatedParens
  | unterminatedBody
  | badTypeName (name : String)
  | invalidInteger (text : String)
  | unresolvedSymbol (name : String)
  | incompatibleTypes (expected received : String)
  | arityMismatch (expected received : Nat)
  | duplicateName (name : String)
  | missingReturn (function : String)
  deriving DecidableEq, Repr

namespace Cause

def name : Cause → String
  | unrecognisedToken _ => "UnrecognisedToken"
  | unexpectedToken _ => "UnexpectedToken"
  | unterminatedArguments => "UnterminatedArgList"
  | unterminatedList => "UnterminatedList"
  | unterminatedParens => "UnterminatedParens"
  | unterminatedBody => "UnterminatedBody"
  | badTypeName _ => "BadTypeName"
  | invalidInteger _ => "InvalidInteger"
  | unresolvedSymbol _ => "UnresolvedSymbol"
  | incompatibleTypes _ _ => "IncompatibleTypes"
  | arityMismatch _ _ => "ArityMismatch"
  | duplicateName _ => "DuplicateName"
  | missingReturn _ => "MissingReturnStatement"

def message : Cause → String
  | unrecognisedToken text => "unrecognised token: " ++ Text.quoted text
  | unexpectedToken text => "unexpected token: " ++ Text.quoted text
  | unterminatedArguments => "unterminated argument list"
  | unterminatedList => "unterminated list"
  | unterminatedParens => "unterminated parenthesized expression"
  | unterminatedBody => "unterminated body"
  | badTypeName name => "bad type name " ++ Text.quoted name
  | invalidInteger text => "error parsing integer: " ++ Text.quoted text
  | unresolvedSymbol name => "unresolved symbol " ++ Text.quoted name
  | incompatibleTypes expected received =>
    "incompatible types: expected " ++ expected ++ ", received " ++ received
  | arityMismatch expected received =>
    "arity mismatch: expected " ++ expected.repr ++ ", received " ++ received.repr
  | duplicateName name => Text.quoted name ++ " already declared"
  | missingReturn function => "function " ++ Text.quoted function ++ " is missing a return statement"

/-- A suggestion for the reader of the diagnostic. -/
def tip? : Cause → Option String
  | unrecognisedToken _ => none
  | unexpectedToken text => some ("Unexpected token: `" ++ text ++ "`")
  | unterminatedArguments => some "Argument list is missing a closing `)`"
  | unterminatedList => some "List literal is missing a closing `]`"
  | unterminatedParens => some "Expression is missing a closing `)`"
  | unterminatedBody => some "Block is missing a closing `\x7d`"
  | badTypeName name =>
    some ("Unknown type `" ++ name ++
      "`, expected one of int, bool, string, object, void, list")
  | invalidInteger text =>
    some ("Invalid integer: `" ++ text ++ "`, is it above the integer limit?")
  | unresolvedSymbol name => some ("`" ++ name ++ "` is not declared")
  | incompatibleTypes expected received =>
    some ("Expected type `" ++ expected ++ "`, received `" ++ received ++ "`")
  | arityMismatch expected received =>
    some ("Expected " ++ expected.repr ++ " arguments, received " ++ received.repr)
  | duplicateName name => some ("`" ++ name ++ "` is already declared in this scope")
  | missingReturn function =>
    some ("Function `" ++ function ++ "` does not return a value on every path")

/-- Whether the cause lies in names or types and not in the shape of the text. -/
def isSemantic : Cause → Bool
  | unresolvedSymbol _ | incompatibleTypes _ _ | arityMismatch _ _ | duplicateName _
  | missingReturn _ => true
  | _ => false

end Cause

/-- A cause at a place: a file and an offset in bytes. -/
structure Diagnostic where
  cause : Cause
  file : String
  offset : Nat
  deriving DecidableEq, Repr

/-- A diagnostic at the start of a span. -/
def Cause.at (cause : Cause) (span : Span) : Diagnostic := ⟨cause, span.file, span.start⟩

/-- The message with the place it belongs to. -/
def Diagnostic.message (d : Diagnostic) : String :=
  d.cause.message ++ " at " ++ d.file ++ ":" ++ d.offset.repr

end CatScript
