import CatScript.Diagnostic

/-!
# Tokens

A token has a kind, a value and the span of source text it was read from. The value is that
text itself, except for string literals, whose value is the text they stand for, and for the
token that marks the end of the stream.
-/
namespace CatScript

/-- Kinds of tokens (specification §4.0). The names of types are identifiers. -/
inductive Token.Kind where
  | eof
  | error              -- text that no rule recognises
  | integer
  | string
  | identifier
  | leftBracket
  | rightBracket
  | leftBrace
  | rightBrace
  | leftParen
  | rightParen
  | equal
  | equalEqual
  | bangEqual
  | less
  | lessEqual
  | greater
  | greaterEqual
  | comma
  | colon
  | plus
  | minus
  | slash
  | star
  | kwVar
  | kwFor
  | kwIn
  | kwIf
  | kwElse
  | kwPrint
  | kwFunction
  | kwReturn
  | kwTrue
  | kwFalse
  | kwNull
  | kwNot
  deriving DecidableEq, Repr

namespace Token.Kind

def name : Kind → String
  | eof => "EOF"
  | error => "Error"
  | integer => "Integer"
  | string => "String"
  | identifier => "Identifier"
  | leftBracket => "LeftBracket"
  | rightBracket => "RightBracket"
  | leftBrace => "LeftBrace"
  | rightBrace => "RightBrace"
  | leftParen => "LeftParen"
  | rightParen => "RightParen"
  | equal => "Equal"
  | equalEqual => "EqualEqual"
  | bangEqual => "BangEqual"
  | less => "Less"
  | lessEqual => "LessEqual"
  | greater => "Greater"
  | greaterEqual => "GreaterEqual"
  | comma => "Comma"
  | colon => "Colon"
  | plus => "Plus"
  | minus => "Minus"
  | slash => "Slash"
  | star => "Star"
  | kwVar => "Var"
  | kwFor => "For"
  | kwIn => "In"
  | kwIf => "If"
  | kwElse => "Else"
  | kwPrint => "Print"
  | kwFunction => "Function"
  | kwReturn => "Return"
  | kwTrue => "True"
  | kwFalse => "False"
  | kwNull => "Null"
  | kwNot => "Not"

/-- Every kind, in the order of declaration. -/
def all : List Kind :=
  [eof, error, integer, string, identifier, leftBracket, rightBracket, leftBrace, rightBrace,
   leftParen, rightParen, equal, equalEqual, bangEqual, less, lessEqual, greater, greaterEqual,
   comma, colon, plus, minus, slash, star, kwVar, kwFor, kwIn, kwIf, kwElse, kwPrint,
   kwFunction, kwReturn, kwTrue, kwFalse, kwNull, kwNot]

/-- The kind of a given name. -/
def ofName? (name : String) : Option Kind := all.find? fun k => k.name == name

/-- The kind of a word: a keyword's own, `identifier` for any other word. -/
def ofWord (word : String) : Kind :=
  match word with
  | "var" => kwVar
  | "for" => kwFor
  | "in" => kwIn
  | "if" => kwIf
  | "else" => kwElse
  | "print" => kwPrint
  | "function" => kwFunction
  | "return" => kwReturn
  | "true" => kwTrue
  | "false" => kwFalse
  | "null" => kwNull
  | "not" => kwNot
  | _ => identifier

end Token.Kind

structure Token where
  kind : Token.Kind
  value : String
  span : Span
  deriving DecidableEq, Repr

namespace Token

/-- The token that ends a stream, at an empty span. -/
def endAt (span : Span) : Token := ⟨.eof, "<EOF>", span⟩

def display (t : Token) : String :=
  "Token \x7b\nkind: " ++ t.kind.name ++ ",\nvalue: " ++ t.value ++ "\x7d"

/-- The diagnostic for a token that cannot stand where it was found. -/
def unexpected (t : Token) : Diagnostic :=
  if t.kind = .error then (Cause.unrecognisedToken t.value).at t.span
  else (Cause.unexpectedToken t.value).at t.span

end Token

end CatScript
