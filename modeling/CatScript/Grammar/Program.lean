import CatScript.Grammar.Stmt
import CatScript.Program
import CatScript.Token.Scan

/-!
# Reading programs (specification §4.1)

A stream that is one expression from end to end is an expression program. Any other stream
is read from its start again as statements.
-/
namespace CatScript

open Grammar

namespace Program

/-- The statements of a token stream, with the cursor at its end. -/
def readStatements (c : Cursor) : Program × Cursor :=
  let ss := Grammar.statements c
  (⟨.statements ss.1, c.current.span.between ss.2.current.span⟩, ss.2)

/-- The program of a token stream, with the cursor at its end. -/
def read (c : Cursor) : Program × Cursor :=
  match expr c with
  | .ok e rest =>
    if rest.hasMore then readStatements c
    else (⟨.expression e, c.current.span.between e.span⟩, rest)
  | .failed _ => readStatements c

/-- The program of a list of tokens. -/
def ofTokens (tokens : List Token) : Program := (read (.ofTokens tokens)).1

/-- The program of a source text. -/
def parse (source file : String) : Program := ofTokens (Token.scan source file)

end Program

namespace Expr

/-- The expression that a source text consists of. A token behind it is reported on it, and
a text that starts with no expression has a diagnostic instead of one. -/
def parse (source file : String) : Except Diagnostic Expr :=
  match expr (.ofTokens (Token.scan source file)) with
  | .ok e rest => .ok (if rest.hasMore then e.report rest.current.unexpected else e)
  | .failed rest => .error rest.current.unexpected

end Expr

end CatScript
