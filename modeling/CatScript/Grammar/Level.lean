import CatScript.Expr
import CatScript.Token.Cursor

/-!
# Levels of binding

How tightly the operators bind, loosest first. Operators of one level associate to the left,
and their operands are read at the next tighter level.

| level          | operators           |
|----------------|---------------------|
| equality       | `==` `!=`           |
| relational     | `<` `<=` `>` `>=`   |
| additive       | `+` `-`             |
| multiplicative | `*` `/`             |
-/
namespace CatScript.Grammar

open Token (Kind)

/-- How tightly an expression binds. `default` comes before the others and has no operators. -/
inductive Level where
  | default
  | equality
  | relational
  | additive
  | multiplicative
  | unary
  | primary
  deriving DecidableEq, Repr

namespace Level

def name : Level → String
  | default => "Default"
  | equality => "Equality"
  | relational => "Relational"
  | additive => "Additive"
  | multiplicative => "Multiplicative"
  | unary => "Unary"
  | primary => "Primary"

def all : List Level :=
  [default, equality, relational, additive, multiplicative, unary, primary]

def ofName? (name : String) : Option Level := all.find? fun l => l.name == name

/-- The level that binds one step tighter. -/
def tighter : Level → Level
  | default => equality
  | equality => relational
  | relational => additive
  | additive => multiplicative
  | multiplicative => unary
  | unary => primary
  | primary => primary

/-- Whether a chain of binary operators can stand at this level. -/
def isBinary : Level → Bool
  | unary | primary => false
  | _ => true

/-- How many levels lie between this one and the tightest. -/
def height : Level → Nat
  | default => 6
  | equality => 5
  | relational => 4
  | additive => 3
  | multiplicative => 2
  | unary => 1
  | primary => 0

theorem height_tighter {l : Level} (h : l.isBinary = true) :
    l.tighter.height + 1 = l.height := by
  cases l <;> simp_all [isBinary, tighter, height]

theorem height_le (l : Level) : l.height ≤ 6 := by cases l <;> decide

end Level

end CatScript.Grammar

namespace CatScript

open Grammar (Level)
open Token (Kind)

def BinaryOp.level : BinaryOp → Level
  | .eq | .ne => .equality
  | .lt | .le | .gt | .ge => .relational
  | .add | .sub => .additive
  | .mul | .div => .multiplicative

def BinaryOp.ofKind? : Kind → Option BinaryOp
  | .equalEqual => some .eq
  | .bangEqual => some .ne
  | .less => some .lt
  | .lessEqual => some .le
  | .greater => some .gt
  | .greaterEqual => some .ge
  | .plus => some .add
  | .minus => some .sub
  | .star => some .mul
  | .slash => some .div
  | _ => none

def UnaryOp.ofKind? : Kind → Option UnaryOp
  | .minus => some .negate
  | .kwNot => some .not
  | _ => none

/-- The level of the binary operator that a token writes. -/
def Grammar.Level.ofKind? (k : Kind) : Option Level := (BinaryOp.ofKind? k).map BinaryOp.level

end CatScript
