import CatScript.Grammar.Stmt
import Mathlib.Algebra.Group.Nat.Defs

/-!
# Sentences

    program = expr | stmt*
    stmt    = "print" "(" expr ")"
            | "for" "(" IDENTIFIER "in" expr ")" body
            | conditional
            | "var" IDENTIFIER [":" type] "=" expr
            | IDENTIFIER "=" expr
            | IDENTIFIER "(" [expr, ...] ")"
            | "function" IDENTIFIER "(" [IDENTIFIER [":" type], ...] ")" [":" type] body
            | "return" [expr]
    conditional = "if" "(" expr ")" body ["else" conditional | "else" body]
    body    = "{" stmt* "}"
    type    = "int" | "bool" | "string" | "object" | "void" | "list" ["<" type ">"]

The grammar of programs by itself, without a reader. A phrase is a relation between the tokens
from its start on and the tokens behind it, so that a rule is a chain of relations and can look
at the token that follows. Three rules are more than that:

* an integer is a literal only up to the largest 64-bit integer;
* `return` stands in the body of a function only, and without an expression only where the next
  token cannot start one;
* a `>=` that closes a list type is a `>`, and the rest of it stands behind the type as `=`.
-/
namespace CatScript.Grammar

open Token (Kind)

/-! ## Tokens -/

/-- One token of the given kind. -/
def Mark (k : Kind) (ts rest : List Token) : Prop := ∃ t, t.kind = k ∧ ts = t :: rest

/-- One token of the given kinds stands next. -/
def StartsWith (kinds : List Kind) (ts : List Token) : Prop :=
  ∃ t rest, ts = t :: rest ∧ t.kind ∈ kinds

/-- The number that decimal digits write. -/
def decimalValue (digits : List Char) : Nat :=
  digits.foldl (fun n c => 10 * n + (c.toNat - '0'.toNat)) 0

/-- An integer literal of the 64-bit range. -/
def Integer (ts rest : List Token) : Prop :=
  ∃ t, t.kind = .integer ∧ decimalValue t.value.toList ≤ 2 ^ 63 - 1 ∧ ts = t :: rest

/-- An operator of the level. -/
def Operator (level : Level) (ts rest : List Token) : Prop :=
  ∃ t op, BinaryOp.ofKind? t.kind = some op ∧ op.level = level ∧ ts = t :: rest

def Sign (ts rest : List Token) : Prop :=
  ∃ t op, UnaryOp.ofKind? t.kind = some op ∧ ts = t :: rest

/-- The name of a type. -/
def Word (words : List String) (ts rest : List Token) : Prop :=
  ∃ t, t.kind = .identifier ∧ t.value ∈ words ∧ ts = t :: rest

/-- The `=` of a `>=`. -/
def equalOf (t : Token) : Token := ⟨.equal, "=", { t.span with start := t.span.start + 1 }⟩

/-! ## Types and parameters -/

inductive TypePhrase : List Token → List Token → Prop where
  | named {a b : List Token} :
    Word ["int", "bool", "string", "object", "void", "list"] a b → TypePhrase a b
  | list {a b c d e : List Token} :
    Word ["list"] a b → Mark .less b c → TypePhrase c d → Mark .greater d e → TypePhrase a e
  | glued {a b c d : List Token} {t : Token} :
    Word ["list"] a b → Mark .less b c → TypePhrase c (t :: d) → t.kind = .greaterEqual →
      TypePhrase a (equalOf t :: d)

/-- A type behind a colon, or nothing. -/
inductive Annotation : List Token → List Token → Prop where
  | none (a : List Token) : Annotation a a
  | some {a b c : List Token} : Mark .colon a b → TypePhrase b c → Annotation a c

/-- Parameters with commas between them, and possibly one behind the last. -/
inductive Parameters : List Token → List Token → Prop where
  | none (a : List Token) : Parameters a a
  | last {a b c : List Token} : Mark .identifier a b → Annotation b c → Parameters a c
  | more {a b c d e : List Token} :
    Mark .identifier a b → Annotation b c → Mark .comma c d → Parameters d e → Parameters a e

/-! ## Expressions -/

inductive ExprPhrase.Symbol where
  | level (l : Level)
  | items              -- expressions with commas between them, at least one
  | args               -- the same, or nothing

inductive ExprPhrase : ExprPhrase.Symbol → List Token → List Token → Prop where
  | operand {l : Level} {a b : List Token} : l.isBinary = true →
    ExprPhrase (.level l.tighter) a b → ExprPhrase (.level l) a b
  | binary {l : Level} {a b c d : List Token} : l.isBinary = true →
    ExprPhrase (.level l) a b → Operator l b c → ExprPhrase (.level l.tighter) c d →
      ExprPhrase (.level l) a d
  | unary {a b c : List Token} :
    Sign a b → ExprPhrase (.level .unary) b c → ExprPhrase (.level .unary) a c
  | primary {a b : List Token} : ExprPhrase (.level .primary) a b → ExprPhrase (.level .unary) a b
  | integer {a b : List Token} : Integer a b → ExprPhrase (.level .primary) a b
  | atom {k : Kind} {a b : List Token} :
    k ∈ [Kind.string, .kwTrue, .kwFalse, .kwNull, .identifier] → Mark k a b →
      ExprPhrase (.level .primary) a b
  | call {a b c d e : List Token} :
    Mark .identifier a b → Mark .leftParen b c → ExprPhrase .args c d → Mark .rightParen d e →
      ExprPhrase (.level .primary) a e
  | list {a b c d : List Token} :
    Mark .leftBracket a b → ExprPhrase .args b c → Mark .rightBracket c d →
      ExprPhrase (.level .primary) a d
  | group {a b c d : List Token} :
    Mark .leftParen a b → ExprPhrase (.level .equality) b c → Mark .rightParen c d →
      ExprPhrase (.level .primary) a d
  | one {a b : List Token} : ExprPhrase (.level .equality) a b → ExprPhrase .items a b
  | more {a b c d : List Token} :
    ExprPhrase (.level .equality) a b → Mark .comma b c → ExprPhrase .items c d →
      ExprPhrase .items a d
  | nothing (a : List Token) : ExprPhrase .args a a
  | something {a b : List Token} : ExprPhrase .items a b → ExprPhrase .args a b

/-- A whole expression. -/
abbrev Whole : List Token → List Token → Prop := ExprPhrase (.level .equality)

/-! ## Statements -/

inductive StmtPhrase.Symbol where
  | stmt
  | conditional
  | body
  | stmts        -- any number of statements

/-- What stands inside a function (`true`) or outside all functions (`false`). -/
inductive StmtPhrase : StmtPhrase.Symbol → Bool → List Token → List Token → Prop where
  | print {f : Bool} {a b c d e : List Token} :
    Mark .kwPrint a b → Mark .leftParen b c → Whole c d → Mark .rightParen d e →
      StmtPhrase .stmt f a e
  | forEach {f : Bool} {a b c d e g h i : List Token} :
    Mark .kwFor a b → Mark .leftParen b c → Mark .identifier c d → Mark .kwIn d e → Whole e g →
      Mark .rightParen g h → StmtPhrase .body f h i → StmtPhrase .stmt f a i
  | conditional {f : Bool} {a b : List Token} :
    StmtPhrase .conditional f a b → StmtPhrase .stmt f a b
  | declare {f : Bool} {a b c d e g : List Token} :
    Mark .kwVar a b → Mark .identifier b c → Annotation c d → Mark .equal d e → Whole e g →
      StmtPhrase .stmt f a g
  | assign {f : Bool} {a b c d : List Token} :
    Mark .identifier a b → Mark .equal b c → Whole c d → StmtPhrase .stmt f a d
  | call {f : Bool} {a b c d e : List Token} :
    Mark .identifier a b → Mark .leftParen b c → ExprPhrase .args c d → Mark .rightParen d e →
      StmtPhrase .stmt f a e
  | define {f : Bool} {a b c d e g h i : List Token} :
    Mark .kwFunction a b → Mark .identifier b c → Mark .leftParen c d → Parameters d e →
      Mark .rightParen e g → Annotation g h → StmtPhrase .body true h i → StmtPhrase .stmt f a i
  | ret {a b : List Token} :
    Mark .kwReturn a b → ¬ StartsWith exprKinds b → StmtPhrase .stmt true a b
  | retWith {a b c : List Token} :
    Mark .kwReturn a b → Whole b c → StmtPhrase .stmt true a c
  | cond {f : Bool} {a b c d e g : List Token} :
    Mark .kwIf a b → Mark .leftParen b c → Whole c d → Mark .rightParen d e →
      StmtPhrase .body f e g → StmtPhrase .conditional f a g
  | elseCond {f : Bool} {a b c d e g h i : List Token} :
    Mark .kwIf a b → Mark .leftParen b c → Whole c d → Mark .rightParen d e →
      StmtPhrase .body f e g → Mark .kwElse g h → StmtPhrase .conditional f h i →
      StmtPhrase .conditional f a i
  | elseBody {f : Bool} {a b c d e g h i : List Token} :
    Mark .kwIf a b → Mark .leftParen b c → Whole c d → Mark .rightParen d e →
      StmtPhrase .body f e g → Mark .kwElse g h → StmtPhrase .body f h i →
      StmtPhrase .conditional f a i
  | body {f : Bool} {a b c d : List Token} :
    Mark .leftBrace a b → StmtPhrase .stmts f b c → Mark .rightBrace c d → StmtPhrase .body f a d
  | none {f : Bool} (a : List Token) : StmtPhrase .stmts f a a
  | more {f : Bool} {a b c : List Token} :
    StmtPhrase .stmt f a b → StmtPhrase .stmts f b c → StmtPhrase .stmts f a c

/-! ## Programs -/

/-- The tokens are those of a program. -/
def Sentence (ts : List Token) : Prop := Whole ts [] ∨ StmtPhrase .stmts false ts []

/-! ## First tokens -/

theorem Mark.startsWith {k : Kind} {kinds : List Kind} {a b : List Token} (h : Mark k a b)
    (hk : k ∈ kinds) : StartsWith kinds a := by
  obtain ⟨t, rfl, rfl⟩ := h
  exact ⟨t, b, rfl, hk⟩

theorem Sign.startsWith {a b : List Token} (h : Sign a b) : StartsWith exprKinds a := by
  obtain ⟨t, op, hop, rfl⟩ := h
  refine ⟨t, b, rfl, ?_⟩
  unfold UnaryOp.ofKind? at hop
  split at hop
  · next hk => rw [hk]; decide
  · next hk => rw [hk]; decide
  · cases hop

/-- An expression starts with a token that can start one. -/
theorem ExprPhrase.startsWith {S : ExprPhrase.Symbol} {a b : List Token} (h : ExprPhrase S a b)
    (hS : S ≠ .args) : StartsWith exprKinds a := by
  induction h with
  | operand _ _ ih | binary _ _ _ _ ih => exact ih (by simp)
  | primary _ ih | one _ ih | more _ _ _ ih => exact ih (by simp)
  | unary hs => exact hs.startsWith
  | integer hi =>
    obtain ⟨t, hk, -, rfl⟩ := hi
    exact ⟨t, _, rfl, by rw [hk]; decide⟩
  | @atom k _ _ hk hm =>
    have hall : ∀ k ∈ [Kind.string, .kwTrue, .kwFalse, .kwNull, .identifier], k ∈ exprKinds := by
      decide
    exact hm.startsWith (hall k hk)
  | call hm | list hm | group hm => exact hm.startsWith (by decide)
  | nothing | something => exact absurd rfl hS

/-- A statement starts with a token that can start one. -/
theorem StmtPhrase.startsWith {S : StmtPhrase.Symbol} {f : Bool} {a b : List Token}
    (h : StmtPhrase S f a b) (hS : S = .stmt ∨ S = .conditional) : StartsWith stmtKinds a := by
  induction h with
  | print hm | forEach hm | declare hm | assign hm | call hm | define hm | ret hm | retWith hm
  | cond hm | elseCond hm | elseBody hm => exact hm.startsWith (by decide)
  | conditional _ ih => exact ih (.inr rfl)
  | body | none | more => simp at hS

end CatScript.Grammar
