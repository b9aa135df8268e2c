import CatScript.Program
import CatScript.Text.Decimal

/-!
# Programs as JavaScript (specification §4.5)

A program becomes a list of lines behind a prelude. The prelude's functions make printing, `+`
and `==` act as they do here: lists print with brackets, `+` joins texts as soon as one side is
a string, and lists are equal if their items are.

Each line has a depth, the number of blocks open around it. A line that ends in an opening
brace opens a block, a line that starts with a closing one closes it first. An else part that
is a single conditional is written as `else if`. A function that can end without a return ends
in `return null;`, so a call has the value null and not `undefined`.
-/
namespace CatScript

namespace JavaScript

/-! ## String literals

A literal stands between double quotes. Quote, backslash, newline, carriage return and tab are
escaped by a letter, the other characters below the space by four hexadecimal digits, and
everything else stands as it is. -/

/-- At least four hexadecimal digits. -/
def hex4 (n : Nat) : List Char :=
  let digits := Nat.toDigits 16 n
  List.replicate (4 - digits.length) '0' ++ digits

def literalChar (c : Char) : List Char :=
  if c = '"' then ['\\', '"']
  else if c = '\\' then ['\\', '\\']
  else if c = '\n' then ['\\', 'n']
  else if c = '\r' then ['\\', 'r']
  else if c = '\t' then ['\\', 't']
  else if c.toNat < 0x20 then '\\' :: 'u' :: hex4 c.toNat
  else [c]

def literal (s : String) : String :=
  String.ofList ('"' :: s.toList.flatMap literalChar ++ ['"'])

/-! ## Lines -/

/-- The functions that every emitted program starts with. -/
def prelude : String :=
  "function $str(value) \x7b\n" ++
  "    if (value === null) return \"null\";\n" ++
  "    if (Array.isArray(value)) return \"[\" + value.map($str).join(\", \") + \"]\";\n" ++
  "    return String(value);\n" ++
  "\x7d\n" ++
  "function $add(left, right) \x7b\n" ++
  "    if (typeof left === \"string\" || typeof right === \"string\") " ++
    "return $str(left) + $str(right);\n" ++
  "    return left + right;\n" ++
  "\x7d\n" ++
  "function $eq(left, right) \x7b\n" ++
  "    if (Array.isArray(left) && Array.isArray(right)) \x7b\n" ++
  "        return left.length === right.length && " ++
    "left.every((value, index) => $eq(value, right[index]));\n" ++
  "    \x7d\n" ++
  "    return left === right;\n" ++
  "\x7d\n"

/-- A line without its indentation, and how many blocks are open around it. -/
structure Line where
  depth : Nat
  text : String
  deriving DecidableEq, Repr

/-- The line behind four spaces for each open block. -/
def Line.render (l : Line) : String :=
  String.ofList (List.replicate (4 * l.depth) ' ') ++ l.text ++ "\n"

def render (lines : List Line) : String := String.join (lines.map Line.render)

end JavaScript

open JavaScript

def UnaryOp.javaScript : UnaryOp → String
  | negate => "-"
  | not => "!"

/-- The operation on operands that are written already. Quotients are cut off toward zero, and sums
and equality go by the functions of the prelude, which know lists and `null`. -/
def BinaryOp.javaScript (op : BinaryOp) (l r : String) : String :=
  match op with
  | add => "$add(" ++ l ++ ", " ++ r ++ ")"
  | sub | mul | gt | ge | lt | le => l ++ " " ++ op.text ++ " " ++ r
  | div => "Math.trunc(" ++ l ++ " / " ++ r ++ ")"
  | eq => "$eq(" ++ l ++ ", " ++ r ++ ")"
  | ne => "!$eq(" ++ l ++ ", " ++ r ++ ")"

namespace Expr

def isUnary : Expr → Bool
  | unary _ _ _ => true
  | _ => false

mutual

/-- The expression in JavaScript. A unary operand of a unary operator gets parentheses, so that
two minus signs do not run together. -/
def javaScript : Expr → String
  | int _ v => Text.decimal v
  | str _ v => literal v
  | bool _ v => if v then "true" else "false"
  | null _ => "null"
  | var _ x => x
  | unary _ op e =>
    if e.isUnary then op.javaScript ++ "(" ++ e.javaScript ++ ")"
    else op.javaScript ++ e.javaScript
  | binary _ op l r => op.javaScript l.javaScript r.javaScript
  | paren _ e => "(" ++ e.javaScript ++ ")"
  | list _ es => "[" ++ javaScriptAll es ++ "]"
  | call _ f es _ => f ++ "(" ++ javaScriptAll es ++ ")"

/-- The expressions with commas between them. -/
def javaScriptAll : List Expr → String
  | [] => ""
  | [e] => e.javaScript
  | e :: d :: es => e.javaScript ++ ", " ++ javaScriptAll (d :: es)

end

end Expr

namespace Stmt

mutual

/-- The lines of a statement, `depth` blocks deep. -/
def javaScript (depth : Nat) : Stmt → List Line
  | print _ e => [⟨depth, "console.log($str(" ++ e.javaScript ++ "));"⟩]
  | forEach _ x e body =>
    ⟨depth, "for (const " ++ x ++ " of " ++ e.javaScript ++ ") \x7b"⟩ ::
      javaScriptAll (depth + 1) body ++ [⟨depth, "\x7d"⟩]
  | cond _ e yes none =>
    ⟨depth, "if (" ++ e.javaScript ++ ") \x7b"⟩ ::
      javaScriptAll (depth + 1) yes ++ [⟨depth, "\x7d"⟩]
  | cond _ e yes (some no) =>
    ⟨depth, "if (" ++ e.javaScript ++ ") \x7b"⟩ ::
      javaScriptAll (depth + 1) yes ++ elseLines depth no ++ [⟨depth, "\x7d"⟩]
  | declare _ x _ e => [⟨depth, "let " ++ x ++ " = " ++ e.javaScript ++ ";"⟩]
  | assign _ x e => [⟨depth, x ++ " = " ++ e.javaScript ++ ";"⟩]
  | call _ e => [⟨depth, e.javaScript ++ ";"⟩]
  | define _ h body =>
    ⟨depth, "function " ++ h.name ++ "(" ++ ", ".intercalate (h.params.map (·.name)) ++ ") \x7b"⟩ ::
      javaScriptAll (depth + 1) body ++
      (if lastReturns body then [] else [⟨depth + 1, "return null;"⟩]) ++ [⟨depth, "\x7d"⟩]
  | ret _ none => [⟨depth, "return null;"⟩]
  | ret _ (some e) => [⟨depth, "return " ++ e.javaScript ++ ";"⟩]
  | invalid _ _ => []

def javaScriptAll (depth : Nat) : List Stmt → List Line
  | [] => []
  | s :: ss => s.javaScript depth ++ javaScriptAll depth ss

/-- The lines of an else part, up to its closing brace. -/
def elseLines (depth : Nat) : List Stmt → List Line
  | [] => [⟨depth, "\x7d else \x7b"⟩]
  | [cond _ e yes none] =>
    ⟨depth, "\x7d else if (" ++ e.javaScript ++ ") \x7b"⟩ :: javaScriptAll (depth + 1) yes
  | [cond _ e yes (some no)] =>
    ⟨depth, "\x7d else if (" ++ e.javaScript ++ ") \x7b"⟩ ::
      javaScriptAll (depth + 1) yes ++ elseLines depth no
  | s :: ss =>
    ⟨depth, "\x7d else \x7b"⟩ :: s.javaScript (depth + 1) ++ javaScriptAll (depth + 1) ss

end

end Stmt

namespace Program

/-- The program's own lines. An expression prints its value. -/
def javaScriptLines (p : Program) : List Line :=
  match p.body with
  | .expression e => [⟨0, "console.log($str(" ++ e.javaScript ++ "));"⟩]
  | .statements ss => Stmt.javaScriptAll 0 ss

/-- The program behind the prelude. -/
def javaScript (p : Program) : String := prelude ++ render p.javaScriptLines

end Program

end CatScript
