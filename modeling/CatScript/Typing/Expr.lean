import CatScript.Typing.Context

/-!
# Checking expressions (specification §4.2)

Checking computes the type of an expression and of all its parts and reports what does not
fit. Operators want `int` or `bool` exactly; `+` also joins texts, as soon as one side is a
`string`; `==` and `!=` compare anything. An argument may have any type that its parameter
accepts.

Checking changes an expression in its notes and in the symbols of its calls, and nowhere
else. It appends to the diagnostics and reads neither them nor the types found before.
-/
namespace CatScript

open Typing (Context)

namespace Typing

def incompatible (expected received : Ty) : Cause :=
  .incompatibleTypes expected.display received.display

/-- Reports a checked expression whose type is not exactly the expected one. -/
def wants (expected : Ty) (e : Expr) : List Diagnostic :=
  if e.ty = expected then [] else [(incompatible expected e.ty).at e.span]

/-- Reports a checked expression that cannot be stored under the expected type. -/
def fits (expected : Ty) (e : Expr) : List Diagnostic :=
  if expected.accepts e.ty then [] else [(incompatible expected e.ty).at e.span]

end Typing

open Typing

/-- The type that the operator wants and gives. -/
def UnaryOp.ty : UnaryOp → Ty
  | negate => .int
  | not => .bool

/-- The type of an operation on checked operands, and what is wrong with these. -/
def BinaryOp.typing (op : BinaryOp) (l r : Expr) : Ty × List Diagnostic :=
  match op with
  | add =>
    if l.ty = .string ∨ r.ty = .string then (.string, []) else (.int, wants .int l ++ wants .int r)
  | sub | mul | div => (.int, wants .int l ++ wants .int r)
  | gt | ge | lt | le => (.bool, wants .int l ++ wants .int r)
  | eq | ne => (.bool, [])

/-- The type of a call with checked arguments, and what is wrong with these. -/
def Typing.callTyping (signature : Signature) (span : Span) (args : List Expr) :
    Ty × List Diagnostic :=
  let expected := signature.params.length
  if expected ≠ args.length then (signature.result, [(Cause.arityMismatch expected args.length).at span])
  else (signature.result, (List.zipWith (fun p e => fits p.2 e) signature.params args).flatten)

/-- The note of a checked expression. -/
def Expr.Note.typed (n : Expr.Note) (typing : Ty × List Diagnostic) : Expr.Note :=
  { n with ty := some typing.1, errors := n.errors ++ typing.2 }

namespace Expr

mutual

/-- Checks an expression behind its parts. What has no type of its own is an `object`. -/
def check (Γ : Context) : Expr → Expr
  | int n v => int (n.typed (.int, [])) v
  | str n v => str (n.typed (.string, [])) v
  | bool n v => bool (n.typed (.bool, [])) v
  | null n => null (n.typed (.object, []))
  | var n x =>
    match Γ.typeOf? x with
    | some t => var (n.typed (t, [])) x
    | none => var (n.typed (.object, [(Cause.unresolvedSymbol x).at n.span])) x
  | unary n op e =>
    let e := e.check Γ
    unary (n.typed (op.ty, wants op.ty e)) op e
  | binary n op l r =>
    let l := l.check Γ
    let r := r.check Γ
    binary (n.typed (op.typing l r)) op l r
  | paren n e =>
    let e := e.check Γ
    paren (n.typed (e.ty, [])) e
  | list n es =>
    let es := checkAll Γ es
    list (n.typed (.list (.join (es.map ty)), [])) es
  | call n f es _ =>
    let es := checkAll Γ es
    match Γ.signatureOf? f with
    | none => call (n.typed (.object, [(Cause.unresolvedSymbol f).at n.span])) f es none
    | some s => call (n.typed (callTyping s n.span es)) f es (some s.symbol)

def checkAll (Γ : Context) : List Expr → List Expr
  | [] => []
  | e :: es => e.check Γ :: checkAll Γ es

end

theorem checkAll_eq (Γ : Context) (es : List Expr) : checkAll Γ es = es.map (check Γ) := by
  induction es with
  | nil => rfl
  | cons e es ih => simp [checkAll, ih]

end Expr

end CatScript
