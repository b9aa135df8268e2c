import CatScript.Code.Layout
import CatScript.Program

/-!
# Lowering (specification §4.4)

The main method holds the statements of the program, and each function has a method of its own
under its symbol. The code of an expression leaves exactly one value on the stack, as a native
number if the expression has type `int` or `bool` and as a reference otherwise; the code of a
statement leaves the stack as it was. Lowering gets the offset at which the code will stand, so
that jumps can name their targets. With `⟦·⟧` for the code of a part:

| source               | code                                                             |
|----------------------|------------------------------------------------------------------|
| `not e`              | `⟦e⟧`, 0 or 1 by a jump if false                                 |
| `a < b`              | `⟦a⟧ ⟦b⟧`, 0 or 1 by a jump if less                              |
| `a + b`              | `⟦a⟧ ⟦b⟧ IAdd`, or both boxed and `Concat` for a `string`        |
| `a == b`             | compared as numbers if both have one native type, else boxed     |
| `f(a)`               | `⟦a⟧` as the parameter wants it, `InvokeStatic`, null if `void`  |
| `if (e) {..} else ..`| `⟦e⟧`, jump if false to the else part, `⟦..⟧`, jump to the end    |
| `for (x in e) {..}`  | iterator in a slot, then until it ends: next item into `x`, `⟦..⟧` |

A function's method ends in `Return`, also behind a body that always returns.
-/
namespace CatScript

open Code

namespace Code

/-- Pushes 1 if the jump would be taken and 0 if not. -/
def truth (j : Jump) (start : Nat) : List Instruction :=
  [.jump j (start + 3), .pushInt 0, .jump .always (start + 4), .pushInt 1]

/-- How an operator with operands of the given types is lowered. -/
inductive Scheme where
  | numbers (i : Instruction)  -- an instruction on two numbers
  | comparison (j : Jump)      -- a jump on two numbers
  | equality (j : Jump)        -- a jump on whether two references are equal
  | joining                    -- the joined texts of two references

/-- The scheme of an operator, by the type of the operation and those of its operands. -/
def scheme (op : BinaryOp) (result left right : Ty) : Scheme :=
  match op with
  | .add => if result = .string then .joining else .numbers .add
  | .sub => if result = .string then .joining else .numbers .sub
  | .mul => .numbers .mul
  | .div => .numbers .div
  | .gt => .comparison .ifGt
  | .ge => .comparison .ifGe
  | .lt => .comparison .ifLt
  | .le => .comparison .ifLe
  | .eq => if left.isNative ∧ left = right then .comparison .ifEq else .equality .ifTrue
  | .ne => if left.isNative ∧ left = right then .comparison .ifNe else .equality .ifFalse

/-- What boxes the operands in a scheme that wants references. -/
def Scheme.boxing (s : Scheme) (ty : Ty) : List Instruction :=
  match s with
  | .numbers _ | .comparison _ => []
  | .equality _ | .joining => Code.boxing ty

/-- What follows the operands, at offset `start`. -/
def Scheme.finish (s : Scheme) (start : Nat) : List Instruction :=
  match s with
  | .numbers i => [i]
  | .comparison j => truth j start
  | .equality j => .equals :: truth j (start + 1)
  | .joining => [.concat]

end Code

namespace Expr

mutual

/-- The code of an expression, to stand at offset `start`. -/
def lower (L : Layout) (start : Nat) : Expr → Except Fault (List Instruction)
  | int _ v => .ok [.pushInt v]
  | str _ v => .ok [.pushString v]
  | bool _ v => .ok [.pushInt (if v then 1 else 0)]
  | null _ => .ok [.pushNull]
  | var _ x => do
    let v ← L.find x
    .ok [v.load]
  | unary _ op e => do
    let code ← e.lower L start
    match op with
    | .negate => .ok (code ++ [.neg])
    | .not => .ok (code ++ truth .ifFalse (start + code.length))
  | binary n op l r => do
    let s := scheme op (n.ty.getD .object) l.ty r.ty
    let left ← l.lower L start
    let left := left ++ s.boxing l.ty
    let right ← r.lower L (start + left.length)
    let both := left ++ right ++ s.boxing r.ty
    .ok (both ++ s.finish (start + both.length))
  | paren _ e => e.lower L start
  | list _ es => do
    let code ← lowerItems L start es
    .ok (code ++ [.makeList es.length])
  | call _ f es symbol => do
    let s ← L.findFunction (symbol.getD f)
    let code ← lowerArgs L start s.params es
    let result := if s.result = .void then [.pushNull] else []
    .ok (code ++ .invoke s.symbol es.length :: result)

/-- The code of the items of a list, each as a reference. -/
def lowerItems (L : Layout) (start : Nat) : List Expr → Except Fault (List Instruction)
  | [] => .ok []
  | e :: es => do
    let code ← e.lower L start
    let code := code ++ boxing e.ty
    let more ← lowerItems L (start + code.length) es
    .ok (code ++ more)

/-- The code of the arguments of a call, each as its parameter wants it. What has no partner is
left out. -/
def lowerArgs (L : Layout) (start : Nat) :
    List (String × Ty) → List Expr → Except Fault (List Instruction)
  | p :: ps, e :: es => do
    let code ← e.lower L start
    let code := code ++ coercion e.ty p.2
    let more ← lowerArgs L (start + code.length) ps es
    .ok (code ++ more)
  | _, _ => .ok []

end

end Expr

namespace Stmt

mutual

/-- The code of a statement, to stand at offset `start`, and the layout behind it. -/
def lower (L : Layout) (start : Nat) : Stmt → Except Fault (List Instruction × Layout)
  | print _ e => do
    let code ← e.lower L start
    .ok (code ++ boxing e.ty ++ [.print], L)
  | forEach _ x e body => do
    let element := e.ty.element?.getD .object
    let source ← e.lower L start
    let (slot, L) := L.allocate
    let source := source ++ [.getIterator, .storeLocal slot]
    let top := start + source.length
    let (v, L) := L.push.declare x element
    let item := [.loadLocal slot, .next] ++ coercion .object element ++ [v.store]
    let (inner, L) ← lowerAll L (top + 3 + item.length) body
    let stop := top + 3 + item.length + inner.length + 1
    .ok (source ++ [.loadLocal slot, .hasNext, .jump .ifFalse stop] ++ item ++ inner ++
      [.jump .always top], L.pop)
  | cond _ e yes none => do
    let test ← e.lower L start
    let yesAt := start + test.length + 1
    let (yes, L) ← lowerAll L.push yesAt yes
    let noAt := yesAt + yes.length + 1
    .ok (test ++ [.jump .ifFalse noAt] ++ yes ++ [.jump .always noAt], L.pop)
  | cond _ e yes (some no) => do
    let test ← e.lower L start
    let yesAt := start + test.length + 1
    let (yes, L) ← lowerAll L.push yesAt yes
    let noAt := yesAt + yes.length + 1
    let (no, L) ← lowerAll L.pop.push noAt no
    .ok (test ++ [.jump .ifFalse noAt] ++ yes ++ [.jump .always (noAt + no.length)] ++ no, L.pop)
  | declare _ x t e => do
    let ty := (t.map (·.ty)).getD e.ty
    let code ← e.lower L start
    let (v, L) := L.declare x ty
    .ok (code ++ coercion e.ty ty ++ [v.store], L)
  | assign _ x e => do
    let v ← L.find x
    let code ← e.lower L start
    .ok (code ++ coercion e.ty v.ty ++ [v.store], L)
  | call _ e => do
    let code ← e.lower L start
    .ok (code ++ [.pop], L)
  | define _ _ _ => .ok ([], L)
  | ret _ none => .ok ([.ret], L)
  | ret _ (some e) => do
    let code ← e.lower L start
    .ok (code ++ coercion e.ty L.result ++ [.retValue], L)
  | invalid _ _ => .ok ([], L)

def lowerAll (L : Layout) (start : Nat) : List Stmt → Except Fault (List Instruction × Layout)
  | [] => .ok ([], L)
  | s :: ss => do
    let (code, L) ← s.lower L start
    let (more, L) ← lowerAll L (start + code.length) ss
    .ok (code ++ more, L)

end

end Stmt

namespace Function

/-- The method of a function, given the functions and globals of its program. -/
def lower (functions : Table Signature) (globals : Table Variable) (f : Function) :
    Except Fault Method := do
  let (code, L) ← Stmt.lowerAll (.function functions globals f.header) 0 f.body
  .ok ⟨f.header.symbol, f.header.params.length, L.nextSlot, code ++ [.ret]⟩

/-- Adds the methods of the functions to the code. -/
def lowerAll (functions : Table Signature) (globals : Table Variable) (code : Code) :
    List Function → Except Fault Code
  | [] => .ok code
  | f :: fs => do
    let m ← f.lower functions globals
    lowerAll functions globals (code.add m) fs

end Function

namespace Program

/-- The signatures of the program's functions by symbol. -/
def signatures (p : Program) : Table Signature :=
  .ofList (p.functions.map fun f => (f.header.symbol, f.header.signature))

/-- The code of the main method without its last instruction, and the layout behind it. An
expression prints its value. -/
def lowerMain (p : Program) : Except Fault (List Instruction × Layout) :=
  let L := Layout.main p.signatures
  match p.body with
  | .expression e => do
    let code ← e.lower L 0
    .ok (code ++ boxing e.ty ++ [.print], L)
  | .statements ss => Stmt.lowerAll L 0 ss

/-- The code of a program. The main method comes first, so that its variables are known to the
functions. -/
def lower (p : Program) : Except Fault Code :=
  match p.diagnostics.length with
  | 0 => do
    let (code, L) ← p.lowerMain
    let main : Method := ⟨mainName, 0, L.nextSlot, code ++ [.ret]⟩
    Function.lowerAll p.signatures (L.scopes.getLast?.getD []) (Code.empty.add main) p.functions
  | count => .error (.invalidProgram count)

end Program

end CatScript
