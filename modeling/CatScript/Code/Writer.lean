import CatScript.Code.Assembler
import CatScript.Code.Lower

/-!
# Writing code with labels

A program can be lowered in one pass that never looks ahead: its instructions are written one by one
into an assembler, a jump goes to a label, and a label is placed where the pass comes to the
instruction that it stands for. The state of the pass is the assembler and the layout, and both are
handed on from method to method. Of the layout, a function keeps the outermost scope, which holds
the globals.

A label that is placed twice, or not at all, would give other code than meant, or none. That every
method is the one of `Program.lower`, which is given its offsets, is `Program.write_eq`.
-/
namespace CatScript

open Code

namespace Code

namespace Assembler

def writeAll (a : Assembler) (lines : List Line) : Assembler := lines.foldl write a

/-- Writes instructions that are no jumps to labels. -/
def emit (a : Assembler) (is : List Instruction) : Assembler := a.writeAll (is.map .instruction)

/-- Pushes 1 if the jump would be taken and 0 if not. -/
def truth (a : Assembler) (j : Jump) : Assembler :=
  let (yes, a) := a.newLabel
  let (stop, a) := a.newLabel
  a.writeAll [.jump j yes, .instruction (.pushInt 0), .jump .always stop, .place yes,
    .instruction (.pushInt 1), .place stop]

/-- What follows the operands in a scheme. -/
def finishScheme (a : Assembler) : Scheme → Assembler
  | .numbers i => a.emit [i]
  | .comparison j => a.truth j
  | .equality j => (a.emit [.equals]).truth j
  | .joining => a.emit [.concat]

/-- Ends a method behind its last instruction. -/
def close (a : Assembler) (locals : Nat) : Except Fault Assembler :=
  match (a.emit [.ret]).finish locals with
  | (.ok (), a) => .ok a
  | (.error f, _) => .error f

end Assembler

/-- The layout at the start of a function, from that behind the method before it. -/
def Layout.enter (L : Layout) (h : Header) : Layout :=
  h.params.foldl (fun L p => (L.declare p.name p.ty).2)
    { L with
      scopes := [] :: L.scopes.getLast?.toList
      inFunction := true
      nextSlot := 0
      result := h.resultTy }

end Code

namespace Expr

mutual

/-- Writes the code of an expression, operands before their operator. -/
def write (L : Layout) (a : Assembler) : Expr → Except Fault Assembler
  | int _ v => .ok (a.emit [.pushInt v])
  | str _ v => .ok (a.emit [.pushString v])
  | bool _ v => .ok (a.emit [.pushInt (if v then 1 else 0)])
  | null _ => .ok (a.emit [.pushNull])
  | var _ x => do
    let v ← L.find x
    .ok (a.emit [v.load])
  | unary _ op e => do
    let a ← e.write L a
    match op with
    | .negate => .ok (a.emit [.neg])
    | .not => .ok (a.truth .ifFalse)
  | binary n op l r => do
    let s := scheme op (n.ty.getD .object) l.ty r.ty
    let a ← l.write L a
    let a ← r.write L (a.emit (s.boxing l.ty))
    .ok ((a.emit (s.boxing r.ty)).finishScheme s)
  | paren _ e => e.write L a
  | list _ es => do
    let a ← writeItems L a es
    .ok (a.emit [.makeList es.length])
  | call _ f es symbol => do
    let s ← L.findFunction (symbol.getD f)
    let a ← writeArgs L a s.params es
    let result := if s.result = .void then [.pushNull] else []
    .ok (a.emit (.invoke s.symbol es.length :: result))

def writeItems (L : Layout) (a : Assembler) : List Expr → Except Fault Assembler
  | [] => .ok a
  | e :: es => do
    let a ← e.write L a
    writeItems L (a.emit (boxing e.ty)) es

def writeArgs (L : Layout) (a : Assembler) :
    List (String × Ty) → List Expr → Except Fault Assembler
  | p :: ps, e :: es => do
    let a ← e.write L a
    writeArgs L (a.emit (coercion e.ty p.2)) ps es
  | _, _ => .ok a

end

end Expr

namespace Stmt

mutual

/-- Writes the code of a statement and gives the layout behind it. -/
def write (L : Layout) (a : Assembler) : Stmt → Except Fault (Assembler × Layout)
  | print _ e => do
    let a ← e.write L a
    .ok (a.emit (boxing e.ty ++ [.print]), L)
  | forEach _ x e body => do
    let element := e.ty.element?.getD .object
    let a ← e.write L a
    let (slot, L) := L.allocate
    let (top, a) := (a.emit [.getIterator, .storeLocal slot]).newLabel
    let (stop, a) := a.newLabel
    let a := a.writeAll [.place top, .instruction (.loadLocal slot), .instruction .hasNext,
      .jump .ifFalse stop]
    let (v, L) := L.push.declare x element
    let a := a.emit ([.loadLocal slot, .next] ++ coercion .object element ++ [v.store])
    let (a, L) ← writeAll L a body
    .ok (a.writeAll [.jump .always top, .place stop], L.pop)
  | cond _ e yes none => do
    let (other, a) := a.newLabel
    let (stop, a) := a.newLabel
    let a ← e.write L a
    let (a, L) ← writeAll L.push (a.write (.jump .ifFalse other)) yes
    .ok (a.writeAll [.jump .always stop, .place other, .place stop], L.pop)
  | cond _ e yes (some no) => do
    let (other, a) := a.newLabel
    let (stop, a) := a.newLabel
    let a ← e.write L a
    let (a, L) ← writeAll L.push (a.write (.jump .ifFalse other)) yes
    let (a, L) ← writeAll L.pop.push (a.writeAll [.jump .always stop, .place other]) no
    .ok (a.write (.place stop), L.pop)
  | declare _ x t e => do
    let ty := (t.map (·.ty)).getD e.ty
    let a ← e.write L a
    let (v, L) := L.declare x ty
    .ok (a.emit (coercion e.ty ty ++ [v.store]), L)
  | assign _ x e => do
    let v ← L.find x
    let a ← e.write L a
    .ok (a.emit (coercion e.ty v.ty ++ [v.store]), L)
  | call _ e => do
    let a ← e.write L a
    .ok (a.emit [.pop], L)
  | define _ _ _ => .ok (a, L)
  | ret _ none => .ok (a.emit [.ret], L)
  | ret _ (some e) => do
    let a ← e.write L a
    .ok (a.emit (coercion e.ty L.result ++ [.retValue]), L)
  | invalid _ _ => .ok (a, L)

def writeAll (L : Layout) (a : Assembler) : List Stmt → Except Fault (Assembler × Layout)
  | [] => .ok (a, L)
  | s :: ss => do
    let (a, L) ← s.write L a
    writeAll L a ss

end

end Stmt

/-- Writes the method of a function. -/
def Function.write (L : Layout) (a : Assembler) (f : Function) :
    Except Fault (Assembler × Layout) := do
  let (a, L) ← Stmt.writeAll (L.enter f.header)
    (a.start f.header.symbol f.header.params.length) f.body
  let a ← a.close L.nextSlot
  .ok (a, L.pop)

def Function.writeAll (L : Layout) (a : Assembler) : List Function → Except Fault Assembler
  | [] => .ok a
  | f :: fs => do
    let (a, L) ← f.write L a
    writeAll L a fs

namespace Program

/-- Writes the main method up to its last instruction. -/
def writeMain (p : Program) : Except Fault (Assembler × Layout) :=
  let L := Layout.main p.signatures
  let a := Assembler.empty.start mainName 0
  match p.body with
  | .expression e => do
    let a ← e.write L a
    .ok (a.emit (boxing e.ty ++ [.print]), L)
  | .statements ss => Stmt.writeAll L a ss

/-- The code of a program, by the methods that have been written for it. -/
def write (p : Program) : Except Fault Code :=
  match p.diagnostics.length with
  | 0 => do
    let (a, L) ← p.writeMain
    let a ← a.close L.nextSlot
    let a ← Function.writeAll L a p.functions
    .ok a.code
  | count => .error (.invalidProgram count)

end Program

end CatScript
