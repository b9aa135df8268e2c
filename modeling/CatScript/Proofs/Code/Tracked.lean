import CatScript.Code.Lower
import CatScript.Proofs.Typing.Probe

/-!
# Tracked lowering

A lowering that is tracked writes down which variable it finds at each occurrence of a name. Its
text is that of the lowering, with `Layout.seek` in the place of `Layout.find`. It gives the same
code, or fails for the same reason, since both do the same at every step (`Erases.pure`,
`Erases.bind`): `Expr.track_erases`, `Stmt.track_erases` and `Program.track_erases`.

The main method comes first and the methods of the functions behind it, so that what is written
down is not in the order of the source.
-/
namespace CatScript

open Code

namespace Code

/-- A variable that is found at an occurrence of its name. -/
structure Finding where
  occurrence : Occurrence
  target : Variable
  deriving DecidableEq, Repr

/-- What a part of a lowering gives, and what it finds up to its end or its failure. -/
structure Tracked (α : Type) where
  result : Except Fault α
  findings : List Finding

namespace Tracked

variable {α β : Type}

instance : Monad Tracked where
  pure a := ⟨.ok a, []⟩
  bind x f :=
    match x.result with
    | .ok a => ⟨(f a).result, x.findings ++ (f a).findings⟩
    | .error fault => ⟨.error fault, x.findings⟩

/-- A step that finds no variable. -/
def of (x : Except Fault α) : Tracked α := ⟨x, []⟩

/-- The occurrences at which a variable is found, with its type. -/
def found (x : Tracked α) : List (Occurrence × Option Ty) :=
  x.findings.map fun f => (f.occurrence, some f.target.ty)

@[simp] theorem found_pure (a : α) : (pure a : Tracked α).found = [] := rfl

@[simp] theorem found_of (x : Except Fault α) : (of x).found = [] := rfl

theorem found_bind {x : Tracked α} {a : α} (h : x.result = .ok a) (f : α → Tracked β) :
    (x >>= f).found = x.found ++ (f a).found := by
  obtain ⟨result, findings⟩ := x
  cases h
  exact List.map_append

/-- A step behind which nothing more is found, whether it fails or not. -/
theorem found_bind_of_nil {f : α → Tracked β} (hf : ∀ a, (f a).found = []) (x : Tracked α) :
    (x >>= f).found = x.found := by
  obtain ⟨result, findings⟩ := x
  cases result with
  | ok a => rw [found_bind rfl, hf, List.append_nil]
  | error fault => rfl

end Tracked

/-- The lowering that is left when what was found is forgotten. -/
def Erases {α : Type} (x : Tracked α) (y : Except Fault α) : Prop := x.result = y

namespace Erases

variable {α β : Type}

theorem pure (a : α) : Erases (pure a) (.ok a) := rfl

theorem of (x : Except Fault α) : Erases (.of x) x := rfl

theorem bind {x : Tracked α} {y : Except Fault α} {f : α → Tracked β} {g : α → Except Fault β}
    (h : Erases x y) (hfg : ∀ a, Erases (f a) (g a)) : Erases (x >>= f) (y >>= g) := by
  obtain ⟨result, findings⟩ := x
  cases h
  cases result with
  | ok a => exact hfg a
  | error fault => rfl

end Erases

/-- Finds a variable and writes it down. -/
def Layout.seek (L : Layout) (span : Span) (name : String) : Tracked Variable :=
  ⟨L.find name, (L.find name).toOption.toList.map (⟨⟨span, name⟩, ·⟩)⟩

theorem Layout.seek_erases (L : Layout) (span : Span) (name : String) :
    Erases (L.seek span name) (L.find name) := rfl

theorem Layout.found_seek {L : Layout} {span : Span} {name : String} {v : Variable}
    (h : L.find name = .ok v) : (L.seek span name).found = [(⟨span, name⟩, some v.ty)] := by
  rw [seek, h]
  rfl

end Code

/-! ## Expressions -/

namespace Expr

mutual

def track (L : Layout) (start : Nat) : Expr → Tracked (List Instruction)
  | int _ v => pure [.pushInt v]
  | str _ v => pure [.pushString v]
  | bool _ v => pure [.pushInt (if v then 1 else 0)]
  | null _ => pure [.pushNull]
  | var n x => do
    let v ← L.seek n.span x
    pure [v.load]
  | unary _ op e => do
    let code ← e.track L start
    match op with
    | .negate => pure (code ++ [.neg])
    | .not => pure (code ++ truth .ifFalse (start + code.length))
  | binary n op l r => do
    let s := scheme op (n.ty.getD .object) l.ty r.ty
    let left ← l.track L start
    let left := left ++ s.boxing l.ty
    let right ← r.track L (start + left.length)
    let both := left ++ right ++ s.boxing r.ty
    pure (both ++ s.finish (start + both.length))
  | paren _ e => e.track L start
  | list _ es => do
    let code ← trackItems L start es
    pure (code ++ [.makeList es.length])
  | call _ f es symbol => do
    let s ← .of (L.findFunction (symbol.getD f))
    let code ← trackArgs L start s.params es
    let result := if s.result = .void then [.pushNull] else []
    pure (code ++ .invoke s.symbol es.length :: result)

def trackItems (L : Layout) (start : Nat) : List Expr → Tracked (List Instruction)
  | [] => pure []
  | e :: es => do
    let code ← e.track L start
    let code := code ++ boxing e.ty
    let more ← trackItems L (start + code.length) es
    pure (code ++ more)

def trackArgs (L : Layout) (start : Nat) :
    List (String × Ty) → List Expr → Tracked (List Instruction)
  | p :: ps, e :: es => do
    let code ← e.track L start
    let code := code ++ coercion e.ty p.2
    let more ← trackArgs L (start + code.length) ps es
    pure (code ++ more)
  | _, _ => pure []

end

mutual

theorem track_erases (L : Layout) :
    (e : Expr) → ∀ start, Erases (e.track L start) (e.lower L start)
  | int _ _, _ | str _ _, _ | bool _ _, _ | null _, _ => .pure _
  | var n x, _ => .bind (L.seek_erases n.span x) fun _ => .pure _
  | unary _ op e, start => by
    refine .bind (track_erases L e start) fun code => ?_
    cases op <;> exact .pure _
  | binary _ op l r, start =>
    .bind (track_erases L l start) fun _ => .bind (track_erases L r _) fun _ => .pure _
  | paren _ e, start => track_erases L e start
  | list _ es, start => .bind (trackItems_erases L es start) fun _ => .pure _
  | call _ _ es _, start =>
    .bind (.of _) fun s => .bind (trackArgs_erases L s.params es start) fun _ => .pure _

theorem trackItems_erases (L : Layout) :
    (es : List Expr) → ∀ start, Erases (trackItems L start es) (lowerItems L start es)
  | [], _ => .pure _
  | e :: es, start =>
    .bind (track_erases L e start) fun _ => .bind (trackItems_erases L es _) fun _ => .pure _

theorem trackArgs_erases (L : Layout) : (ps : List (String × Ty)) → (es : List Expr) → ∀ start,
    Erases (trackArgs L start ps es) (lowerArgs L start ps es)
  | _ :: ps, e :: es, start =>
    .bind (track_erases L e start) fun _ => .bind (trackArgs_erases L ps es _) fun _ => .pure _
  | [], [], _ | [], _ :: _, _ | _ :: _, [], _ => .pure _

end

end Expr

/-! ## Statements -/

namespace Stmt

mutual

def track (L : Layout) (start : Nat) : Stmt → Tracked (List Instruction × Layout)
  | print _ e => do
    let code ← e.track L start
    pure (code ++ boxing e.ty ++ [.print], L)
  | forEach _ x e body => do
    let element := e.ty.element?.getD .object
    let source ← e.track L start
    let (slot, L) := L.allocate
    let source := source ++ [.getIterator, .storeLocal slot]
    let top := start + source.length
    let (v, L) := L.push.declare x element
    let item := [.loadLocal slot, .next] ++ coercion .object element ++ [v.store]
    let (inner, L) ← trackAll L (top + 3 + item.length) body
    let stop := top + 3 + item.length + inner.length + 1
    pure (source ++ [.loadLocal slot, .hasNext, .jump .ifFalse stop] ++ item ++ inner ++
      [.jump .always top], L.pop)
  | cond _ e yes none => do
    let test ← e.track L start
    let yesAt := start + test.length + 1
    let (yes, L) ← trackAll L.push yesAt yes
    let noAt := yesAt + yes.length + 1
    pure (test ++ [.jump .ifFalse noAt] ++ yes ++ [.jump .always noAt], L.pop)
  | cond _ e yes (some no) => do
    let test ← e.track L start
    let yesAt := start + test.length + 1
    let (yes, L) ← trackAll L.push yesAt yes
    let noAt := yesAt + yes.length + 1
    let (no, L) ← trackAll L.pop.push noAt no
    pure (test ++ [.jump .ifFalse noAt] ++ yes ++ [.jump .always (noAt + no.length)] ++ no, L.pop)
  | declare _ x t e => do
    let ty := (t.map (·.ty)).getD e.ty
    let code ← e.track L start
    let (v, L) := L.declare x ty
    pure (code ++ coercion e.ty ty ++ [v.store], L)
  | assign n x e => do
    let v ← L.seek n.span x
    let code ← e.track L start
    pure (code ++ coercion e.ty v.ty ++ [v.store], L)
  | call _ e => do
    let code ← e.track L start
    pure (code ++ [.pop], L)
  | define _ _ _ => pure ([], L)
  | ret _ none => pure ([.ret], L)
  | ret _ (some e) => do
    let code ← e.track L start
    pure (code ++ coercion e.ty L.result ++ [.retValue], L)
  | invalid _ _ => pure ([], L)

def trackAll (L : Layout) (start : Nat) : List Stmt → Tracked (List Instruction × Layout)
  | [] => pure ([], L)
  | s :: ss => do
    let (code, L) ← s.track L start
    let (more, L) ← trackAll L (start + code.length) ss
    pure (code ++ more, L)

end

mutual

theorem track_erases : (s : Stmt) → ∀ (L : Layout) (start : Nat),
    Erases (s.track L start) (s.lower L start)
  | print _ e, L, start | call _ e, L, start | declare _ _ _ e, L, start
  | ret _ (some e), L, start => .bind (e.track_erases L start) fun _ => .pure _
  | forEach _ _ e body, L, start =>
    .bind (e.track_erases L start) fun _ => .bind (trackAll_erases body _ _) fun _ => .pure _
  | cond _ e yes none, L, start =>
    .bind (e.track_erases L start) fun _ => .bind (trackAll_erases yes _ _) fun _ => .pure _
  | cond _ e yes (some no), L, start =>
    .bind (e.track_erases L start) fun _ => .bind (trackAll_erases yes _ _) fun _ =>
      .bind (trackAll_erases no _ _) fun _ => .pure _
  | assign n x e, L, start =>
    .bind (L.seek_erases n.span x) fun _ => .bind (e.track_erases L start) fun _ => .pure _
  | define _ _ _, _, _ | ret _ none, _, _ | invalid _ _, _, _ => .pure _

theorem trackAll_erases : (ss : List Stmt) → ∀ (L : Layout) (start : Nat),
    Erases (trackAll L start ss) (lowerAll L start ss)
  | [], _, _ => .pure _
  | s :: ss, L, start =>
    .bind (track_erases s L start) fun _ => .bind (trackAll_erases ss _ _) fun _ => .pure _

end

end Stmt

/-! ## Functions and programs -/

namespace Function

def track (functions : Table Signature) (globals : Table Variable) (f : Function) :
    Tracked Method := do
  let (code, L) ← Stmt.trackAll (.function functions globals f.header) 0 f.body
  pure ⟨f.header.symbol, f.header.params.length, L.nextSlot, code ++ [.ret]⟩

def trackAll (functions : Table Signature) (globals : Table Variable) (code : Code) :
    List Function → Tracked Code
  | [] => pure code
  | f :: fs => do
    let m ← f.track functions globals
    trackAll functions globals (code.add m) fs

theorem track_erases (functions : Table Signature) (globals : Table Variable) (f : Function) :
    Erases (f.track functions globals) (f.lower functions globals) :=
  .bind (Stmt.trackAll_erases f.body _ 0) fun _ => .pure _

theorem trackAll_erases (functions : Table Signature) (globals : Table Variable)
    (fs : List Function) : ∀ code, Erases (trackAll functions globals code fs)
      (lowerAll functions globals code fs) := by
  induction fs with
  | nil => exact fun code => .pure code
  | cons f fs ih => exact fun code => .bind (f.track_erases functions globals) fun m => ih _

end Function

namespace Program

def trackMain (p : Program) : Tracked (List Instruction × Layout) :=
  let L := Layout.main p.signatures
  match p.body with
  | .expression e => do
    let code ← e.track L 0
    pure (code ++ boxing e.ty ++ [.print], L)
  | .statements ss => Stmt.trackAll L 0 ss

/-- Lowers a program and writes down what is found. -/
def track (p : Program) : Tracked Code :=
  match p.diagnostics.length with
  | 0 => do
    let (code, L) ← p.trackMain
    let main : Method := ⟨mainName, 0, L.nextSlot, code ++ [.ret]⟩
    Function.trackAll p.signatures (L.scopes.getLast?.getD []) (Code.empty.add main) p.functions
  | count => .of (.error (.invalidProgram count))

theorem trackMain_erases (p : Program) : Erases p.trackMain p.lowerMain := by
  obtain ⟨body, span⟩ := p
  cases body with
  | expression e => exact .bind (e.track_erases _ 0) fun _ => .pure _
  | statements ss => exact Stmt.trackAll_erases ss _ 0

/-- The tracked lowering is the lowering. -/
theorem track_erases (p : Program) : Erases p.track p.lower := by
  unfold track lower
  cases p.diagnostics.length with
  | zero => exact .bind p.trackMain_erases fun _ => Function.trackAll_erases _ _ _ _
  | succ count => exact .of _

end Program

end CatScript
