import CatScript.Proofs.StackMachine.Points
import CatScript.Proofs.Typing.Judgement

/-!
# The intended stack

How lowering means the stack to look before each instruction, read off the typed tree: the
kinds of the values on it, topmost first. A part of an expression works above what its
surroundings have left on the stack (`below`), and its value comes on top. A statement starts
with an empty stack.

`Program.plan` gives, for each method, one mark for each instruction. A mark says what is meant
to lie on the stack, and whether the instruction stands at the boundary of a statement: at the
start of one, or behind the last one of a block.
-/
namespace CatScript

open Typing Code StackMachine

namespace Code

def boxingShapes (t : Ty) (below : List Kind) : List (List Kind) :=
  if t.isNative then [.native :: below] else []

def coercionShapes (source target : Ty) (below : List Kind) : List (List Kind) :=
  if source.kind = target.kind then [] else [source.kind :: below]

/-- A jump on the operands, then 0 or 1. -/
def truthShapes (operands below : List Kind) : List (List Kind) :=
  [operands ++ below, below, .native :: below, below]

namespace Scheme

/-- How a scheme wants its operands. -/
def kind : Scheme → Kind
  | numbers _ | comparison _ => .native
  | equality _ | joining => .reference

def boxingShapes (s : Scheme) (t : Ty) (below : List Kind) : List (List Kind) :=
  match s with
  | numbers _ | comparison _ => []
  | equality _ | joining => Code.boxingShapes t below

def finishShapes (s : Scheme) (below : List Kind) : List (List Kind) :=
  match s with
  | numbers _ => [.native :: .native :: below]
  | comparison _ => truthShapes [.native, .native] below
  | equality _ => (.reference :: .reference :: below) :: truthShapes [.native] below
  | joining => [.reference :: .reference :: below]

end Scheme

end Code

namespace Expr

mutual

/-- The stack before each instruction of an expression. -/
def shapes (functions : Table Signature) (below : List Kind) : Expr → List (List Kind)
  | int _ _ | str _ _ | bool _ _ | null _ | var _ _ => [below]
  | unary _ .negate e => e.shapes functions below ++ [.native :: below]
  | unary _ .not e => e.shapes functions below ++ truthShapes [.native] below
  | binary n op l r =>
    let s := scheme op (n.ty.getD .object) l.ty r.ty
    l.shapes functions below ++ s.boxingShapes l.ty below ++
      r.shapes functions (s.kind :: below) ++ s.boxingShapes r.ty (s.kind :: below) ++
      s.finishShapes below
  | paren _ e => e.shapes functions below
  | list _ es => itemShapes functions below es ++ [List.replicate es.length .reference ++ below]
  | call _ f es symbol =>
    match functions.find? (symbol.getD f) with
    | none => []
    | some s =>
      argumentShapes functions below s.params es ++
        (argumentKinds s ++ below) :: if s.result = .void then [below] else []

/-- The items of a list come to lie on each other as references. -/
def itemShapes (functions : Table Signature) (below : List Kind) : List Expr → List (List Kind)
  | [] => []
  | e :: es =>
    e.shapes functions below ++ boxingShapes e.ty below ++
      itemShapes functions (.reference :: below) es

/-- The arguments of a call come to lie on each other as the parameters want them. -/
def argumentShapes (functions : Table Signature) (below : List Kind) :
    List (String × Ty) → List Expr → List (List Kind)
  | p :: ps, e :: es =>
    e.shapes functions below ++ coercionShapes e.ty p.2 below ++
      argumentShapes functions (p.2.kind :: below) ps es
  | _, _ => []

end

end Expr

/-! ## Statements -/

structure Mark where
  boundary : Bool
  stack : List Kind
  deriving DecidableEq, Repr

namespace Mark

/-- The boundary of a statement, where nothing lies on the stack. -/
def edge : Mark := ⟨true, []⟩

/-- Instructions inside a statement. -/
def within (shapes : List (List Kind)) : List Mark := shapes.map (⟨false, ·⟩)

/-- The instructions of a statement, from its first one on. -/
def opening : List (List Kind) → List Mark
  | [] => []
  | st :: shapes => ⟨true, st⟩ :: within shapes

end Mark

namespace Stmt

open Mark

mutual

/-- The marks of a statement, in a function with the given result and with `S` in sight. -/
def plan (functions : Table Signature) (result : Ty) (S : Scopes) : Stmt → List Mark
  | print _ e => opening (e.shapes functions [] ++ boxingShapes e.ty [] ++ [[.reference]])
  | forEach _ x e body =>
    let element := e.ty.element?.getD .object
    opening (e.shapes functions [] ++ [[.reference]]) ++ within [[.reference]] ++
      (within [[], [.reference], [.native], [], [.reference]] ++
        within (coercionShapes .object element []) ++ within [[element.kind]] ++
        planAll functions result ([(x, element)] :: S) body ++ [edge])
  | cond _ e yes none =>
    opening (e.shapes functions [] ++ [[.native]]) ++ planAll functions result ([] :: S) yes ++ [edge]
  | cond _ e yes (some no) =>
    opening (e.shapes functions [] ++ [[.native]]) ++ planAll functions result ([] :: S) yes ++
      [edge] ++ planAll functions result ([] :: S) no
  | declare _ _ t e =>
    let ty := declaredTy t e
    opening (e.shapes functions [] ++ coercionShapes e.ty ty [] ++ [[ty.kind]])
  | assign _ x e =>
    let ty := (Table.findIn? x S).getD .object
    opening (e.shapes functions [] ++ coercionShapes e.ty ty [] ++ [[ty.kind]])
  | call _ e => opening (e.shapes functions [] ++ [[e.ty.kind]])
  | define _ _ _ => []
  | ret _ none => opening [[]]
  | ret _ (some e) =>
    opening (e.shapes functions [] ++ coercionShapes e.ty result [] ++ [[result.kind]])
  | invalid _ _ => []

def planAll (functions : Table Signature) (result : Ty) (S : Scopes) : List Stmt → List Mark
  | [] => []
  | s :: ss => s.plan functions result S ++ planAll functions result (s.extend S) ss

end

end Stmt

/-! ## Methods -/

namespace Program

/-- The marks of the main method, of which the last instruction returns. -/
def mainPlan (p : Program) : List Mark :=
  match p.body with
  | .expression e =>
    Mark.opening (e.shapes p.signatures [] ++ boxingShapes e.ty [] ++ [[.reference]]) ++ [.edge]
  | .statements ss => Stmt.planAll p.signatures .void [[]] ss ++ [.edge]

def functionPlan (p : Program) (f : Function) : List Mark :=
  Stmt.planAll p.signatures f.header.resultTy [f.header.scope, p.globals] f.body ++ [.edge]

/-- The marks of the method of the given name. -/
def plan (p : Program) (name : String) : List Mark :=
  if name = mainName then p.mainPlan
  else ((p.functions.find? fun f => f.header.symbol = name).map p.functionPlan).getD []

/-- The type of what a method returns. -/
def resultOf (p : Program) (name : String) : Ty :=
  ((p.signatures.find? name).map (·.result)).getD .void

end Program

/-! ## Boundaries -/

namespace Expr

mutual

/-- The code of an expression begins with the stack that its surroundings left. -/
theorem head_shapes {R : Rules} {S : Scopes} : (e : Expr) → e.Typed R S → ∀ st : List Kind,
    (e.shapes R.functions st).head? = some st
  | int _ _, _, _ | str _ _, _, _ | bool _ _, _, _ | null _, _, _ | var _ _, _, _ => rfl
  | unary _ op e, ht, st => by
    have ih := head_shapes e ht.2.2 st
    cases op <;> simp only [shapes, List.head?_append, ih, Option.some_or]
  | binary _ _ l r, ht, st => by
    simp only [shapes, List.head?_append, head_shapes l ht.2.1 st, Option.some_or]
  | paren _ e, ht, st => head_shapes e ht.2 st
  | list _ es, ht, st => by
    rcases head_itemShapes es ht.2 st with rfl | ih
    · rfl
    · simp only [shapes, List.head?_append, ih, Option.some_or]
  | call _ f es symbol, ht, st => by
    obtain ⟨s, rfl, hs, -, ha⟩ := ht
    simp only [shapes, Option.getD_some, hs, List.head?_append]
    rcases head_argumentShapes s.params es ha st with ⟨hp, rfl⟩ | ih
    · simp only [hp, argumentShapes, argumentKinds, List.map_nil, List.reverse_nil,
        List.nil_append, List.head?_nil, List.head?_cons, Option.none_or]
    · rw [ih, Option.some_or]

theorem head_itemShapes {R : Rules} {S : Scopes} : (es : List Expr) → TypedAll R S es →
    ∀ st : List Kind, es = [] ∨ (itemShapes R.functions st es).head? = some st
  | [], _, _ => .inl rfl
  | e :: es, ht, st => by
    simp only [itemShapes, List.head?_append, head_shapes e ht.1 st, Option.some_or, or_true]

theorem head_argumentShapes {R : Rules} {S : Scopes} : (ps : List (String × Ty)) →
    (es : List Expr) → TypedArgs R S ps es → ∀ st : List Kind,
    ps = [] ∧ es = [] ∨ (argumentShapes R.functions st ps es).head? = some st
  | [], [], _, _ => .inl ⟨rfl, rfl⟩
  | p :: ps, e :: es, ht, st => by
    simp only [argumentShapes, List.head?_append, head_shapes e ht.1 st, Option.some_or, or_true]
  | [], _ :: _, ht, _ | _ :: _, [], ht, _ => ht.elim

end

end Expr

/-- Nothing lies on the stack at the boundaries of statements. -/
def Mark.Edges (marks : List Mark) : Prop := ∀ m ∈ marks, m.boundary = true → m.stack = []

namespace Mark.Edges

variable {marks marks' : List Mark}

theorem nil : Edges [] := nofun

theorem append (h : Edges marks) (h' : Edges marks') : Edges (marks ++ marks') := by
  intro m hm
  rcases List.mem_append.1 hm with hm | hm
  · exact h m hm
  · exact h' m hm

theorem edge : Edges [.edge] := by
  intro m hm _
  rw [List.mem_singleton.1 hm]
  rfl

theorem within (shapes : List (List Kind)) : Edges (within shapes) := by
  intro m hm hb
  obtain ⟨st, -, rfl⟩ := List.mem_map.1 hm
  cases hb

theorem opening {shapes : List (List Kind)} (h : shapes.head? = some []) : Edges (opening shapes) := by
  cases shapes with
  | nil => exact nil
  | cons st shapes =>
    cases h
    intro m hm
    rcases List.mem_cons.1 hm with rfl | hm
    · exact fun _ => rfl
    · exact within shapes m hm

/-- A statement that begins with the code of an expression. -/
theorem value {R : Rules} {S : Scopes} {e : Expr} (ht : e.Typed R S) (more : List (List Kind)) :
    Edges (Mark.opening (e.shapes R.functions [] ++ more)) := by
  refine opening ?_
  rw [List.head?_append, e.head_shapes ht, Option.some_or]

end Mark.Edges

namespace Stmt

open Mark.Edges

mutual

theorem plan_edges {R : Rules} {result : Ty} : (s : Stmt) → ∀ {S : Scopes}, s.Typed R result S →
    Mark.Edges (s.plan R.functions result S)
  | print _ e, S, ht => by
    rw [plan, List.append_assoc]
    exact value ht _
  | forEach _ x e body, S, ht => by
    obtain ⟨he, t, htt, hbody⟩ := ht
    simp only [plan, htt, Option.getD_some]
    refine ((value he _).append (within _)).append (((((within _).append (within _)).append
      (within _)).append ?_).append edge)
    exact planAll_edges body hbody
  | cond _ e yes none, S, ht => ((value ht.1 _).append (planAll_edges yes ht.2.2)).append edge
  | cond _ e yes (some no), S, ht =>
    (((value ht.1 _).append (planAll_edges yes ht.2.2.1)).append edge).append
      (planAll_edges no ht.2.2.2)
  | declare _ _ t e, S, ht => by
    simp only [plan, List.append_assoc]
    exact value ht.1 _
  | assign _ x e, S, ht => by
    simp only [plan, List.append_assoc]
    exact value ht.1 _
  | call _ e, S, ht => value ht _
  | define _ _ _, _, _ | invalid _ _, _, _ => nil
  | ret _ none, S, ht => by
    rw [plan]
    exact opening rfl
  | ret _ (some e), S, ht => by
    simp only [plan, List.append_assoc]
    exact value ht.2.1 _

theorem planAll_edges {R : Rules} {result : Ty} : (ss : List Stmt) → ∀ {S : Scopes},
    TypedAll R result S ss → Mark.Edges (planAll R.functions result S ss)
  | [], _, _ => nil
  | s :: ss, _, ht => (plan_edges s ht.1).append (planAll_edges ss ht.2)

end

end Stmt

/-- The plan of every method has empty stacks at the boundaries of its statements. -/
theorem Program.plan_edges {p : Program} {fits : Ty → Ty → Prop} (ht : p.Typed fits)
    (name : String) : Mark.Edges (p.plan name) := by
  unfold plan
  split
  · have hb := ht.body
    obtain ⟨body, span⟩ := p
    cases body with
    | expression e =>
      simp only [mainPlan, List.append_assoc]
      exact (Mark.Edges.value hb _).append .edge
    | statements ss => exact (Stmt.planAll_edges ss hb).append .edge
  · cases hf : p.functions.find? fun f => f.header.symbol = name with
    | none => exact .nil
    | some f =>
      have hf := ht.functions f (List.mem_of_find?_eq_some hf)
      exact (Stmt.planAll_edges f.body hf.body).append .edge

end CatScript
