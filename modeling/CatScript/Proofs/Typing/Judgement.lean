import CatScript.Code.Lower
import CatScript.Proofs.Typing.Probe

/-!
# Typed programs

What it means for a checked tree to be well typed, said without the checker's contexts. A
place in the program sees a list of scopes: those of its function from the inside out, then
the globals. Inside a function the globals are those of the whole program; in the main program
they are the ones declared so far.

The judgement is over the types that checking has written into the tree. It takes the relation
between a declared type and the type of what is stored there as a parameter: `Ty.accepts` for
all programs without diagnostics, `Ty.Widens` for those in which `object` flows into nothing
narrower.
-/
namespace CatScript

/-- Whether every value of the first type is a value of the second. -/
inductive Ty.Widens : Ty → Ty → Prop where
  | object (t : Ty) : Widens t .object
  | refl (t : Ty) : Widens t t
  | list {s t : Ty} : Widens s t → Widens (.list s) (.list t)

theorem Ty.widens_iff_eq {s t : Ty} (ho : t ≠ .object) (hl : ∀ u, t ≠ .list u) :
    s.Widens t ↔ s = t := by
  constructor
  · intro h
    cases h with
    | object => exact absurd rfl ho
    | refl => rfl
    | list => exact absurd rfl (hl _)
  · rintro rfl
    exact .refl s

instance Ty.decidableWidens : (s t : Ty) → Decidable (s.Widens t)
  | s, .object => isTrue (.object s)
  | .list s, .list t =>
    match decidableWidens s t with
    | isTrue h => isTrue (.list h)
    | isFalse h => isFalse fun hw => by
      cases hw with
      | refl => exact h (.refl s)
      | list hw => exact h hw
  | _, .int | _, .bool | _, .string | _, .void =>
    decidable_of_iff' _ (widens_iff_eq nofun nofun)
  | .int, .list t | .bool, .list t | .string, .list t | .object, .list t | .void, .list t =>
    isFalse nofun

namespace Typing

/-- The variables in sight, innermost scope first and the global one last. -/
abbrev Scopes := List (Table Ty)

/-- Binds a variable in the innermost scope. -/
def Scopes.bind (name : String) (ty : Ty) : Scopes → Scopes
  | [] => []
  | scope :: scopes => scope.insert name ty :: scopes

/-- What a judgement refers to beyond the scopes of its place. -/
structure Rules where
  functions : Table Signature
  globals : Table Ty
  fits : Ty → Ty → Prop         -- whether the second type may be stored under the first

/-- The type of a declared variable: the written one, else that of its value. -/
def declaredTy (declared : Option TypeName) (value : Expr) : Ty :=
  (declared.map (·.ty)).getD value.ty

end Typing

open Typing

/-- The type of an operation on operands of the given types. -/
def BinaryOp.result? (op : BinaryOp) (l r : Ty) : Option Ty :=
  match op with
  | add =>
    if l = .string ∨ r = .string then some .string
    else if l = .int ∧ r = .int then some .int
    else none
  | sub | mul | div => if l = .int ∧ r = .int then some .int else none
  | gt | ge | lt | le => if l = .int ∧ r = .int then some .bool else none
  | eq | ne => some .bool

namespace Expr

theorem ty_of_note {e : Expr} {t : Ty} (h : e.note.ty = some t) : e.ty = t := by
  simp [ty, h]

mutual

def Typed (R : Rules) (S : Scopes) : Expr → Prop
  | int n _ => n.ty = some .int
  | str n _ => n.ty = some .string
  | bool n _ => n.ty = some .bool
  | null n => n.ty = some .object
  | var n x => ∃ t, n.ty = some t ∧ Table.findIn? x S = some t
  | unary n op e => n.ty = some op.ty ∧ e.ty = op.ty ∧ e.Typed R S
  | binary n op l r => (∃ t, n.ty = some t ∧ op.result? l.ty r.ty = some t) ∧ l.Typed R S ∧ r.Typed R S
  | paren n e => n.ty = some e.ty ∧ e.Typed R S
  | list n es => n.ty = some (.list (.join (es.map ty))) ∧ TypedAll R S es
  | call n _ es symbol =>
    ∃ s, symbol = some s.symbol ∧ R.functions.find? s.symbol = some s ∧ n.ty = some s.result ∧
      TypedArgs R S s.params es

def TypedAll (R : Rules) (S : Scopes) : List Expr → Prop
  | [] => True
  | e :: es => e.Typed R S ∧ TypedAll R S es

/-- Arguments that fit the parameters one by one. -/
def TypedArgs (R : Rules) (S : Scopes) : List (String × Ty) → List Expr → Prop
  | [], [] => True
  | p :: ps, e :: es => e.Typed R S ∧ R.fits p.2 e.ty ∧ TypedArgs R S ps es
  | _, _ => False

end

end Expr

namespace Stmt

/-- The scopes behind a statement. -/
def extend (S : Scopes) : Stmt → Scopes
  | declare _ x t e => S.bind x (declaredTy t e)
  | _ => S

def extendAll (S : Scopes) (ss : List Stmt) : Scopes := ss.foldl extend S

mutual

/-- A well-typed statement of a function with the given result type. -/
def Typed (R : Rules) (result : Ty) (S : Scopes) : Stmt → Prop
  | print _ e | call _ e => e.Typed R S
  | forEach _ x e body =>
    e.Typed R S ∧ ∃ t, e.ty.element? = some t ∧ TypedAll R result ([(x, t)] :: S) body
  | cond _ e yes none => e.Typed R S ∧ e.ty = .bool ∧ TypedAll R result ([] :: S) yes
  | cond _ e yes (some no) =>
    e.Typed R S ∧ e.ty = .bool ∧ TypedAll R result ([] :: S) yes ∧ TypedAll R result ([] :: S) no
  | declare _ x t e =>
    e.Typed R S ∧ (∀ written, t = some written → R.fits written.ty e.ty) ∧
      (∀ scope ∈ S.head?, scope.find? x = none) ∧
      (S.length = 1 → R.globals.find? x = some (declaredTy t e))
  | assign _ x e => e.Typed R S ∧ ∃ t, Table.findIn? x S = some t ∧ R.fits t e.ty
  | define _ _ _ => True
  | ret _ none => result = .void
  | ret _ (some e) => result ≠ .void ∧ e.Typed R S ∧ R.fits result e.ty
  | invalid _ _ => True

def TypedAll (R : Rules) (result : Ty) (S : Scopes) : List Stmt → Prop
  | [] => True
  | s :: ss => s.Typed R result S ∧ TypedAll R result (s.extend S) ss

end

end Stmt

/-- The parameters of a function with their types. -/
def Header.scope (h : Header) : Table Ty := .ofList (h.params.map fun p => (p.name, p.ty))

/-- A function whose body is well typed and does not end without the value it promises. -/
structure Function.Typed (R : Rules) (f : Function) : Prop where
  params : (f.header.params.map (·.name)).Nodup
  body : Stmt.TypedAll R f.header.resultTy [f.header.scope, R.globals] f.body
  returns : f.header.resultTy ≠ .void → Stmt.lastReturns f.body = true

namespace Program

/-- The variables of the outermost scope with their types. -/
def globals (p : Program) : Table Ty := ((Stmt.extendAll [[]] p.statements).getLast?).getD []

/-- A well-typed program, whose functions can be told apart by their symbols. -/
structure Typed (fits : Ty → Ty → Prop) (p : Program) : Prop where
  body :
    match p.body with
    | .expression e => e.Typed ⟨p.signatures, p.globals, fits⟩ [[]]
    | .statements ss => Stmt.TypedAll ⟨p.signatures, p.globals, fits⟩ .void [[]] ss
  functions : ∀ f ∈ p.functions, f.Typed ⟨p.signatures, p.globals, fits⟩
  symbols : (Code.mainName :: p.functions.map (·.header.symbol)).Nodup

end Program

/-! ## Variables in sight

The occurrences in a checked tree with the types of the variables in sight there, in the order in
which checking looks them up. A function's body stands where the function is defined.
-/

namespace Expr

mutual

def sights (S : Scopes) : Expr → List (Occurrence × Option Ty)
  | var n x => [(⟨n.span, x⟩, Table.findIn? x S)]
  | int _ _ | str _ _ | bool _ _ | null _ => []
  | unary _ _ e | paren _ e => e.sights S
  | binary _ _ l r => l.sights S ++ r.sights S
  | list _ es | call _ _ es _ => sightsOfAll S es

def sightsOfAll (S : Scopes) : List Expr → List (Occurrence × Option Ty)
  | [] => []
  | e :: es => e.sights S ++ sightsOfAll S es

end

end Expr

namespace Stmt

mutual

def sights (R : Rules) (S : Scopes) : Stmt → List (Occurrence × Option Ty)
  | print _ e | call _ e | declare _ _ _ e => e.sights S
  | forEach _ x e body => e.sights S ++ sightsOfAll R ([(x, e.ty.element?.getD .object)] :: S) body
  | cond _ e yes none => e.sights S ++ sightsOfAll R ([] :: S) yes
  | cond _ e yes (some no) =>
    e.sights S ++ (sightsOfAll R ([] :: S) yes ++ sightsOfAll R ([] :: S) no)
  | assign n x e => e.sights S ++ [(⟨n.span, x⟩, Table.findIn? x S)]
  | define _ h body => sightsOfAll R [h.scope, R.globals] body
  | ret _ none => []
  | ret _ (some e) => e.sights S
  | invalid _ _ => []

def sightsOfAll (R : Rules) (S : Scopes) : List Stmt → List (Occurrence × Option Ty)
  | [] => []
  | s :: ss => s.sights R S ++ sightsOfAll R (s.extend S) ss

end

end Stmt

/-! ## Stores that checking looks at

Each place where checking asks whether a type may be stored under a declared one: arguments,
declarations with a written type, assignments and returned values. A place is given by the
declared type and the type of the value.
-/

namespace Expr

mutual

def stores (Γ : Context) : Expr → List (Ty × Ty)
  | int _ _ | str _ _ | bool _ _ | null _ | var _ _ => []
  | unary _ _ e | paren _ e => e.stores Γ
  | binary _ _ l r => l.stores Γ ++ r.stores Γ
  | list _ es => storesOfAll Γ es
  | call _ f es _ =>
    storesOfAll Γ es ++
      match Γ.signatureOf? f with
      | none => []
      | some s =>
        if s.params.length = es.length then List.zip (s.params.map (·.2)) ((checkAll Γ es).map ty)
        else []

def storesOfAll (Γ : Context) : List Expr → List (Ty × Ty)
  | [] => []
  | e :: es => e.stores Γ ++ storesOfAll Γ es

end

end Expr

namespace Stmt

mutual

def stores (Γ : Context) : Stmt → List (Ty × Ty)
  | print _ e | call _ e => e.stores Γ
  | forEach n x e body =>
    let bound := Typing.bind Γ.push x (loopTyping (e.check Γ)).1 n.span
    let hoisted := hoist bound.2 body
    e.stores Γ ++ storesOfAll hoisted.2 hoisted.1 body
  | cond _ e yes none =>
    let hoisted := hoist Γ.push yes
    e.stores Γ ++ storesOfAll hoisted.2 hoisted.1 yes
  | cond _ e yes (some no) =>
    let hoistedYes := hoist Γ.push yes
    let hoistedNo := hoist (checkAll hoistedYes.2 hoistedYes.1 yes).2.pop.push no
    e.stores Γ ++ storesOfAll hoistedYes.2 hoistedYes.1 yes ++
      storesOfAll hoistedNo.2 hoistedNo.1 no
  | declare _ _ t e => e.stores Γ ++ (t.map fun t => (t.ty, (e.check Γ).ty)).toList
  | assign _ x e => e.stores Γ ++ ((Γ.typeOf? x).map fun t => (t, (e.check Γ).ty)).toList
  | define n h body =>
    let bound := bindAll (Γ.enter h.resultTy) n.span h.params
    let hoisted := hoist bound.2 body
    storesOfAll hoisted.2 hoisted.1 body
  | ret _ none => []
  | ret _ (some e) =>
    e.stores Γ ++ if Γ.result = .void then [] else [(Γ.result, (e.check Γ).ty)]
  | invalid _ _ => []

def storesOfAll (Γ : Context) : List Hoisted → List Stmt → List (Ty × Ty)
  | _, [] => []
  | slots, s :: ss =>
    s.stores Γ ++ storesOfAll (s.check Γ (slots.head?.getD .nothing)).2 slots.tail ss

end

end Stmt

namespace Program

def stores (p : Program) : List (Ty × Ty) :=
  match p.body with
  | .expression e => e.stores .empty
  | .statements ss =>
    let hoisted := hoist .empty ss
    Stmt.storesOfAll hoisted.2 hoisted.1 ss

/-- No value is stored under a type that is narrower than its own. -/
def Widening (p : Program) : Prop := ∀ store ∈ p.stores, store.2.Widens store.1

instance (p : Program) : Decidable p.Widening :=
  inferInstanceAs (Decidable (∀ store ∈ p.stores, store.2.Widens store.1))

end Program

end CatScript
