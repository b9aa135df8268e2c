import CatScript.Proofs.JavaScript.Script
import CatScript.Proofs.Typing.Sited

/-!
# Scopes of a script

JavaScript has one kind of name. A block binds its variables and functions, all of them in the
whole block, also in front of the statement that declares them. A function's scope holds its
parameters too, and a loop's its constant, in whose scope the value that the loop runs over
stands as well. A name means the innermost binding around it. The prelude's functions have names
that no program can spell, so they hide nothing and nothing hides them.

`Script.uses` are the uses of names in a script, each with the scopes around it. Those of the
function that a use stands in are kept apart from those around that function, because checking
looks variables up in the former and in the global scope only.

`Use.Traced` compares what a use means here with the declaration that checking resolved it to.
-/
namespace CatScript

namespace JavaScript

/-- What a name is bound to: a variable, loop variable or parameter, or the function with a
symbol. -/
inductive Binding where
  | declared (d : Declaration)
  | function (symbol : String)
  deriving DecidableEq, Repr

/-- What is done with a name. A call has the symbol of the function that checking found. -/
inductive Access where
  | read
  | write
  | call (symbol : Option String)
  deriving DecidableEq, Repr

/-- A use of a name in the statement at a place. -/
structure Use where
  access : Access
  name : String
  place : Place
  own : List (Table Binding)      -- the scopes of the function around the use, innermost first
  outside : List (Table Binding)  -- the scopes around that function

namespace Use

def scopes (u : Use) : List (Table Binding) := u.own ++ u.outside

/-- What the name means in the script. -/
def binding? (u : Use) : Option Binding := Table.findIn? u.name u.scopes

/-- What checking resolved the name to. -/
def meant? (origin : Place → String → Option Declaration) (u : Use) : Option Binding :=
  match u.access with
  | .read | .write => (origin u.place u.name).map .declared
  | .call symbol => symbol.map .function

end Use

/-- The uses in an expression. -/
def usesIn (here : Place) (own outside : List (Table Binding)) : List Piece → List Use
  | [] => []
  | .text _ :: ps => usesIn here own outside ps
  | .name x :: ps => ⟨.read, x, here, own, outside⟩ :: usesIn here own outside ps
  | .callee f symbol :: ps => ⟨.call symbol, f, here, own, outside⟩ :: usesIn here own outside ps

namespace Script

/-- What a statement binds in its block. -/
def binds (here : Place) : Script → Table Binding
  | bind x _ => [(x, .declared (.variable here x))]
  | function symbol name _ _ => [(name, .function symbol)]
  | _ => []

/-- What the statements of a block bind in it, of which the first has the number `i`. -/
def bindsOfAll (block : Place) (i : Nat) : List Script → Table Binding
  | [] => []
  | s :: ss => s.binds (block ++ [i]) ++ bindsOfAll block (i + 1) ss

/-- The parameters of a function. -/
def parameters (here : Place) (params : List String) : Table Binding :=
  .ofList (params.map fun x => (x, .declared (.parameter here x)))

mutual

/-- The uses in a statement that stands `here`. -/
def uses (here : Place) (own outside : List (Table Binding)) : Script → List Use
  | log e | bind _ e | run e | ret (some e) => usesIn here own outside e
  | assign x e => ⟨.write, x, here, own, outside⟩ :: usesIn here own outside e
  | forOf x e body =>
    let constant := [(x, .declared (.loop here x))]
    usesIn here (constant :: own) outside e ++
      usesOfAll (here ++ [0]) 0 ((bindsOfAll (here ++ [0]) 0 body ++ constant) :: own) outside body
  | branch e yes none =>
    usesIn here own outside e ++
      usesOfAll (here ++ [0]) 0 (bindsOfAll (here ++ [0]) 0 yes :: own) outside yes
  | branch e yes (some no) =>
    usesIn here own outside e ++
      usesOfAll (here ++ [0]) 0 (bindsOfAll (here ++ [0]) 0 yes :: own) outside yes ++
      usesOfAll (here ++ [1]) 0 (bindsOfAll (here ++ [1]) 0 no :: own) outside no
  | function _ _ params body =>
    usesOfAll (here ++ [0]) 0 [bindsOfAll (here ++ [0]) 0 body ++ parameters here params]
      (own ++ outside) body
  | ret none | nothing => []

def usesOfAll (block : Place) (i : Nat) (own outside : List (Table Binding)) :
    List Script → List Use
  | [] => []
  | s :: ss => s.uses (block ++ [i]) own outside ++ usesOfAll block (i + 1) own outside ss

end

/-- A return without a value at the end of a block binds and uses nothing. -/
theorem bindsOfAll_closing (block : Place) (i : Nat) (ss : List Script) (body : List Stmt) :
    bindsOfAll block i (ss ++ Stmt.closing body) = bindsOfAll block i ss := by
  induction ss generalizing i with
  | nil =>
    unfold Stmt.closing
    split <;> rfl
  | cons s ss ih => simp only [List.cons_append, bindsOfAll, ih]

theorem usesOfAll_closing (block : Place) (i : Nat) (own outside : List (Table Binding))
    (ss : List Script) (body : List Stmt) :
    usesOfAll block i own outside (ss ++ Stmt.closing body) =
      usesOfAll block i own outside ss := by
  induction ss generalizing i with
  | nil =>
    unfold Stmt.closing
    split <;> simp [usesOfAll, uses]
  | cons s ss ih => simp only [List.cons_append, usesOfAll, ih]

end Script

end JavaScript

open JavaScript

/-- The uses of names in a program's script. -/
def Program.uses (p : Program) : List Use :=
  Script.usesOfAll [] 0 [Script.bindsOfAll [] 0 p.script] [] p.script

/-! ## Uses that mean what they did -/

/-- The second place is that of a statement at or behind the first, in a block around it. -/
def Reached (here place : Place) : Prop :=
  ∃ block i j rest, here = block ++ i :: rest ∧ place = block ++ [j] ∧ i ≤ j

theorem Reached.append {here place : Place} (h : Reached here place) (path : Place) :
    Reached (here ++ path) place := by
  obtain ⟨block, i, j, rest, rfl, rfl, hle⟩ := h
  exact ⟨block, i, j, rest ++ path, by simp, rfl, hle⟩

namespace JavaScript

namespace Use

/-- What takes the name of a use away from the declaration that checking resolved it to. -/
inductive Diverted (u : Use) : Binding → Prop where
  /-- A variable of the same function that is declared too late for the use. -/
  | late {place : Place} (hu : u.access = .read ∨ u.access = .write)
      (hown : Table.findIn? u.name u.own = some (.declared (.variable place u.name)))
      (hlate : Reached u.place place) : Diverted u (.declared (.variable place u.name))
  /-- The constant of the loop that runs over the value with the use. -/
  | header (hu : u.access = .read) : Diverted u (.declared (.loop u.place u.name))
  /-- Something outside of the function that the use stands in, which there hides a global. -/
  | captured {b : Binding} (hu : u.access = .read ∨ u.access = .write)
      (hown : Table.findIn? u.name u.own = none)
      (hout : Table.findIn? u.name u.outside = some b) : Diverted u b
  /-- A variable that has the name of a function that is called. -/
  | shadowed {symbol : Option String} {d : Declaration} (hu : u.access = .call symbol) :
      Diverted u (.declared d)

/-- Checking resolved the use to something that is bound around it in the script. The use means
that unless a scope further in binds its name, and there it is diverted. -/
def Traced (origin : Place → String → Option Declaration) (u : Use) : Prop :=
  ∃ b inner table outer, u.meant? origin = some b ∧ u.scopes = inner ++ table :: outer ∧
    table.find? u.name = some b ∧
    (u.binding? = some b ↔ Table.findIn? u.name inner = none) ∧
    ∀ b', Table.findIn? u.name inner = some b' → u.Diverted b'

end Use

end JavaScript

/-! ## Depths -/

/-- How long the places of the statements are in whose scope the declaration is. -/
def Declaration.depth : Declaration → Nat
  | .variable place _ => place.length
  | .loop place _ | .parameter place _ => place.length + 2

namespace JavaScript

/-- Each scope has the declarations of its own depth. -/
def Layered : List (Table Binding) → Prop
  | [] => True
  | table :: tables =>
    (∀ x d, table.find? x = some (.declared d) → d.depth = 2 * tables.length + 1) ∧ Layered tables

namespace Layered

theorem of_append {inner outer : List (Table Binding)} (h : Layered (inner ++ outer)) :
    Layered outer := by
  induction inner with
  | nil => exact h
  | cons table inner ih => exact ih h.2

theorem depth_lt {inner outer : List (Table Binding)} (h : Layered (inner ++ outer))
    {x : String} {d : Declaration} (hf : Table.findIn? x inner = some (.declared d)) :
    2 * outer.length < d.depth := by
  induction inner with
  | nil => cases hf
  | cons table inner ih =>
    obtain ⟨htable, hinner⟩ : _ ∧ Layered (inner ++ outer) := h
    cases ht : table.find? x with
    | none =>
      rw [Table.findIn?_cons, ht, Option.none_or] at hf
      exact ih hinner hf
    | some b =>
      rw [Table.findIn?_cons, ht, Option.some_or, Option.some.injEq] at hf
      subst hf
      have hd : d.depth = 2 * (inner ++ outer).length + 1 := htable x d ht
      rw [List.length_append] at hd
      omega

/-- A declaration is found exactly if no scope further in binds its name. -/
theorem findIn?_iff {inner outer : List (Table Binding)} {table : Table Binding}
    (h : Layered (inner ++ table :: outer)) {x : String} {d : Declaration}
    (ht : table.find? x = some (.declared d)) :
    Table.findIn? x (inner ++ table :: outer) = some (.declared d) ↔
      Table.findIn? x inner = none := by
  rw [Table.findIn?_append, Table.findIn?_cons, ht, Option.some_or]
  cases hi : Table.findIn? x inner with
  | none => simp
  | some b =>
    simp only [Option.some_or, Option.some.injEq, reduceCtorEq, iff_false]
    rintro rfl
    have hlt := h.depth_lt hi
    have heq := h.of_append.1 x d ht
    rw [List.length_cons] at hlt
    omega

end Layered

end JavaScript

end CatScript
