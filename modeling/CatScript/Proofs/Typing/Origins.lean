import CatScript.Proofs.Typing.Calls

/-!
# Where names are declared

A place is the way to a statement from the whole program. A variable is declared by a `var`
statement, by a loop or by the parameters of a function, and a `Declaration` says which of them
and where it stands.

Checking looks a name up in the scopes of its context. `Stmt.surveyAt?` goes to a place the way
checking goes there and finds the context in front of the statement at the place, with the
declarations of the variables in it, so `Program.origin?` is the declaration that checking
resolves a name to.

`Context.Aligned` says that the declarations are those of the variables in sight, and is kept by
everything that checking does to a context. In an aligned context a name that has a type has a
declaration (`declarationIn?_of_typeIn?`), and that is the innermost one.
-/
namespace CatScript

/-- Numbers of statements and of blocks in turn, outermost first: which statement of the main
block, which block of that statement, which statement of that block and so on. -/
abbrev Place := List Nat

/-- What has bound a variable, with the place of the statement. -/
inductive Declaration where
  | variable (place : Place) (name : String)
  | loop (place : Place) (name : String)
  | parameter (place : Place) (name : String)
  deriving DecidableEq, Repr

/-- Binds a name in the innermost of the scopes. -/
def Table.insertIn {α : Type} (name : String) (a : α) : List (Table α) → List (Table α)
  | [] => []
  | scope :: scopes => scope.insert name a :: scopes

open Typing Context

namespace Typing

/-- The declaration of the variable that checking finds for a name, given the declarations of
the scopes in which it looks. -/
def declarationIn? (x : String) :
    List (Table Entity) → List (Table Declaration) → Option Declaration
  | scope :: scopes, declarations :: outer =>
    match scope.find? x with
    | some (.variable _) => declarations.find? x
    | some (.function _) => none
    | none => declarationIn? x scopes outer
  | _, _ => none

/-- A context of checking with the declarations of the variables in sight, innermost scope
first. -/
structure Survey where
  context : Context
  declarations : List (Table Declaration)

/-- The declaration that checking resolves a name to. -/
def Survey.resolve? (v : Survey) (x : String) : Option Declaration :=
  declarationIn? x v.context.visible v.declarations

end Typing

/-- The parameters of a function that is defined at the place. -/
def Header.declarations (h : Header) (place : Place) : Table Declaration :=
  .ofList (h.params.map fun p => (p.name, .parameter place p.name))

namespace Stmt

/-- The declarations behind a statement. -/
def declared (here : Place) (D : List (Table Declaration)) : Stmt → List (Table Declaration)
  | declare _ x _ _ => Table.insertIn x (.variable here x) D
  | _ => D

mutual

/-- What checking the statement, which stands `here`, has in sight at the end of a path into
it. -/
def surveyAt? (Γ : Context) (D : List (Table Declaration)) (here : Place) :
    Stmt → Place → Option Survey
  | _, [] => some ⟨Γ, D⟩
  | forEach n x e body, 0 :: path =>
    let bound := Typing.bind Γ.push x (loopTyping (e.check Γ)).1 n.span
    let hoisted := hoist bound.2 body
    surveyAtAll? hoisted.2 hoisted.1 ([(x, .loop here x)] :: D) (here ++ [0]) 0 body path
  | cond _ _ yes none, 0 :: path =>
    let hoisted := hoist Γ.push yes
    surveyAtAll? hoisted.2 hoisted.1 ([] :: D) (here ++ [0]) 0 yes path
  | cond _ _ yes (some _), 0 :: path =>
    let hoisted := hoist Γ.push yes
    surveyAtAll? hoisted.2 hoisted.1 ([] :: D) (here ++ [0]) 0 yes path
  | cond _ _ yes (some no), 1 :: path =>
    let hoistedYes := hoist Γ.push yes
    let hoistedNo := hoist (checkAll hoistedYes.2 hoistedYes.1 yes).2.pop.push no
    surveyAtAll? hoistedNo.2 hoistedNo.1 ([] :: D) (here ++ [1]) 0 no path
  | define n h body, 0 :: path =>
    let bound := bindAll (Γ.enter h.resultTy) n.span h.params
    let hoisted := hoist bound.2 body
    surveyAtAll? hoisted.2 hoisted.1 (h.declarations here :: D.getLast?.toList) (here ++ [0]) 0
      body path
  | _, _ :: _ => none

/-- The same for statements of a block, of which the first has the number `i`. -/
def surveyAtAll? (Γ : Context) (slots : List Hoisted) (D : List (Table Declaration))
    (block : Place) (i : Nat) : List Stmt → Place → Option Survey
  | s :: _, 0 :: path => s.surveyAt? Γ D (block ++ [i]) path
  | s :: ss, (k + 1) :: path =>
    surveyAtAll? (s.check Γ (slots.head?.getD .nothing)).2 slots.tail
      (s.declared (block ++ [i]) D) block (i + 1) ss (k :: path)
  | _, _ => none

end

end Stmt

namespace Program

/-- What checking a program has in sight in front of the statement at a place. -/
def surveyAt? (p : Program) (place : Place) : Option Survey :=
  match p.body with
  | .expression _ => some ⟨.empty, [[]]⟩
  | .statements ss =>
    let hoisted := hoist .empty ss
    Stmt.surveyAtAll? hoisted.2 hoisted.1 [[]] [] 0 ss place

/-- The declaration that checking resolves a name to in the statement at a place. -/
def origin? (p : Program) (place : Place) (x : String) : Option Declaration :=
  (p.surveyAt? place).bind (·.resolve? x)

end Program

/-! ## Declarations and scopes -/

namespace Typing

/-- A scope with the declarations of its variables. -/
structure Marks (scope : Table Entity) (declarations : Table Declaration) : Prop where
  bound : ∀ x t, scope.find? x = some (.variable t) → ∃ d, declarations.find? x = some d
  free : ∀ x, scope.find? x = none → declarations.find? x = none

theorem Marks.nil : Marks [] [] := ⟨by simp, by simp⟩

theorem Marks.insert_variable {scope : Table Entity} {declarations : Table Declaration}
    (h : Marks scope declarations) (x : String) (t : Ty) (d : Declaration) :
    Marks (scope.insert x (.variable t)) (declarations.insert x d) := by
  constructor
  · intro y u hy
    by_cases he : y = x
    · exact ⟨d, by rw [he, Table.find?_insert_self]⟩
    · rw [Table.find?_insert_of_ne _ he] at hy ⊢
      exact h.bound y u hy
  · intro y hy
    by_cases he : y = x
    · rw [he, Table.find?_insert_self] at hy
      cases hy
    · rw [Table.find?_insert_of_ne _ he] at hy ⊢
      exact h.free y hy

theorem Marks.insert_function {scope : Table Entity} {declarations : Table Declaration}
    (h : Marks scope declarations) (x : String) (s : Signature) :
    Marks (scope.insert x (.function s)) declarations := by
  constructor
  · intro y u hy
    rw [Table.find?_insert] at hy
    split at hy
    · cases hy
    · exact h.bound y u hy
  · intro y hy
    rw [Table.find?_insert] at hy
    split at hy
    · cases hy
    · exact h.free y hy

/-- A name that has a type is resolved to its innermost declaration. -/
theorem declarationIn?_of_typeIn? {x : String} {t : Ty} {scopes : List (Table Entity)}
    {D : List (Table Declaration)} (h : List.Forall₂ Marks scopes D)
    (ht : typeIn? x scopes = some t) :
    ∃ d, declarationIn? x scopes D = some d ∧ Table.findIn? x D = some d := by
  induction h with
  | nil => cases ht
  | @cons scope declarations scopes D hm _ ih =>
    simp only [typeIn?] at ht
    split at ht
    · next u hu =>
      obtain ⟨d, hd⟩ := hm.bound x u hu
      exact ⟨d, by simp only [declarationIn?, hu, hd], by simp [hd]⟩
    · cases ht
    · next hn =>
      obtain ⟨d, hd, hf⟩ := ih ht
      exact ⟨d, by simp only [declarationIn?, hn, hd], by simp [hm.free x hn, hf]⟩

namespace Context

/-- The declarations of the variables in sight. -/
structure Aligned (Γ : Context) (D : List (Table Declaration)) : Prop where
  base : ∀ b, Γ.base = some b → 0 < b ∧ b < Γ.scopes.length
  marks : List.Forall₂ Marks Γ.visible D

variable {Γ Δ : Context} {D : List (Table Declaration)}

theorem empty_aligned : empty.Aligned [[]] := ⟨by simp [empty], .cons .nil .nil⟩

theorem Aligned.of_eq (h : Γ.Aligned D) (hs : Δ.scopes = Γ.scopes) (hb : Δ.base = Γ.base) :
    Δ.Aligned D := by
  refine ⟨?_, ?_⟩
  · rw [hs, hb]
    exact h.base
  · have hm := h.marks
    unfold visible at hm ⊢
    rw [hs, hb]
    exact hm

theorem getLast?_scopes_push (Γ : Context) : Γ.push.scopes.getLast? = Γ.scopes.getLast? := by
  rw [scopes_push, scopes, List.getLast?_cons_cons]

/-- The outermost scope is in sight everywhere. -/
theorem getLast?_visible (Γ : Context) : Γ.visible.getLast? = Γ.scopes.getLast? := by
  unfold visible
  cases Γ.base with
  | none => rfl
  | some b =>
    obtain ⟨last, hl⟩ : ∃ last, Γ.scopes.getLast? = some last :=
      Option.isSome_iff_exists.1 (by simp [List.getLast?_isSome, scopes])
    simp [hl]

/-- The innermost scope is in sight, and what else is does not depend on it. -/
theorem Aligned.visible_eq (h : Γ.Aligned D) (ho : Δ.outer = Γ.outer) (hb : Δ.base = Γ.base) :
    ∃ rest, Γ.visible = Γ.inner :: rest ∧ Δ.visible = Δ.inner :: rest := by
  unfold visible
  rw [hb]
  simp only [scopes, ho]
  cases hcase : Γ.base with
  | none => exact ⟨Γ.outer, rfl, rfl⟩
  | some b =>
    have hbase := h.base b hcase
    rw [scopes, List.length_cons] at hbase
    have hl : Γ.outer.length + 1 - b = (Γ.outer.length - b) + 1 := by omega
    obtain ⟨next, more, hout⟩ := List.exists_cons_of_length_pos (l := Γ.outer) (by omega)
    rw [hout] at hl ⊢
    refine ⟨(next :: more).take ((next :: more).length - b) ++ (next :: more).getLast?.toList,
      ?_, ?_⟩ <;>
    dsimp only <;>
    rw [List.length_cons, hl, List.take_succ_cons, List.cons_append, List.getLast?_cons_cons]

/-- A change of the innermost scope shows in the innermost declarations. -/
theorem Aligned.update (h : Γ.Aligned D) (ho : Δ.outer = Γ.outer) (hb : Δ.base = Γ.base) :
    ∃ declarations rest, D = declarations :: rest ∧ Marks Γ.inner declarations ∧
      ∀ declarations', Marks Δ.inner declarations' → Δ.Aligned (declarations' :: rest) := by
  obtain ⟨rest, hvΓ, hvΔ⟩ := h.visible_eq ho hb
  have hm := h.marks
  rw [hvΓ] at hm
  cases hm with
  | cons hin hrest =>
    refine ⟨_, _, rfl, hin, fun declarations' hm' => ⟨?_, ?_⟩⟩
    · rw [hb, scopes, ho]
      exact h.base
    · rw [hvΔ]
      exact .cons hm' hrest

theorem Aligned.push (h : Γ.Aligned D) : Γ.push.Aligned ([] :: D) := by
  have hv : Γ.push.visible = [] :: Γ.visible := by
    unfold visible
    have hp : Γ.push.base = Γ.base := rfl
    rw [hp, getLast?_scopes_push, scopes_push]
    cases hb : Γ.base with
    | none => rfl
    | some b =>
      have := h.base b hb
      have hl : Γ.scopes.length + 1 - b = (Γ.scopes.length - b) + 1 := by omega
      dsimp only
      rw [List.length_cons, hl, List.take_succ_cons, List.cons_append]
  refine ⟨fun b hb => ?_, ?_⟩
  · have := h.base b hb
    rw [scopes_push, List.length_cons]
    omega
  · rw [hv]
    exact .cons .nil h.marks

theorem forall₂_getLast? {α β : Type} {R : α → β → Prop} {as : List α} {bs : List β}
    (h : List.Forall₂ R as bs) : List.Forall₂ R as.getLast?.toList bs.getLast?.toList := by
  induction h with
  | nil => exact .nil
  | cons hab hrest ih =>
    cases hrest with
    | nil => exact .cons hab .nil
    | cons hab' hrest => simpa only [List.getLast?_cons_cons] using ih

/-- Entering a function, from where only the global scope stays in sight. -/
theorem Aligned.enter (h : Γ.Aligned D) (result : Ty) :
    (Γ.enter result).Aligned ([] :: D.getLast?.toList) := by
  have hv : (Γ.enter result).visible = [] :: Γ.scopes.getLast?.toList := by
    have hlast : (Γ.enter result).scopes.getLast? = Γ.scopes.getLast? := Γ.getLast?_scopes_push
    unfold visible
    rw [hlast, scopes_enter]
    simp [Context.enter]
  refine ⟨fun b hb => ?_, ?_⟩
  · cases hb
    rw [scopes_enter, List.length_cons]
    exact ⟨Nat.succ_pos _, Nat.lt_succ_self _⟩
  · rw [hv, ← Γ.getLast?_visible]
    exact .cons .nil (forall₂_getLast? h.marks)

/-- Binding a variable without a diagnostic: its name was free in the innermost scope. -/
theorem Aligned.bind {declarations : Table Declaration} {x : String} {t : Ty} {span : Span}
    (h : Γ.Aligned (declarations :: D)) (hd : (Typing.bind Γ x t span).1 = []) :
    declarations.find? x = none ∧
      ∀ d, (Typing.bind Γ x t span).2.Aligned (declarations.insert x d :: D) := by
  unfold Typing.bind at hd ⊢
  cases hv : Γ.declareVariable x t span with
  | error e => simp [hv] at hd
  | ok Δ =>
    obtain ⟨hn, rfl⟩ := declare_eq hv
    obtain ⟨_, _, he, hm, hup⟩ :=
      h.update (Δ := { Γ with inner := Γ.inner.insert x (.variable t) }) rfl rfl
    cases he
    exact ⟨hm.free x hn, fun d => hup _ (hm.insert_variable x t d)⟩

theorem Aligned.bindAll {declarations : Table Declaration} {span : Span} {ps : List Param}
    (h : Γ.Aligned (declarations :: D)) (hd : (Typing.bindAll Γ span ps).1 = [])
    (d : Param → Declaration) :
    (Typing.bindAll Γ span ps).2.Aligned
      (ps.foldl (fun t p => t.insert p.name (d p)) declarations :: D) := by
  induction ps generalizing Γ declarations with
  | nil => exact h
  | cons p ps ih =>
    simp only [Typing.bindAll, List.append_eq_nil_iff] at hd
    exact ih ((h.bind hd.1).2 (d p)) hd.2

/-- Functions are no variables. -/
theorem Aligned.hoist (h : Γ.Aligned D) (ss : List Stmt) : (Typing.hoist Γ ss).2.Aligned D := by
  induction ss generalizing Γ with
  | nil => exact h
  | cons s ss ih =>
    refine ih ?_
    unfold hoistOne
    split
    · next n hdr body =>
      split
      · next symbol Δ hdecl =>
        obtain ⟨-, hΔ⟩ := Stmt.declareFunction_eq hdecl
        have hg := hoistOne_grows Γ (.define n hdr body)
        simp only [hoistOne, hdecl] at hg
        obtain ⟨declarations, rest, rfl, hm, hup⟩ := h.update hg.outer hg.base
        exact hup _ (hΔ ▸ hm.insert_function _ _)
      · exact h
    · exact h

end Context

end Typing

end CatScript
