import CatScript.Proofs.JavaScript.Scopes

/-!
# Names in sight of checking and of the script

Checking keeps variables apart from functions, and a variable is in sight from its declaration
on. In the script both are in one table, and a variable is in it from the start of its block.
`Shows` relates the two for one scope, and `Sees` for all scopes around a statement.

Results:
* `Sees.traced_expr`: each name of a checked expression is bound in the script to what checking
  found, if nothing diverts it.
-/
namespace CatScript

open Typing Context JavaScript

/-! ## Scopes of checking and of the script -/

namespace JavaScript

/-- The script binds the variables that are declared in a scope. -/
def Carries (declarations : Table Declaration) (table : Table Binding) : Prop :=
  ∀ x d, declarations.find? x = some d → table.find? x = some (.declared d)

/-- A scope in front of the statement `here`, and what the script binds in it: the same, and the
variables that are declared later. -/
structure Shows (here : Place) (scope : Table Entity) (table : Table Binding) : Prop where
  function : ∀ x s, scope.find? x = some (.function s) → table.find? x = some (.function s.symbol)
  declared : ∀ x t, scope.find? x = some (.variable t) → ∃ d, table.find? x = some (.declared d)
  late : ∀ x b, scope.find? x = none → table.find? x = some b →
    ∃ place, b = .declared (.variable place x) ∧ Reached here place

theorem Shows.append {here : Place} {scope : Table Entity} {table : Table Binding}
    (h : Shows here scope table) (path : Place) : Shows (here ++ path) scope table := by
  refine ⟨h.function, h.declared, fun x b hx hb => ?_⟩
  obtain ⟨place, rfl, hp⟩ := h.late x b hx hb
  exact ⟨place, rfl, hp.append path⟩

theorem findIn?_cons_eq_some {x : String} {table : Table Binding} {tables : List (Table Binding)}
    {b : Binding} (h : Table.findIn? x (table :: tables) = some b) :
    table.find? x = some b ∨ Table.findIn? x tables = some b := by
  rw [Table.findIn?_cons, Option.or_eq_some_iff] at h
  exact h.imp id And.right

/-- The declaration of a variable is bound in the script, and what hides it there comes late. -/
theorem bound_of_typeIn? {here : Place} {scopes : List (Table Entity)}
    {D : List (Table Declaration)} {tables : List (Table Binding)}
    (hm : List.Forall₂ Marks scopes D) (hs : List.Forall₂ (Shows here) scopes tables)
    (hc : List.Forall₂ Carries D tables) {x : String} {t : Ty} (ht : typeIn? x scopes = some t) :
    ∃ d inner table outer, declarationIn? x scopes D = some d ∧
      tables = inner ++ table :: outer ∧ table.find? x = some (.declared d) ∧
      ∀ b, Table.findIn? x inner = some b →
        ∃ place, b = .declared (.variable place x) ∧ Reached here place := by
  induction hm generalizing tables with
  | nil => cases ht
  | @cons scope declarations scopes D hm _ ih =>
    obtain _ | ⟨hs, hss⟩ := hs
    next table tables =>
    obtain _ | ⟨hc, hcs⟩ := hc
    simp only [typeIn?] at ht
    split at ht
    · next u hu =>
      obtain ⟨d, hd⟩ := hm.bound x u hu
      exact ⟨d, [], table, tables, by simp only [declarationIn?, hu, hd], rfl, hc x d hd, by simp⟩
    · cases ht
    · next hn =>
      obtain ⟨d, inner, found, outer, hd, rfl, hfound, hinner⟩ := ih hss hcs ht
      refine ⟨d, table :: inner, found, outer, by simp only [declarationIn?, hn, hd], rfl, hfound,
        fun b hb => ?_⟩
      rcases findIn?_cons_eq_some hb with hb | hb
      · exact hs.late x b hn hb
      · exact hinner b hb

/-- The function of a call is bound in the script, and only variables hide it there. -/
theorem bound_of_signatureIn? {here : Place} {scopes : List (Table Entity)}
    {tables : List (Table Binding)} (hs : List.Forall₂ (Shows here) scopes tables) {f : String}
    {s : Signature} (hf : signatureIn? f scopes = some s) :
    ∃ inner table outer, tables = inner ++ table :: outer ∧
      table.find? f = some (.function s.symbol) ∧
      ∀ b, Table.findIn? f inner = some b → ∃ d, b = .declared d := by
  induction hs with
  | nil => cases hf
  | @cons scope table scopes tables hs _ ih =>
    unfold signatureIn? at hf
    split at hf
    · next sig hsig =>
      cases hf
      exact ⟨[], table, tables, rfl, hs.function f s hsig, by simp⟩
    · next hno =>
      obtain ⟨inner, found, outer, rfl, hfound, hinner⟩ := ih hf
      refine ⟨table :: inner, found, outer, rfl, hfound, fun b hb => ?_⟩
      rcases findIn?_cons_eq_some hb with hb | hb
      · match he : scope.find? f with
        | none =>
          obtain ⟨place, rfl, -⟩ := hs.late f b he hb
          exact ⟨_, rfl⟩
        | some (.variable t) =>
          obtain ⟨d, hd⟩ := hs.declared f t he
          exact ⟨d, Option.some.inj (hb.symm.trans hd)⟩
        | some (.function sig) => exact absurd he (hno sig)
      · exact hinner b hb

/-! ## Uses in front of a statement -/

/-- What checking and the script have in sight in front of the statement `here`. -/
structure Sees (Γ : Context) (D : List (Table Declaration)) (here : Place)
    (own outside : List (Table Binding)) : Prop where
  aligned : Γ.Aligned D
  shows : List.Forall₂ (Shows here) Γ.scopes (own ++ outside)
  carries : List.Forall₂ Carries D (own ++ outside.getLast?.toList)
  base : Γ.base.getD 0 = outside.length
  layered : Layered (own ++ outside)
  length : here.length + 1 = 2 * (own ++ outside).length

namespace Sees

variable {Γ : Context} {D : List (Table Declaration)} {here : Place}
  {own outside : List (Table Binding)}

/-- Checking looks variables up in the scopes of the function and in the global one. -/
theorem visible (h : Sees Γ D here own outside) :
    List.Forall₂ (Shows here) Γ.visible (own ++ outside.getLast?.toList) := by
  have hbase := h.base
  have hlen := h.shows.length_eq
  unfold Context.visible
  cases hb : Γ.base with
  | none =>
    rw [hb, Option.getD_none, eq_comm, List.length_eq_zero_iff] at hbase
    subst hbase
    simpa using h.shows
  | some b =>
    rw [hb, Option.getD_some] at hbase
    have hpos := (h.aligned.base b hb).1
    have hown : Γ.scopes.length - b = own.length := by
      rw [List.length_append] at hlen
      omega
    have hlast : (own ++ outside).getLast? = outside.getLast? := by
      rw [List.getLast?_append_of_ne_nil]
      exact List.length_pos_iff.1 (by omega)
    have htake := List.forall₂_take own.length h.shows
    rw [List.take_left] at htake
    have hglobal := forall₂_getLast? h.shows
    rw [hlast] at hglobal
    show List.Forall₂ (Shows here)
      (Γ.scopes.take (Γ.scopes.length - b) ++ Γ.scopes.getLast?.toList) _
    rw [hown]
    exact List.rel_append htake hglobal

/-- The scope of a variable is one of the function's own, or the outermost one. -/
theorem split_visible {own outside inner outer : List (Table Binding)} {table : Table Binding}
    (h : own ++ outside.getLast?.toList = inner ++ table :: outer) :
    (∃ rest, own = inner ++ table :: rest) ∨ (inner = own ∧ ∃ mid, outside = mid ++ [table]) := by
  have hlast : ∀ {a}, outside.getLast?.toList = a ++ table :: outer →
      a = [] ∧ ∃ mid, outside = mid ++ [table] := by
    intro a ha
    cases hg : outside.getLast? with
    | none => simp [hg] at ha
    | some last =>
      rw [hg, Option.toList_some, List.singleton_eq_append_iff] at ha
      obtain ⟨rfl, hc⟩ | ⟨-, hc⟩ := ha
      · cases hc
        exact ⟨rfl, List.getLast?_eq_some_iff.1 hg⟩
      · cases hc
  obtain ⟨a, rfl, ha⟩ | ⟨c, rfl, hc⟩ := List.append_eq_append_iff.1 h
  · obtain ⟨rfl, hmid⟩ := hlast ha
    exact .inr ⟨by simp, hmid⟩
  · cases c with
    | nil => exact .inr ⟨by simp, (hlast (a := []) (by simpa using hc.symm)).2⟩
    | cons t rest =>
      cases hc
      exact .inl ⟨rest, rfl⟩

variable {origin : Place → String → Option Declaration}

/-- A variable that has a type. In front of the scopes in sight may be that of a loop's constant,
for the value that the loop runs over. -/
theorem traced_variable (h : Sees Γ D here own outside) (front : List (Table Binding))
    (hl : Layered (front ++ own ++ outside)) {access : Access}
    (ha : access = .read ∨ access = .write) {x : String} {t : Ty} (ht : Γ.typeOf? x = some t)
    (hf : ∀ b, Table.findIn? x front = some b → access = .read ∧ b = .declared (.loop here x))
    (ho : origin here x = Survey.resolve? ⟨Γ, D⟩ x) :
    Use.Traced origin ⟨access, x, here, front ++ own, outside⟩ := by
  obtain ⟨d, inner, table, outer, hd, hsplit, htable, hinner⟩ :=
    bound_of_typeIn? h.aligned.marks h.visible h.carries ht
  have hmeant : Use.meant? origin ⟨access, x, here, front ++ own, outside⟩ =
      some (.declared d) := by
    have : origin here x = some d := ho.trans hd
    rcases ha with rfl | rfl <;> simp [Use.meant?, this]
  have hdiverted : ∀ b, Table.findIn? x (front ++ inner) = some b →
      Table.findIn? x (front ++ own) = some b →
      Use.Diverted ⟨access, x, here, front ++ own, outside⟩ b := by
    intro b hb hown
    rw [Table.findIn?_append, Option.or_eq_some_iff] at hb
    rcases hb with hb | ⟨-, hb⟩
    · obtain ⟨rfl, rfl⟩ := hf b hb
      exact .header rfl
    · obtain ⟨place, rfl, hp⟩ := hinner b hb
      exact .late ha hown hp
  -- between the function and the global scope lie the scopes that checking does not look into
  rcases split_visible hsplit with ⟨rest, rfl⟩ | ⟨rfl, mid, rfl⟩
  · have hscopes : front ++ (inner ++ table :: rest) ++ outside =
        front ++ inner ++ table :: (rest ++ outside) := by simp
    rw [hscopes] at hl
    refine ⟨_, front ++ inner, table, rest ++ outside, hmeant, hscopes, htable, ?_, fun b hb => ?_⟩
    · unfold Use.binding? Use.scopes
      rw [hscopes]
      exact hl.findIn?_iff htable
    · refine hdiverted b hb ?_
      rw [← List.append_assoc, Table.findIn?_append, hb, Option.some_or]
  · have hscopes : front ++ inner ++ (mid ++ [table]) = front ++ inner ++ mid ++ table :: [] := by
      simp
    rw [hscopes] at hl
    refine ⟨_, front ++ inner ++ mid, table, [], hmeant, hscopes, htable, ?_, fun b hb => ?_⟩
    · unfold Use.binding? Use.scopes
      rw [hscopes]
      exact hl.findIn?_iff htable
    · rw [Table.findIn?_append, Option.or_eq_some_iff] at hb
      rcases hb with hb | ⟨hn, hb⟩
      · exact hdiverted b hb hb
      · refine .captured ha hn ?_
        rw [Table.findIn?_append, hb, Option.some_or]

/-- A call of a function that checking has found. -/
theorem traced_call (h : Sees Γ D here own outside) (front : List (Table Binding)) {f : String}
    {s : Signature} (hs : Γ.signatureOf? f = some s)
    (hf : ∀ b, Table.findIn? f front = some b → ∃ d, b = .declared d) :
    Use.Traced origin ⟨.call (some s.symbol), f, here, front ++ own, outside⟩ := by
  obtain ⟨inner, table, outer, hsplit, htable, hinner⟩ := bound_of_signatureIn? h.shows hs
  have hscopes : front ++ own ++ outside = front ++ inner ++ table :: outer := by
    rw [List.append_assoc, hsplit, List.append_assoc]
  have hvariable : ∀ b, Table.findIn? f (front ++ inner) = some b → ∃ d, b = .declared d := by
    intro b hb
    rw [Table.findIn?_append, Option.or_eq_some_iff] at hb
    exact hb.elim (hf b) fun hb => hinner b hb.2
  refine ⟨.function s.symbol, front ++ inner, table, outer, rfl, hscopes, htable, ?_,
    fun b hb => ?_⟩
  · unfold Use.binding? Use.scopes
    rw [hscopes, Table.findIn?_append, Table.findIn?_cons, htable, Option.some_or]
    cases hi : Table.findIn? f (front ++ inner) with
    | none => simp
    | some b =>
      obtain ⟨d, rfl⟩ := hvariable b hi
      simp
  · obtain ⟨d, rfl⟩ := hvariable b hb
    exact .shadowed rfl

end Sees

/-! ## Expressions -/

/-- A piece that checking in `Γ` has found nothing wrong with. -/
def Piece.Known (Γ : Context) : Piece → Prop
  | text _ => True
  | name x => ∃ t, Γ.typeOf? x = some t
  | callee f symbol => ∃ s, Γ.signatureOf? f = some s ∧ symbol = some s.symbol

end JavaScript

theorem BinaryOp.mem_pieces {op : BinaryOp} {l r : List Piece} {p : Piece}
    (h : p ∈ op.pieces l r) : p ∈ l ∨ p ∈ r ∨ ∃ s, p = .text s := by
  cases op <;> simp only [pieces, List.cons_append, List.mem_cons, List.mem_append,
    List.not_mem_nil, or_false] at h <;> grind

namespace Expr

mutual

theorem check_known {Γ : Context} : (e : Expr) → (e.check Γ).diagnostics = [] →
    ∀ p ∈ (e.check Γ).pieces, p.Known Γ
  | int _ _, _ | str _ _, _ | bool _ _, _ | null _, _ => by simp [check, pieces, Piece.Known]
  | var n x, hd => by
    simp only [check] at hd ⊢
    cases ht : Γ.typeOf? x with
    | none => simp [ht, diagnostics, Note.typed] at hd
    | some t =>
      intro p hp
      rw [List.mem_singleton.1 hp]
      exact ⟨t, ht⟩
  | unary n op e, hd => by
    simp only [check, diagnostics, List.append_eq_nil_iff] at hd
    have he := check_known e hd.2
    intro p hp
    simp only [check, pieces] at hp
    split at hp <;> simp only [List.cons_append, List.mem_cons, List.mem_append,
      List.not_mem_nil, or_false] at hp
    · rcases hp with rfl | hp | rfl
      exacts [trivial, he p hp, trivial]
    · rcases hp with rfl | hp
      exacts [trivial, he p hp]
  | binary n op l r, hd => by
    simp only [check, diagnostics, List.append_eq_nil_iff] at hd
    intro p hp
    rcases BinaryOp.mem_pieces hp with hp | hp | ⟨s, rfl⟩
    exacts [check_known l hd.1.2 p hp, check_known r hd.2 p hp, trivial]
  | paren n e, hd => by
    simp only [check, diagnostics, List.append_eq_nil_iff] at hd
    intro p hp
    simp only [check, pieces, List.cons_append, List.mem_cons, List.mem_append,
      List.not_mem_nil, or_false] at hp
    rcases hp with rfl | hp | rfl
    exacts [trivial, check_known e hd.2 p hp, trivial]
  | list n es, hd => by
    simp only [check, diagnostics, List.append_eq_nil_iff] at hd
    intro p hp
    simp only [check, pieces, List.cons_append, List.mem_cons, List.mem_append,
      List.not_mem_nil, or_false] at hp
    rcases hp with rfl | hp | rfl
    exacts [trivial, checkAll_known es hd.2 p hp, trivial]
  | call n f es symbol, hd => by
    simp only [check] at hd ⊢
    cases hs : Γ.signatureOf? f with
    | none => simp [hs, diagnostics, Note.typed] at hd
    | some s =>
      simp only [hs, diagnostics, List.append_eq_nil_iff] at hd
      intro p hp
      simp only [pieces, List.cons_append, List.mem_cons, List.mem_append,
        List.not_mem_nil, or_false] at hp
      rcases hp with rfl | rfl | hp | rfl
      exacts [⟨s, hs, rfl⟩, trivial, checkAll_known es hd.2 p hp, trivial]

theorem checkAll_known {Γ : Context} : (es : List Expr) →
    diagnosticsOfAll (checkAll Γ es) = [] → ∀ p ∈ piecesOfAll (checkAll Γ es), p.Known Γ
  | [], _ => by simp [checkAll, piecesOfAll]
  | [e], hd => by
    simp only [checkAll, diagnosticsOfAll, List.append_nil] at hd
    exact check_known e hd
  | e :: d :: es, hd => by
    simp only [checkAll, diagnosticsOfAll, List.append_eq_nil_iff] at hd
    intro p hp
    simp only [checkAll, piecesOfAll, List.mem_append, List.mem_cons] at hp
    rcases hp with hp | rfl | hp
    · exact check_known e hd.1 p hp
    · trivial
    · refine checkAll_known (d :: es) ?_ p hp
      simp only [checkAll, diagnosticsOfAll, List.append_eq_nil_iff]
      exact hd.2

end

end Expr

namespace JavaScript.Sees

variable {Γ : Context} {D : List (Table Declaration)} {here : Place}
  {own outside : List (Table Binding)} {origin : Place → String → Option Declaration}

/-- The uses in an expression, in front of which a loop's constant may be in sight. -/
theorem traced_pieces (h : Sees Γ D here own outside) (front : List (Table Binding))
    (hl : Layered (front ++ own ++ outside))
    (hf : ∀ x b, Table.findIn? x front = some b → b = .declared (.loop here x))
    (ho : ∀ x, origin here x = Survey.resolve? ⟨Γ, D⟩ x) {ps : List Piece}
    (hk : ∀ p ∈ ps, p.Known Γ) : ∀ u ∈ usesIn here (front ++ own) outside ps, u.Traced origin := by
  induction ps with
  | nil => simp [usesIn]
  | cons p ps ih =>
    obtain ⟨hp, hps⟩ := List.forall_mem_cons.1 hk
    cases p with
    | text s => exact ih hps
    | name x =>
      obtain ⟨t, ht⟩ := hp
      exact List.forall_mem_cons.2
        ⟨h.traced_variable front hl (.inl rfl) ht (fun b hb => ⟨rfl, hf x b hb⟩) (ho x), ih hps⟩
    | callee f symbol =>
      obtain ⟨s, hs, rfl⟩ := hp
      exact List.forall_mem_cons.2 ⟨h.traced_call front hs fun b hb => ⟨_, hf f b hb⟩, ih hps⟩

theorem traced_expr (h : Sees Γ D here own outside)
    (ho : ∀ x, origin here x = Survey.resolve? ⟨Γ, D⟩ x) {e : Expr}
    (hd : (e.check Γ).diagnostics = []) :
    ∀ u ∈ usesIn here own outside (e.check Γ).pieces, u.Traced origin :=
  h.traced_pieces [] h.layered (by simp) ho (e.check_known hd)

end JavaScript.Sees

end CatScript
