import CatScript.Proofs.JavaScript.Sight

/-!
# Which names keep their meaning

A block is entered with the variables that its scope has from the start, a loop's variable or a
function's parameters, and with its functions. `Framed` says what is in sight in front of each of
its statements: what is declared there is bound in the script, which binds nothing else in the
block but the variables of the statements that follow. A statement keeps it (`Framed.check`), and
so does a walk through the program.

Results:
* `Program.javaScript_names`: without diagnostics, each use of a name has what checking resolved
  it to among the bindings around it. It means that exactly if no scope further in binds its name,
  and a scope that does has a variable that is declared too late, the constant of the loop in
  whose header the use stands, a binding outside of the function of the use, or, for a call, a
  variable.
-/
namespace CatScript

open Typing Context JavaScript

/-! ## Blocks -/

namespace Stmt

/-- The variables declared directly in a block, of whose statements the first has the number
`i`. -/
def varsFrom (block : Place) (i : Nat) : List Stmt → Table Declaration
  | [] => []
  | declare _ x _ _ :: ss => (x, .variable (block ++ [i]) x) :: varsFrom block (i + 1) ss
  | _ :: ss => varsFrom block (i + 1) ss

theorem varsFrom_of_ne_declare {s : Stmt} (hs : ∀ n x t e, s ≠ declare n x t e) (block : Place)
    (i : Nat) (ss : List Stmt) : varsFrom block i (s :: ss) = varsFrom block (i + 1) ss := by
  cases s with
  | declare n x t e => exact absurd rfl (hs n x t e)
  | _ => rfl

theorem varsFrom_checkAll (block : Place) (i : Nat) (Γ : Context) (slots : List Hoisted)
    (ss : List Stmt) : varsFrom block i (checkAll Γ slots ss).1 = varsFrom block i ss := by
  induction ss generalizing i Γ slots with
  | nil => rfl
  | cons s ss ih =>
    simp only [checkAll]
    cases s with
    | cond n e yes no => cases no <;> simp only [check, varsFrom, ih]
    | ret n e => cases e <;> simp only [check, varsFrom, ih]
    | _ => simp only [check, varsFrom, ih]

theorem find?_varsFrom {block : Place} {i : Nat} {ss : List Stmt} {x : String} {d : Declaration}
    (h : (varsFrom block i ss).find? x = some d) :
    ∃ j, i ≤ j ∧ d = .variable (block ++ [j]) x := by
  induction ss generalizing i with
  | nil => cases h
  | cons s ss ih =>
    by_cases hs : ∃ n y t e, s = declare n y t e
    · obtain ⟨n, y, t, e, rfl⟩ := hs
      simp only [varsFrom, Table.find?] at h
      split at h
      · next hy =>
        cases h
        exact ⟨i, Nat.le_refl i, by rw [hy]⟩
      · obtain ⟨j, hj, hd⟩ := ih h
        exact ⟨j, by omega, hd⟩
    · rw [varsFrom_of_ne_declare fun n y t e he => hs ⟨n, y, t, e, he⟩] at h
      obtain ⟨j, hj, hd⟩ := ih h
      exact ⟨j, by omega, hd⟩

/-- A variable is declared under a name that is free in the innermost scope. -/
theorem inner_declare {Γ : Context} {slot : Hoisted} {n : Note} {x : String}
    {t : Option TypeName} {e : Expr}
    (hd : ((declare n x t e).check Γ slot).1.diagnostics = []) :
    Γ.inner.find? x = none ∧ ∃ ty,
      ((declare n x t e).check Γ slot).2.inner = Γ.inner.insert x (.variable ty) := by
  have hb := bind_of_declare hd
  simp only [check, Typing.bind] at hb ⊢
  cases hv : Γ.declareVariable x (declareTyping t (e.check Γ)).1 n.span with
  | error d => simp [hv] at hb
  | ok Δ =>
    obtain ⟨hfree, rfl⟩ := declare_eq hv
    exact ⟨hfree, _, rfl⟩

/-- Without diagnostics a block declares no variable whose name is taken in its scope. -/
theorem varsFrom_free {ss : List Stmt} {Γ : Context} {slots : List Hoisted}
    (hd : diagnosticsOfAll (checkAll Γ slots ss).1 = []) (block : Place) (i : Nat) {x : String}
    (hx : Γ.inner.find? x ≠ none) : (varsFrom block i ss).find? x = none := by
  induction ss generalizing Γ slots i with
  | nil => rfl
  | cons s ss ih =>
    simp only [checkAll, diagnosticsOfAll, List.append_eq_nil_iff] at hd
    by_cases hdec : ∃ n y t e, s = declare n y t e
    · obtain ⟨n, y, t, e, rfl⟩ := hdec
      obtain ⟨hfree, ty, hnext⟩ := inner_declare hd.1
      have hne : x ≠ y := fun he => hx (he ▸ hfree)
      rw [varsFrom, Table.find?, if_neg hne.symm]
      exact ih hd.2 (i + 1) (by rwa [hnext, Table.find?_insert_of_ne _ hne])
    · have hdec : ∀ n y t e, s ≠ declare n y t e := fun n y t e he => hdec ⟨n, y, t, e, he⟩
      rw [varsFrom_of_ne_declare hdec]
      refine ih hd.2 (i + 1) ?_
      rwa [(List.cons.inj (check_scopes Γ _ s hdec)).1]

/-- What the script of a block binds to a name that no function of the block has. -/
theorem find?_bindsOfAll_vars {block : Place} {x : String} {ss : List Stmt}
    (h : definitionsOf x ss = []) (i : Nat) :
    (Script.bindsOfAll block i (scriptOfAll ss)).find? x =
      ((varsFrom block i ss).find? x).map .declared := by
  induction ss generalizing i with
  | nil => rfl
  | cons s ss ih =>
    rw [definitionsOf, List.filterMap_cons] at h
    rw [scriptOfAll, Script.bindsOfAll, Table.find?_append]
    cases s with
    | declare n y t e =>
      simp only [script, Script.binds, varsFrom, Table.find?]
      split
      · rfl
      · exact ih h (i + 1)
    | define n hdr body =>
      by_cases hn : hdr.name = x
      · simp [definition?, hn] at h
      · simp only [definition?, if_neg hn] at h
        simp only [script, Script.binds, varsFrom, Table.find?, if_neg hn, Option.none_or]
        exact ih h (i + 1)
    | cond n e yes no => cases no <;> exact ih h (i + 1)
    | ret n e => cases e <;> exact ih h (i + 1)
    | _ => exact ih h (i + 1)

/-- What the script of a block binds to the name of one of its functions. -/
theorem find?_bindsOfAll_function {block : Place} {x : String} {ss : List Stmt} {f : Function}
    {fs : List Function} (h : definitionsOf x ss = f :: fs) (i : Nat)
    (hv : (varsFrom block i ss).find? x = none) :
    (Script.bindsOfAll block i (scriptOfAll ss)).find? x = some (.function f.header.symbol) := by
  induction ss generalizing i with
  | nil => cases h
  | cons s ss ih =>
    rw [definitionsOf, List.filterMap_cons] at h
    rw [scriptOfAll, Script.bindsOfAll, Table.find?_append]
    cases s with
    | declare n y t e =>
      simp only [varsFrom, Table.find?] at hv
      split at hv
      · cases hv
      · next hn =>
        simp only [script, Script.binds, Table.find?, if_neg hn, Option.none_or]
        exact ih h (i + 1) hv
    | define n hdr body =>
      by_cases hn : hdr.name = x
      · simp only [definition?, if_pos hn, List.cons.injEq] at h
        simp [script, Script.binds, Table.find?, hn, ← h.1]
      · simp only [definition?, if_neg hn] at h
        simp only [script, Script.binds, Table.find?, if_neg hn, Option.none_or]
        exact ih h (i + 1) hv
    | cond n e yes no => cases no <;> exact ih h (i + 1) hv
    | ret n e => cases e <;> exact ih h (i + 1) hv
    | _ => exact ih h (i + 1) hv

end Stmt

namespace JavaScript

/-- The scope of a block in front of the statements `rest`, of which the first has the number
`i`: the script binds in it what has been declared and the variables of `rest`. -/
structure Opened (block : Place) (i : Nat) (rest : List Stmt) (scope : Table Entity)
    (table : Table Binding) : Prop where
  function : ∀ x s, scope.find? x = some (.function s) → table.find? x = some (.function s.symbol)
  free : ∀ x, scope.find? x = none →
    table.find? x = ((Stmt.varsFrom block i rest).find? x).map .declared

namespace Opened

variable {block : Place} {i : Nat} {scope : Table Entity} {table : Table Binding} {s : Stmt}
  {rest : List Stmt}

theorem next (h : Opened block i (s :: rest) scope table)
    (hs : ∀ n x t e, s ≠ .declare n x t e) : Opened block (i + 1) rest scope table := by
  refine ⟨h.function, fun x hx => ?_⟩
  rw [h.free x hx, Stmt.varsFrom_of_ne_declare hs]

theorem declare {n : Stmt.Note} {x : String} {t : Option TypeName} {e : Expr}
    (h : Opened block i (.declare n x t e :: rest) scope table) (hx : scope.find? x = none)
    (ty : Ty) : table.find? x = some (.declared (.variable (block ++ [i]) x)) ∧
      Opened block (i + 1) rest (scope.insert x (.variable ty)) table := by
  refine ⟨?_, fun y s hy => ?_, fun y hy => ?_⟩
  · rw [h.free x hx]
    simp [Stmt.varsFrom, Table.find?]
  · rw [Table.find?_insert] at hy
    split at hy
    · cases hy
    · exact h.function y s hy
  · rw [Table.find?_insert] at hy
    split at hy
    · cases hy
    · next hne => rw [h.free y hy, Stmt.varsFrom, Table.find?, if_neg (Ne.symm hne)]

theorem shows (h : Opened block i rest scope table) {declarations : Table Declaration}
    (hm : Marks scope declarations) (hc : Carries declarations table) :
    Shows (block ++ [i]) scope table := by
  refine ⟨h.function, fun x t hx => ?_, fun x b hx hb => ?_⟩
  · obtain ⟨d, hd⟩ := hm.bound x t hx
    exact ⟨d, hc x d hd⟩
  · rw [h.free x hx, Option.map_eq_some_iff] at hb
    obtain ⟨d, hd, rfl⟩ := hb
    obtain ⟨j, hj, rfl⟩ := Stmt.find?_varsFrom hd
    exact ⟨_, rfl, block, i, j, [], rfl, rfl, hj⟩

end Opened

/-- What the script binds at the start of a block whose scope `scope` has no function yet:
`scope'` is the scope with the block's functions. -/
theorem find?_opening {block : Place} {body body' : List Stmt} {scope scope' : Table Entity}
    {declarations : Table Declaration} (hm : Marks scope declarations)
    (hno : ∀ x s, scope.find? x ≠ some (.function s))
    (hnames : ∀ x, Stmt.Declares scope scope' body' x)
    (hvars : ∀ x, scope'.find? x ≠ none → (Stmt.varsFrom block 0 body).find? x = none)
    (hbody : Stmt.varsFrom block 0 body' = Stmt.varsFrom block 0 body) (x : String) :
    Table.find? (Script.bindsOfAll block 0 (Stmt.scriptOfAll body') ++
        declarations.mapValues .declared) x =
      match scope'.find? x with
      | some (.function s) => some (.function s.symbol)
      | some (.variable _) => (declarations.find? x).map .declared
      | none => ((Stmt.varsFrom block 0 body).find? x).map .declared := by
  rw [Table.find?_append, Table.find?_mapValues]
  rcases hnames x with ⟨-, f, hf, hdef⟩ | ⟨he, hdef⟩
  · rw [Stmt.find?_bindsOfAll_function hdef 0 (hbody ▸ hvars x (by simp [hf])), hf]
    rfl
  · rw [Stmt.find?_bindsOfAll_vars hdef, hbody]
    match hx : scope'.find? x with
    | none => simp [hm.free x (he ▸ hx)]
    | some (.variable t) => simp [hvars x (by simp [hx])]
    | some (.function s) => exact absurd (he ▸ hx) (hno x s)

/-- What checking and the script have in sight inside a block in front of the statements `rest`,
of which the first has the number `i`. -/
structure Framed (block : Place) (i : Nat) (rest : List Stmt) (Γ : Context)
    (declarations : Table Declaration) (D : List (Table Declaration)) (table : Table Binding)
    (tables outside : List (Table Binding)) : Prop where
  aligned : Γ.Aligned (declarations :: D)
  inner : Opened block i rest Γ.inner table
  outer : List.Forall₂ (Shows block) Γ.outer (tables ++ outside)
  carried : Carries declarations table
  carries : List.Forall₂ Carries D (tables ++ outside.getLast?.toList)
  base : Γ.base.getD 0 = outside.length
  layered : Layered (table :: (tables ++ outside))
  length : block.length = 2 * (tables ++ outside).length

namespace Framed

variable {block : Place} {i : Nat} {s : Stmt} {rest : List Stmt} {Γ : Context}
  {declarations : Table Declaration} {D : List (Table Declaration)} {table : Table Binding}
  {tables outside : List (Table Binding)}

theorem sees (h : Framed block i rest Γ declarations D table tables outside) :
    Sees Γ (declarations :: D) (block ++ [i]) (table :: tables) outside := by
  obtain ⟨_, _, he, hm, -⟩ := h.aligned.update (Δ := Γ) rfl rfl
  cases he
  refine ⟨h.aligned, ?_, .cons h.carried h.carries, h.base, h.layered, ?_⟩
  · exact .cons (h.inner.shows hm h.carried) (h.outer.imp fun _ _ hshow => hshow.append [i])
  · have := h.length
    simp only [List.cons_append, List.length_cons, List.length_append, List.length_nil] at this ⊢
    omega

/-- The statement behind a checked one. -/
theorem check (h : Framed block i (s :: rest) Γ declarations D table tables outside)
    {slot : Hoisted} (hd : (s.check Γ slot).1.diagnostics = []) :
    ∃ declarations', s.declared (block ++ [i]) (declarations :: D) = declarations' :: D ∧
      Framed block (i + 1) rest (s.check Γ slot).2 declarations' D table tables outside := by
  have haligned := h.aligned.check hd (block ++ [i])
  have hgrows := Stmt.check_grows Γ slot s
  have houter := hgrows.outer.symm ▸ h.outer
  have hbase := hgrows.base.symm ▸ h.base
  by_cases hdec : ∃ n x t e, s = .declare n x t e
  · obtain ⟨n, x, t, e, rfl⟩ := hdec
    obtain ⟨hfree, ty, hnext⟩ := Stmt.inner_declare hd
    obtain ⟨hx, hopen⟩ := h.inner.declare hfree ty
    refine ⟨_, rfl, haligned, hnext ▸ hopen, houter, fun y d hy => ?_, h.carries, hbase, h.layered,
      h.length⟩
    rw [Table.find?_insert] at hy
    split at hy
    · next he =>
      cases hy
      rw [he, hx]
    · exact h.carried y d hy
  · have hdec : ∀ n x t e, s ≠ .declare n x t e := fun n x t e he => hdec ⟨n, x, t, e, he⟩
    rw [Stmt.declared_of_ne_declare hdec] at haligned
    have hsame := (List.cons.inj (Stmt.check_scopes Γ slot s hdec)).1
    exact ⟨declarations, Stmt.declared_of_ne_declare hdec _ _, haligned,
      hsame ▸ h.inner.next hdec, houter, h.carried, h.carries, hbase, h.layered, h.length⟩

/-- The start of a block. Its scope has variables only, `declarations`, before the functions are
declared. -/
theorem start {body : List Stmt} {outer : List (Table Entity)} (hΓ : Γ.Opens outer)
    (haligned : Γ.Aligned (declarations :: D))
    (houter : List.Forall₂ (Shows block) outer (tables ++ outside))
    (hcarries : List.Forall₂ Carries D (tables ++ outside.getLast?.toList))
    (hbase : Γ.base.getD 0 = outside.length) (hlayered : Layered (tables ++ outside))
    (hlength : block.length = 2 * (tables ++ outside).length)
    (hdepth : ∀ x d, declarations.find? x = some d → d.depth = block.length + 1)
    (hd : Stmt.diagnosticsOfAll (Stmt.checkBlock Γ body).1 = []) :
    Framed block 0 body (Typing.hoist Γ body).2 declarations D
      (Script.bindsOfAll block 0 (Stmt.scriptOfAll (Stmt.checkBlock Γ body).1) ++
        declarations.mapValues .declared) tables outside := by
  obtain ⟨_, _, he, hm, -⟩ := haligned.update (Δ := Γ) rfl rfl
  cases he
  have hgrows := hoist_grows Γ body
  have hnames := Stmt.hoist_declares hd
  have hfind := find?_opening hm hΓ.inner hnames (fun x => Stmt.varsFrom_free hd block 0)
    (Stmt.varsFrom_checkAll block 0 _ _ body)
  refine ⟨haligned.hoist body, ⟨fun x s hx => ?_, fun x hx => ?_⟩, ?_, fun x d hx => ?_, hcarries,
    ?_, ⟨fun x d hx => ?_, hlayered⟩, hlength⟩
  · exact (hfind x).trans (by rw [hx])
  · exact (hfind x).trans (by rw [hx])
  · rw [hgrows.outer, hΓ.outer]
    exact houter
  -- what is declared from the start has a name that neither a function nor a variable takes
  · match hscope : Γ.inner.find? x with
    | none => exact absurd (hm.free x hscope) (by simp [hx])
    | some (.function s) => exact absurd hscope (hΓ.inner x s)
    | some (.variable t) =>
      exact (hfind x).trans (by rw [((hnames x).of_bound hscope).1, hx, Option.map_some])
  · rw [hgrows.base, hbase]
  · rw [← hlength]
    have hx := (hfind x).symm.trans hx
    split at hx
    · cases hx
    · obtain ⟨d', hd', he⟩ := Option.map_eq_some_iff.1 hx
      cases he
      exact hdepth x d hd'
    · obtain ⟨d', hd', he⟩ := Option.map_eq_some_iff.1 hx
      cases he
      obtain ⟨j, -, rfl⟩ := Stmt.find?_varsFrom hd'
      simp [Declaration.depth]

end Framed

end JavaScript

/-! ## Entering blocks -/

theorem Table.find?_singleton {α : Type} {x y : String} {a b : α}
    (h : Table.find? [(x, a)] y = some b) : y = x ∧ b = a := by
  simp only [Table.find?, Option.ite_none_right_eq_some, Option.some.injEq] at h
  exact ⟨h.1.symm, h.2.symm⟩

namespace JavaScript

namespace Sees

variable {Γ Δ : Context} {D : List (Table Declaration)} {here : Place}
  {own outside : List (Table Binding)} {declarations : Table Declaration} {body : List Stmt}

theorem of_eq (h : Sees Γ D here own outside) (hs : Δ.scopes = Γ.scopes) (hb : Δ.base = Γ.base) :
    Sees Δ D here own outside :=
  ⟨h.aligned.of_eq hs hb, hs ▸ h.shows, h.carries, hb ▸ h.base, h.layered, h.length⟩

theorem shows_append (h : Sees Γ D here own outside) (k : Nat) :
    List.Forall₂ (Shows (here ++ [k])) Γ.scopes (own ++ outside) :=
  h.shows.imp fun _ _ hshow => hshow.append [k]

theorem enter_block (h : Sees Γ D here own outside) (k : Nat) (hΔ : Δ.Opens Γ.scopes)
    (haligned : Δ.Aligned (declarations :: D)) (hbase : Δ.base = Γ.base)
    (hdepth : ∀ x d, declarations.find? x = some d → d.depth = here.length + 2)
    (hd : Stmt.diagnosticsOfAll (Stmt.checkBlock Δ body).1 = []) :
    Framed (here ++ [k]) 0 body (Typing.hoist Δ body).2 declarations D
      (Script.bindsOfAll (here ++ [k]) 0 (Stmt.scriptOfAll (Stmt.checkBlock Δ body).1) ++
        declarations.mapValues .declared) own outside := by
  refine Framed.start hΔ haligned (h.shows_append k) h.carries (hbase ▸ h.base) h.layered ?_ ?_ hd
  · simpa using h.length
  · simpa using hdepth

theorem enter_function (h : Sees Γ D here own outside) (hΔ : Δ.Opens Γ.scopes)
    (haligned : Δ.Aligned (declarations :: D.getLast?.toList))
    (hbase : Δ.base = some Γ.scopes.length)
    (hdepth : ∀ x d, declarations.find? x = some d → d.depth = here.length + 2)
    (hd : Stmt.diagnosticsOfAll (Stmt.checkBlock Δ body).1 = []) :
    Framed (here ++ [0]) 0 body (Typing.hoist Δ body).2 declarations D.getLast?.toList
      (Script.bindsOfAll (here ++ [0]) 0 (Stmt.scriptOfAll (Stmt.checkBlock Δ body).1) ++
        declarations.mapValues .declared) [] (own ++ outside) := by
  have hlast : (own ++ outside.getLast?.toList).getLast? = (own ++ outside).getLast? := by
    cases hg : outside.getLast? with
    | none => simp [List.getLast?_eq_none_iff.1 hg]
    | some last => simp [hg]
  have hcarries := forall₂_getLast? h.carries
  rw [hlast] at hcarries
  refine Framed.start hΔ haligned (h.shows_append 0) hcarries ?_ h.layered ?_ ?_ hd
  · rw [hbase, Option.getD_some, h.shows.length_eq]
  · simpa using h.length
  · simpa using hdepth

/-- The constant of a loop in front of what is in sight. -/
theorem layered_header (h : Sees Γ D here own outside) (x : String) :
    Layered ([[(x, .declared (.loop here x))]] ++ own ++ outside) := by
  show Layered ([(x, .declared (.loop here x))] :: (own ++ outside))
  refine ⟨fun y d hy => ?_, h.layered⟩
  have hlength := h.length
  obtain ⟨-, hd⟩ := Table.find?_singleton hy
  cases hd
  rw [Declaration.depth]
  omega

end Sees

end JavaScript

theorem Header.depth_declarations {h : Header} {here : Place} {x : String} {d : Declaration}
    (hd : (h.declarations here).find? x = some d) : d.depth = here.length + 2 := by
  obtain ⟨p, -, he⟩ := List.mem_map.1 (Table.mem_of_find?_ofList hd)
  cases he
  rfl

theorem Header.mapValues_declarations (h : Header) (here : Place) :
    (h.declarations here).mapValues .declared =
      Script.parameters here (h.params.map (·.name)) := by
  rw [Header.declarations, Table.mapValues_ofList, Script.parameters, List.map_map, List.map_map]
  rfl

/-! ## Statements -/

namespace Stmt

mutual

theorem check_traced {origin : Place → String → Option Declaration} :
    (s : Stmt) → ∀ {Γ : Context} {slot : Hoisted} {D : List (Table Declaration)} {here : Place}
    {own outside : List (Table Binding)}, Sees Γ D here own outside →
    (s.check Γ slot).1.diagnostics = [] →
    (∀ path x, origin (here ++ path) x = (s.surveyAt? Γ D here path).bind (·.resolve? x)) →
    ∀ u ∈ (s.check Γ slot).1.script.uses here own outside, u.Traced origin
  | print n e, Γ, slot, D, here, own, outside, hsee, hd, ho
  | call n e, Γ, slot, D, here, own, outside, hsee, hd, ho
  | ret n (some e), Γ, slot, D, here, own, outside, hsee, hd, ho => by
    simp only [check, diagnostics, List.append_eq_nil_iff] at hd
    exact hsee.traced_expr (origin_here ho) hd.2
  | declare n x t e, Γ, slot, D, here, own, outside, hsee, hd, ho => by
    have he : (e.check Γ).diagnostics = [] := by
      cases t <;> simp_all [check, diagnostics]
    exact hsee.traced_expr (origin_here ho) he
  | assign n x e, Γ, slot, D, here, own, outside, hsee, hd, ho => by
    simp only [check, diagnostics, Note.report, List.append_eq_nil_iff, assignErrors] at hd
    refine List.forall_mem_cons.2 ⟨?_, ?_⟩
    · cases ht : Γ.typeOf? x with
      | none => simp [ht] at hd
      | some t =>
        exact hsee.traced_variable [] hsee.layered (.inr rfl) ht (by simp) (origin_here ho x)
    · exact hsee.traced_expr (origin_here ho) hd.2
  | forEach n x e body, Γ, slot, D, here, own, outside, hsee, hd, ho => by
    simp only [check, diagnostics, Note.report, List.append_eq_nil_iff] at hd
    obtain ⟨⟨⟨-, -, hb⟩, he⟩, hbody⟩ := hd
    have hopen := Γ.opens_push.bind x (loopTyping (e.check Γ)).1 n.span
    have haligned := (hsee.aligned.push.bind hb).2 (.loop here x)
    rw [Table.insert] at haligned
    have hbase := (bind_grows Γ.push x (loopTyping (e.check Γ)).1 n.span).base
    have hin := hsee.enter_block 0 hopen haligned hbase
      (fun _ _ hd => by obtain ⟨-, rfl⟩ := Table.find?_singleton hd; rfl) hbody
    refine List.forall_mem_append.2 ⟨?_, ?_⟩
    -- the loop's constant is in sight of the value that it runs over
    · refine hsee.traced_pieces [_] (hsee.layered_header x) (fun y b hb => ?_)
        (origin_here ho) (Expr.check_known e he)
      rw [Table.findIn?_cons, Table.findIn?_nil, Option.or_none] at hb
      obtain ⟨rfl, rfl⟩ := Table.find?_singleton hb
      rfl
    · exact checkAll_traced body hin hbody
        fun k path y => by simpa [surveyAt?] using ho (0 :: k :: path) y
  | cond n e yes none, Γ, slot, D, here, own, outside, hsee, hd, ho => by
    simp only [check, diagnostics, List.append_eq_nil_iff] at hd
    have hin := hsee.enter_block 0 Γ.opens_push hsee.aligned.push rfl (by simp) hd.2
    rw [Table.mapValues_nil, List.append_nil] at hin
    refine List.forall_mem_append.2 ⟨?_, ?_⟩
    · exact hsee.traced_expr (origin_here ho) hd.1.2
    · exact checkAll_traced yes hin hd.2
        fun k path y => by simpa [surveyAt?] using ho (0 :: k :: path) y
  | cond n e yes (some no), Γ, slot, D, here, own, outside, hsee, hd, ho => by
    simp only [check, diagnostics, List.append_eq_nil_iff] at hd
    -- the other branch is checked from the scopes that lie around this one
    have hback := (checkBlock_grows Γ.push yes).pop
    have hno := hsee.of_eq hback.1 hback.2.1
    have hinYes := hsee.enter_block 0 Γ.opens_push hsee.aligned.push rfl (by simp) hd.1.2
    have hinNo := hno.enter_block 1 (opens_push _) hno.aligned.push rfl (by simp) hd.2
    rw [Table.mapValues_nil, List.append_nil] at hinYes hinNo
    refine List.forall_mem_append.2 ⟨List.forall_mem_append.2 ⟨?_, ?_⟩, ?_⟩
    · exact hsee.traced_expr (origin_here ho) hd.1.1.2
    · exact checkAll_traced yes hinYes hd.1.2
        fun k path y => by simpa [surveyAt?] using ho (0 :: k :: path) y
    · exact checkAll_traced no hinNo hd.2
        fun k path y => by simpa [surveyAt?] using ho (1 :: k :: path) y
  | define n h body, Γ, slot, D, here, own, outside, hsee, hd, ho => by
    simp only [check, diagnostics, Note.report, List.append_eq_nil_iff] at hd
    obtain ⟨⟨⟨-, ⟨-, hb⟩, -⟩, -⟩, hbody⟩ := hd
    have hopen := (Γ.opens_enter h.resultTy).bindAll n.span h.params
    have haligned := (hsee.aligned.enter h.resultTy).bindAll hb fun p => .parameter here p.name
    rw [← declarations_eq_foldl] at haligned
    have hbase := (bindAll_grows (Γ.enter h.resultTy) n.span h.params).base
    have hin := hsee.enter_function hopen haligned hbase
      (fun _ _ => Header.depth_declarations) hbody
    rw [Header.mapValues_declarations] at hin
    simp only [check, script, Script.uses, Script.usesOfAll_closing, Script.bindsOfAll_closing,
      Hoisted.params_header]
    exact checkAll_traced body hin hbody
      fun k path y => by simpa [surveyAt?] using ho (0 :: k :: path) y
  | ret _ none, _, _, _, _, _, _, _, _, _ | invalid _ _, _, _, _, _, _, _, _, _, _ => by
    simp [check, script, Script.uses]

theorem checkAll_traced {origin : Place → String → Option Declaration} :
    (ss : List Stmt) → ∀ {Γ : Context} {slots : List Hoisted} {block : Place} {i : Nat}
    {declarations : Table Declaration} {D : List (Table Declaration)} {table : Table Binding}
    {tables outside : List (Table Binding)},
    Framed block i ss Γ declarations D table tables outside →
    diagnosticsOfAll (checkAll Γ slots ss).1 = [] →
    (∀ k path x, origin (block ++ (i + k) :: path) x =
      (surveyAtAll? Γ slots (declarations :: D) block i ss (k :: path)).bind (·.resolve? x)) →
    ∀ u ∈ Script.usesOfAll block i (table :: tables) outside (scriptOfAll (checkAll Γ slots ss).1),
      u.Traced origin
  | [], _, _, _, _, _, _, _, _, _, _, _, _ => by simp [checkAll, scriptOfAll, Script.usesOfAll]
  | s :: ss, Γ, slots, block, i, declarations, D, table, tables, outside, hframe, hd, ho => by
    simp only [checkAll, diagnosticsOfAll, List.append_eq_nil_iff] at hd
    obtain ⟨declarations', hdecl, hnext⟩ := hframe.check hd.1
    simp only [checkAll, scriptOfAll, Script.usesOfAll]
    refine List.forall_mem_append.2 ⟨check_traced s hframe.sees hd.1 fun path x => ?_, ?_⟩
    · simpa [surveyAtAll?] using ho 0 path x
    · refine checkAll_traced ss hnext hd.2 fun k path x => ?_
      have := ho (k + 1) path x
      rw [← Nat.add_assoc, Nat.add_right_comm] at this
      rw [← hdecl]
      exact this

end

end Stmt

/-! ## Programs -/

/-- An assignment to the constant of a loop. -/
def JavaScript.Use.setsConstant (u : Use) : Bool :=
  match u.access, u.binding? with
  | .write, some (.declared (.loop _ _)) => true
  | _, _ => false

/-- An assignment to a constant is one to a loop variable already in the program, or it stands in
a function inside the loop, where it meant a global. -/
theorem JavaScript.Use.Traced.setsConstant {origin : Place → String → Option Declaration}
    {u : Use} (h : u.Traced origin) (hc : u.setsConstant = true) :
    (∃ place x, origin u.place u.name = some (.loop place x)) ∨
      Table.findIn? u.name u.own = none := by
  obtain ⟨b, inner, table, outer, hmeant, hscopes, htable, hiff, hdiverted⟩ := h
  unfold Use.setsConstant at hc
  split at hc
  · next place x haccess hbinding =>
    -- the constant is what checking found, or it diverts the use
    cases hinner : Table.findIn? u.name inner with
    | none =>
      have hb : b = .declared (.loop place x) :=
        Option.some.inj ((hiff.2 hinner).symm.trans hbinding)
      simp only [Use.meant?, haccess, hb, Option.map_eq_some_iff] at hmeant
      obtain ⟨d, hd, he⟩ := hmeant
      cases he
      exact .inl ⟨place, x, hd⟩
    | some b' =>
      have hb' : b' = .declared (.loop place x) := by
        rw [Use.binding?, hscopes, Table.findIn?_append, hinner, Option.some_or] at hbinding
        exact Option.some.inj hbinding
      subst hb'
      cases hdiverted _ hinner with
      | header hu => rw [haccess] at hu; cases hu
      | captured _ hown _ => exact .inr hown
      | shadowed hu => rw [haccess] at hu; cases hu
  · cases hc

namespace Program

theorem framed_main {ss : List Stmt}
    (hd : Stmt.diagnosticsOfAll (Stmt.checkBlock .empty ss).1 = []) :
    Framed [] 0 ss (hoist .empty ss).2 [] []
      (Script.bindsOfAll [] 0 (Stmt.scriptOfAll (Stmt.checkBlock .empty ss).1)) [] [] := by
  have h : Framed [] 0 ss (hoist .empty ss).2 [] [] (_ ++ Table.mapValues .declared []) [] [] :=
    Framed.start ⟨rfl, nofun⟩ empty_aligned .nil .nil rfl trivial rfl (by simp) hd
  rwa [Table.mapValues_nil, List.append_nil] at h

theorem check_traced {p : Program} (hd : p.check.diagnostics = []) :
    ∀ u ∈ p.check.uses, u.Traced p.origin? := by
  obtain ⟨body, span⟩ := p
  cases body with
  | expression e =>
    have hframe : Framed [] 0 [] .empty [] [] [] [] [] := framed_main rfl
    refine List.forall_mem_append.2 ⟨?_, by simp [Script.usesOfAll]⟩
    exact hframe.sees.traced_expr (fun _ => rfl) hd
  | statements ss =>
    refine Stmt.checkAll_traced ss (framed_main hd) hd fun k path x => ?_
    rw [Nat.zero_add]
    rfl

/-- Every name and call means in the script what checking resolved it to, and no assignment is
one to a constant. -/
def KeepsNames (p : Program) : Prop :=
  ∀ u ∈ p.check.uses, u.meant? p.origin? ≠ none ∧ u.binding? = u.meant? p.origin? ∧
    u.setsConstant = false

instance (p : Program) : Decidable p.KeepsNames :=
  inferInstanceAs (Decidable (∀ u ∈ p.check.uses, _))

/-- The text of a source without diagnostics is that of a script in which every use of a name has
what checking resolved it to among the bindings around it. It means that, unless a scope further
in binds the name. -/
theorem javaScript_names {source file : String}
    (hd : (parse source file).check.diagnostics = []) :
    let p := parse source file
    p.check.javaScript = prelude ++ render (Script.linesOfAll 0 p.check.script) ∧
      (p.check.functions.map (·.header.symbol)).Nodup ∧
      ∀ u ∈ p.check.uses, u.Traced p.origin? ∧
        (u.setsConstant → (∃ place x, p.origin? u.place u.name = some (.loop place x)) ∨
          Table.findIn? u.name u.own = none) := by
  refine ⟨?_, (List.nodup_cons.1 (check_symbols (parse_named source file) hd)).2, fun u hu => ?_⟩
  · rw [lines_script]
    rfl
  · have h := check_traced hd u hu
    exact ⟨h, h.setsConstant⟩

/-- A variable of a block is declared behind a use of the global that it hides. -/
theorem javaScript_names_late :
    let source := "var x = 1 function g(): int \x7b return x \x7d " ++
      "for (i in [x]) \x7b print(g() + x) var x = i \x7d"
    let p := parse source "late.cat"
    p.check.diagnostics = [] ∧
      (p.check.uses.map fun u => (u.name, u.binding? == u.meant? p.origin?)) =
        [("x", true), ("x", true), ("g", true), ("x", false), ("i", true)] ∧
      p.check.javaScript = prelude ++ render (Script.linesOfAll 0 p.check.script) ∧
      (p.check.functions.map (·.header.symbol)).Nodup ∧
      ∀ u ∈ p.check.uses, u.Traced p.origin? ∧
        (u.setsConstant → (∃ place x, p.origin? u.place u.name = some (.loop place x)) ∨
          Table.findIn? u.name u.own = none) := by
  intro source p
  have hd : p.check.diagnostics = [] := by decide +kernel
  exact ⟨hd, by decide +kernel, javaScript_names hd⟩

/-- A function inside another one takes the other's variable for the global of its name, and the
variable of a loop is assigned. -/
theorem keepsNames_fails_captured :
    let captured := "var x = 1\nfunction f() \x7b\n    var x = 2\n    function g() \x7b\n" ++
      "        print(x)\n    \x7d\n    g()\n\x7d\nf()"
    let assigned := "for (i in [1]) \x7b\n    i = 2\n    print(i)\n\x7d"
    (parse captured "captured.cat").check.diagnostics = [] ∧
      ¬ (parse captured "captured.cat").KeepsNames ∧
      (parse assigned "assigned.cat").check.diagnostics = [] ∧
      ¬ (parse assigned "assigned.cat").KeepsNames := by
  intro captured assigned
  decide +kernel

end Program

end CatScript
