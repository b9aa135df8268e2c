import CatScript.Proofs.Typing.Origins

/-!
# Sited programs

What it means for a checked tree that its names have the right origins, said without the
checker's contexts. A place sees the declarations of its own function from the inside out and
then those of the globals. Inside a function these are the globals declared in front of it.

`Sited` says that each name used in a statement has the origin that the declarations in sight
give it. It also says what is needed to tell globals from other variables: a function sees none
but the globals `G` of the program, and a `var` statement declares one of them exactly if it
stands in the main block.

Results:
* `Program.check_sited`: a program without diagnostics is sited.
-/
namespace CatScript

open Typing Context

theorem Table.find?_append {α : Type} (a b : Table α) (x : String) :
    Table.find? (a ++ b) x = (a.find? x).or (b.find? x) := by
  induction a with
  | nil => simp
  | cons entry a ih =>
    obtain ⟨k, v⟩ := entry
    by_cases hk : k = x <;> simp [Table.find?, hk, ih]

/-! ## Names that are used -/

namespace Expr

mutual

/-- The names that are looked up by an expression. -/
def names : Expr → List String
  | int _ _ | str _ _ | bool _ _ | null _ => []
  | var _ x => [x]
  | unary _ _ e | paren _ e => e.names
  | binary _ _ l r => l.names ++ r.names
  | list _ es | call _ _ es _ => namesOfAll es

def namesOfAll : List Expr → List String
  | [] => []
  | e :: es => e.names ++ namesOfAll es

end

mutual

/-- A name used without a diagnostic has a type. -/
theorem typeOf?_of_mem_names {Γ : Context} : (e : Expr) → (e.check Γ).diagnostics = [] →
    ∀ x ∈ (e.check Γ).names, ∃ t, Γ.typeOf? x = some t
  | int _ _, _ | str _ _, _ | bool _ _, _ | null _, _ => by simp [check, names]
  | var n y, hd => by
    simp only [check] at hd ⊢
    cases ht : Γ.typeOf? y with
    | none => simp [ht, diagnostics, Note.typed] at hd
    | some t =>
      intro x hx
      rw [List.mem_singleton.1 hx]
      exact ⟨t, ht⟩
  | unary n op e, hd => by
    simp only [check, diagnostics, List.append_eq_nil_iff] at hd
    exact typeOf?_of_mem_names e hd.2
  | binary n op l r, hd => by
    simp only [check, diagnostics, List.append_eq_nil_iff] at hd
    intro x hx
    rcases List.mem_append.1 hx with hx | hx
    · exact typeOf?_of_mem_names l hd.1.2 x hx
    · exact typeOf?_of_mem_names r hd.2 x hx
  | paren n e, hd => by
    simp only [check, diagnostics, List.append_eq_nil_iff] at hd
    exact typeOf?_of_mem_names e hd.2
  | list n es, hd => by
    simp only [check, diagnostics, List.append_eq_nil_iff] at hd
    exact typeOf?_of_mem_namesOfAll es hd.2
  | call n f es symbol, hd => by
    simp only [check] at hd ⊢
    split at hd
    · simp [diagnostics, Note.typed] at hd
    · simp only [diagnostics, List.append_eq_nil_iff] at hd
      exact typeOf?_of_mem_namesOfAll es hd.2

theorem typeOf?_of_mem_namesOfAll {Γ : Context} : (es : List Expr) →
    diagnosticsOfAll (checkAll Γ es) = [] →
    ∀ x ∈ namesOfAll (checkAll Γ es), ∃ t, Γ.typeOf? x = some t
  | [], _ => by simp [checkAll, namesOfAll]
  | e :: es, hd => by
    simp only [checkAll, diagnosticsOfAll, List.append_eq_nil_iff] at hd
    intro x hx
    rcases List.mem_append.1 hx with hx | hx
    · exact typeOf?_of_mem_names e hd.1 x hx
    · exact typeOf?_of_mem_namesOfAll es hd.2 x hx

end

end Expr

/-! ## Sited trees -/

/-- The outermost of the scopes has only declarations of `G`. -/
def Below (G : Table Declaration) (D : List (Table Declaration)) : Prop :=
  ∀ scope ∈ D.getLast?, ∀ x d, scope.find? x = some d → G.find? x = some d

/-- The names have the origins that the declarations in sight give them. -/
def Settled (origin : Place → String → Option Declaration) (here : Place)
    (D : List (Table Declaration)) (names : List String) : Prop :=
  ∀ x ∈ names, ∃ d, origin here x = some d ∧ Table.findIn? x D = some d

/-- A variable declared here is one of the globals, or stands inside a block. -/
def Anchored (G : Table Declaration) (here : Place) (D : List (Table Declaration)) (x : String) :
    Prop :=
  if D.length = 1 then G.find? x = some (.variable here x) else here.length ≠ 1

namespace Stmt

mutual

/-- A statement in a program with global variables `G`, which sees the declarations `D`. -/
def Sited (origin : Place → String → Option Declaration) (G : Table Declaration) (here : Place)
    (D : List (Table Declaration)) : Stmt → Prop
  | print _ e | call _ e | ret _ (some e) => Settled origin here D e.names
  | forEach _ x e body =>
    Settled origin here D e.names ∧
      SitedAll origin G (here ++ [0]) 0 ([(x, .loop here x)] :: D) body
  | cond _ e yes none =>
    Settled origin here D e.names ∧ SitedAll origin G (here ++ [0]) 0 ([] :: D) yes
  | cond _ e yes (some no) =>
    Settled origin here D e.names ∧ SitedAll origin G (here ++ [0]) 0 ([] :: D) yes ∧
      SitedAll origin G (here ++ [1]) 0 ([] :: D) no
  | declare _ x _ e => Settled origin here D e.names ∧ Anchored G here D x
  | assign _ x e => Settled origin here D (x :: e.names)
  | define _ h body =>
    Below G D ∧
      SitedAll origin G (here ++ [0]) 0 (h.declarations here :: D.getLast?.toList) body
  | ret _ none | invalid _ _ => True

def SitedAll (origin : Place → String → Option Declaration) (G : Table Declaration)
    (block : Place) (i : Nat) (D : List (Table Declaration)) : List Stmt → Prop
  | [] => True
  | s :: ss =>
    s.Sited origin G (block ++ [i]) D ∧
      SitedAll origin G block (i + 1) (s.declared (block ++ [i]) D) ss

end

theorem declared_of_ne_declare {s : Stmt} (hs : ∀ n x t e, s ≠ declare n x t e) (here : Place)
    (D : List (Table Declaration)) : s.declared here D = D := by
  cases s with
  | declare n x t e => exact absurd rfl (hs n x t e)
  | _ => rfl

theorem declared_check (Γ : Context) (slot : Hoisted) (here : Place) (D : List (Table Declaration))
    (s : Stmt) : (s.check Γ slot).1.declared here D = s.declared here D := by
  cases s with
  | cond n e yes no => cases no <;> rfl
  | ret n e => cases e <;> rfl
  | _ => rfl

theorem bind_of_declare {Γ : Context} {slot : Hoisted} {n : Note} {x : String}
    {t : Option TypeName} {e : Expr} (hd : ((declare n x t e).check Γ slot).1.diagnostics = []) :
    (Typing.bind Γ x (declareTyping t (e.check Γ)).1 n.span).1 = [] := by
  cases t <;> simp_all [check, diagnostics, Note.report]

theorem length_declared (here : Place) (D : List (Table Declaration)) (s : Stmt) :
    (s.declared here D).length = D.length := by
  cases s with
  | declare n x t e => cases D <;> rfl
  | _ => rfl

end Stmt

namespace Below

variable {G : Table Declaration} {D : List (Table Declaration)}

theorem cons (h : Below G D) (hD : D ≠ []) (scope : Table Declaration) : Below G (scope :: D) := by
  obtain ⟨next, rest, rfl⟩ := List.exists_cons_of_ne_nil hD
  unfold Below
  rw [List.getLast?_cons_cons]
  exact h

/-- Inside a function only its own scope and the global one are in sight. -/
theorem enter (h : Below G D) (scope : Table Declaration) (hD : D ≠ []) :
    Below G (scope :: D.getLast?.toList) := by
  refine cons (fun g hg => h g ?_) ?_ scope
  · cases hl : D.getLast? <;> simp_all
  · simp [hD]

/-- A declaration in a nested block. -/
theorem declared (h : Below G D) (hl : 1 < D.length) (here : Place) (s : Stmt) :
    Below G (s.declared here D) := by
  cases s with
  | declare n x t e =>
    match D, hl with
    | scope :: next :: rest, _ =>
      simp only [Below, Stmt.declared, Table.insertIn, List.getLast?_cons_cons] at h ⊢
      exact h
  | _ => exact h

end Below

namespace Typing.Context

variable {Γ : Context} {D : List (Table Declaration)}

theorem Aligned.declarations_ne_nil (h : Γ.Aligned D) : D ≠ [] := by
  obtain ⟨_, _, rfl, -⟩ := h.update (Δ := Γ) rfl rfl
  exact List.cons_ne_nil _ _

theorem Aligned.settled (h : Γ.Aligned D) {origin : Place → String → Option Declaration}
    {here : Place} (ho : ∀ x, origin here x = Survey.resolve? ⟨Γ, D⟩ x) {names : List String}
    (hn : ∀ x ∈ names, ∃ t, Γ.typeOf? x = some t) : Settled origin here D names := by
  intro x hx
  obtain ⟨t, ht⟩ := hn x hx
  rw [ho x]
  exact declarationIn?_of_typeIn? h.marks ht

/-- The statement behind a checked one. -/
theorem Aligned.check (h : Γ.Aligned D) {slot : Hoisted} {s : Stmt}
    (hd : (s.check Γ slot).1.diagnostics = []) (here : Place) :
    (s.check Γ slot).2.Aligned (s.declared here D) := by
  by_cases hs : ∃ n x t e, s = .declare n x t e
  · obtain ⟨n, x, t, e, rfl⟩ := hs
    obtain ⟨declarations, rest, rfl⟩ := List.exists_cons_of_ne_nil h.declarations_ne_nil
    exact (h.bind (Stmt.bind_of_declare hd)).2 _
  · have hs : ∀ n x t e, s ≠ .declare n x t e := fun n x t e he => hs ⟨n, x, t, e, he⟩
    rw [Stmt.declared_of_ne_declare hs]
    exact h.of_eq (Stmt.check_scopes Γ slot s hs) (Stmt.check_grows Γ slot s).base

end Typing.Context

/-! ## Checked statements -/

namespace Stmt

variable {origin : Place → String → Option Declaration} {G : Table Declaration}

theorem surveyAt?_nil (Γ : Context) (D : List (Table Declaration)) (here : Place) (s : Stmt) :
    s.surveyAt? Γ D here [] = some ⟨Γ, D⟩ := by
  cases s <;> rfl

theorem origin_here {Γ : Context} {D : List (Table Declaration)} {here : Place} {s : Stmt}
    (ho : ∀ path x, origin (here ++ path) x = (s.surveyAt? Γ D here path).bind (·.resolve? x))
    (x : String) : origin here x = Survey.resolve? ⟨Γ, D⟩ x := by
  have h := ho [] x
  rwa [surveyAt?_nil, List.append_nil] at h

theorem declarations_eq_foldl (h : Header) (place : Place) :
    h.declarations place =
      h.params.foldl
        (fun (t : Table Declaration) p => t.insert p.name (.parameter place p.name)) [] := by
  simp only [Header.declarations, Table.ofList, List.foldl_map]

theorem declarations_header (slot : Hoisted) (h : Header) (place : Place) :
    (slot.header h).declarations place = h.declarations place := by
  simp only [Header.declarations, Hoisted.params_header]

theorem length_nested {D : List (Table Declaration)} (hD : D ≠ []) (scope : Table Declaration) :
    1 < (scope :: D).length := by
  have := List.length_pos_iff.2 hD
  simp only [List.length_cons]
  omega

mutual

theorem check_sited {origin : Place → String → Option Declaration} {G : Table Declaration} :
    (s : Stmt) → ∀ {Γ : Context} {slot : Hoisted} {D : List (Table Declaration)} {here : Place},
    Γ.Aligned D → Below G D → (s.check Γ slot).1.diagnostics = [] →
    (∀ path x, origin (here ++ path) x = (s.surveyAt? Γ D here path).bind (·.resolve? x)) →
    (∀ n x t e, s = declare n x t e → Anchored G here D x) →
    (s.check Γ slot).1.Sited origin G here D
  | print n e, Γ, slot, D, here, ha, hG, hd, ho, _
  | call n e, Γ, slot, D, here, ha, hG, hd, ho, _ => by
    simp only [check, diagnostics, List.append_eq_nil_iff] at hd
    exact ha.settled (origin_here ho) (Expr.typeOf?_of_mem_names e hd.2)
  | forEach n x e body, Γ, slot, D, here, ha, hG, hd, ho, _ => by
    simp only [check, diagnostics, Note.report, List.append_eq_nil_iff] at hd
    obtain ⟨⟨⟨-, -, hb⟩, he⟩, hbody⟩ := hd
    have hD := ha.declarations_ne_nil
    have hin := ((ha.push.bind hb).2 (.loop here x)).hoist body
    refine ⟨ha.settled (origin_here ho) (Expr.typeOf?_of_mem_names e he), ?_⟩
    exact checkAll_sited body hin (hG.cons hD _) (length_nested hD _) (by simp) hbody
      fun k path y => by simpa [surveyAt?] using ho (0 :: k :: path) y
  | cond n e yes none, Γ, slot, D, here, ha, hG, hd, ho, _ => by
    simp only [check, diagnostics, List.append_eq_nil_iff] at hd
    have hD := ha.declarations_ne_nil
    refine ⟨ha.settled (origin_here ho) (Expr.typeOf?_of_mem_names e hd.1.2), ?_⟩
    exact checkAll_sited yes (ha.push.hoist yes) (hG.cons hD _) (length_nested hD _) (by simp) hd.2
      fun k path y => by simpa [surveyAt?] using ho (0 :: k :: path) y
  | cond n e yes (some no), Γ, slot, D, here, ha, hG, hd, ho, _ => by
    simp only [check, diagnostics, List.append_eq_nil_iff] at hd
    have hD := ha.declarations_ne_nil
    -- the other branch is checked from the scopes that lie around this one
    have hback := (checkBlock_grows Γ.push yes).pop
    have hno := (ha.of_eq hback.1 hback.2.1).push.hoist no
    refine ⟨ha.settled (origin_here ho) (Expr.typeOf?_of_mem_names e hd.1.1.2), ?_, ?_⟩
    · exact checkAll_sited yes (ha.push.hoist yes) (hG.cons hD _) (length_nested hD _) (by simp)
        hd.1.2 fun k path y => by simpa [surveyAt?] using ho (0 :: k :: path) y
    · exact checkAll_sited no hno (hG.cons hD _) (length_nested hD _) (by simp) hd.2
        fun k path y => by simpa [surveyAt?] using ho (1 :: k :: path) y
  | declare n x t e, Γ, slot, D, here, ha, hG, hd, ho, hx => by
    have he : (e.check Γ).diagnostics = [] := by
      cases t <;> simp_all [check, diagnostics]
    exact ⟨ha.settled (origin_here ho) (Expr.typeOf?_of_mem_names e he), hx n x t e rfl⟩
  | assign n x e, Γ, slot, D, here, ha, hG, hd, ho, _ => by
    simp only [check, diagnostics, Note.report, List.append_eq_nil_iff, assignErrors] at hd
    refine ha.settled (origin_here ho) fun y hy => ?_
    rcases List.mem_cons.1 hy with rfl | hy
    · cases ht : Γ.typeOf? y with
      | none => simp [ht] at hd
      | some t => exact ⟨t, rfl⟩
    · exact Expr.typeOf?_of_mem_names e hd.2 y hy
  | define n h body, Γ, slot, D, here, ha, hG, hd, ho, _ => by
    simp only [check, diagnostics, Note.report, List.append_eq_nil_iff] at hd
    obtain ⟨⟨⟨-, ⟨-, hb⟩, -⟩, -⟩, hbody⟩ := hd
    have hD := ha.declarations_ne_nil
    have hin := ((ha.enter h.resultTy).bindAll hb fun p => .parameter here p.name).hoist body
    rw [← declarations_eq_foldl] at hin
    refine ⟨hG, ?_⟩
    rw [declarations_header]
    exact checkAll_sited body hin (hG.enter _ hD) (length_nested (by simp [hD]) _) (by simp) hbody
      fun k path y => by simpa [surveyAt?] using ho (0 :: k :: path) y
  | ret _ none, _, _, _, _, _, _, _, _, _ | invalid _ _, _, _, _, _, _, _, _, _, _ => trivial
  | ret n (some e), Γ, slot, D, here, ha, hG, hd, ho, _ => by
    simp only [check, diagnostics, List.append_eq_nil_iff] at hd
    exact ha.settled (origin_here ho) (Expr.typeOf?_of_mem_names e hd.2)

theorem checkAll_sited {origin : Place → String → Option Declaration} {G : Table Declaration} :
    (ss : List Stmt) → ∀ {Γ : Context} {slots : List Hoisted} {D : List (Table Declaration)}
    {block : Place} {i : Nat}, Γ.Aligned D → Below G D → 1 < D.length → block ≠ [] →
    diagnosticsOfAll (checkAll Γ slots ss).1 = [] →
    (∀ k path x, origin (block ++ (i + k) :: path) x =
      (surveyAtAll? Γ slots D block i ss (k :: path)).bind (·.resolve? x)) →
    SitedAll origin G block i D (checkAll Γ slots ss).1
  | [], _, _, _, _, _, _, _, _, _, _, _ => trivial
  | s :: ss, Γ, slots, D, block, i, ha, hG, hl, hb, hd, ho => by
    simp only [checkAll, diagnosticsOfAll, List.append_eq_nil_iff] at hd
    have hx : ∀ x, Anchored G (block ++ [i]) D x := by
      intro x
      rw [Anchored, if_neg (by omega)]
      simpa using hb
    refine ⟨check_sited s ha hG hd.1 (fun path x => ?_) fun _ x _ _ _ => hx x, ?_⟩
    · simpa [surveyAtAll?] using ho 0 path x
    · rw [declared_check]
      refine checkAll_sited ss (ha.check hd.1 _) (hG.declared hl _ s) ?_ hb hd.2 fun k path x => ?_
      · rw [length_declared]
        exact hl
      · have := ho (k + 1) path x
        rw [← Nat.add_assoc, Nat.add_right_comm] at this
        exact this

end

/-! ## The main block -/

/-- The variables declared directly in the main block, of which the first statement has the
number `i`. -/
def globalsFrom (i : Nat) : List Stmt → Table Declaration
  | [] => []
  | declare _ x _ _ :: ss => (x, .variable [i] x) :: globalsFrom (i + 1) ss
  | _ :: ss => globalsFrom (i + 1) ss

theorem globalsFrom_of_ne_declare {s : Stmt} (hs : ∀ n x t e, s ≠ declare n x t e) (i : Nat)
    (ss : List Stmt) : globalsFrom i (s :: ss) = globalsFrom (i + 1) ss := by
  cases s with
  | declare n x t e => exact absurd rfl (hs n x t e)
  | _ => rfl

theorem find?_globalsFrom {i : Nat} {ss : List Stmt} {x : String} {d : Declaration}
    (h : (globalsFrom i ss).find? x = some d) :
    ∃ k n t e, d = .variable [i + k] x ∧ ss[k]? = some (declare n x t e) := by
  induction ss generalizing i with
  | nil => cases h
  | cons s ss ih =>
    have hrest : (globalsFrom (i + 1) ss).find? x = some d →
        ∃ k n t e, d = .variable [i + k] x ∧ (s :: ss)[k]? = some (declare n x t e) := by
      intro h
      obtain ⟨k, n, t, e, hd, hk⟩ := ih h
      exact ⟨k + 1, n, t, e, by rw [hd, Nat.add_right_comm, Nat.add_assoc], hk⟩
    by_cases hs : ∃ n y t e, s = declare n y t e
    · obtain ⟨n, y, t, e, rfl⟩ := hs
      simp only [globalsFrom, Table.find?] at h
      split at h
      · next hy =>
        cases h
        subst hy
        exact ⟨0, n, t, e, rfl, rfl⟩
      · exact hrest h
    · rw [globalsFrom_of_ne_declare fun n y t e he => hs ⟨n, y, t, e, he⟩] at h
      exact hrest h

/-- A statement of the main block adds its variable to the globals declared so far. -/
theorem declared_main {s : Stmt} {ss : List Stmt} {Γ : Context} {slot : Hoisted}
    {g : Table Declaration} {i : Nat} (ha : Γ.Aligned [g]) (hg : g ++ globalsFrom i (s :: ss) = G)
    (hd : (s.check Γ slot).1.diagnostics = []) :
    (∀ n x t e, s = declare n x t e → Anchored G [i] [g] x) ∧
      ∃ g', s.declared [i] [g] = [g'] ∧ g' ++ globalsFrom (i + 1) ss = G := by
  by_cases hs : ∃ n x t e, s = declare n x t e
  · obtain ⟨n, x, t, e, rfl⟩ := hs
    have hfree : g.find? x = none := (ha.bind (bind_of_declare hd)).1
    have hg' : (g ++ [(x, .variable [i] x)]) ++ globalsFrom (i + 1) ss = G := by
      rw [← hg, List.append_assoc]
      rfl
    refine ⟨fun _ y _ _ he => ?_, _, ?_, hg'⟩
    · cases he
      show G.find? x = some (.variable [i] x)
      rw [← hg', List.append_assoc, Table.find?_append, hfree]
      simp [Table.find?]
    · simp only [declared, Table.insertIn, Table.insert_of_find?_none hfree]
  · have hs : ∀ n x t e, s ≠ declare n x t e := fun n x t e he => hs ⟨n, x, t, e, he⟩
    rw [globalsFrom_of_ne_declare hs] at hg
    exact ⟨fun n x t e he => absurd he (hs n x t e), g, declared_of_ne_declare hs _ _, hg⟩

/-- In the main block the declarations in sight are the globals declared so far. -/
theorem checkAll_sited_main {ss : List Stmt} {Γ : Context} {slots : List Hoisted}
    {g : Table Declaration} {i : Nat} (ha : Γ.Aligned [g]) (hg : g ++ globalsFrom i ss = G)
    (hd : diagnosticsOfAll (checkAll Γ slots ss).1 = [])
    (ho : ∀ k path x, origin ((i + k) :: path) x =
      (surveyAtAll? Γ slots [g] [] i ss (k :: path)).bind (·.resolve? x)) :
    SitedAll origin G [] i [g] (checkAll Γ slots ss).1 := by
  induction ss generalizing Γ slots g i with
  | nil => trivial
  | cons s ss ih =>
    simp only [checkAll, diagnosticsOfAll, List.append_eq_nil_iff] at hd
    have hG : Below G [g] := by
      intro scope hs x d hx
      have hx : g.find? x = some d := by
        cases hs
        exact hx
      rw [← hg, Table.find?_append, hx]
      rfl
    obtain ⟨hx, g', hs, hg'⟩ := declared_main ha hg hd.1
    have hnext := ha.check hd.1 [i]
    refine ⟨check_sited s ha hG hd.1 (fun path x => ho 0 path x) hx, ?_⟩
    rw [declared_check]
    show SitedAll origin G [] (i + 1) (s.declared [i] [g]) _
    rw [hs] at hnext ⊢
    refine ih hnext hg' hd.2 fun k path x => ?_
    have := ho (k + 1) path x
    rw [← Nat.add_assoc, Nat.add_right_comm] at this
    rw [← hs]
    exact this

end Stmt

namespace Program

/-- The variables declared in the main block. -/
def globalDeclarations (p : Program) : Table Declaration := Stmt.globalsFrom 0 p.statements

/-- Without diagnostics each name used in a program has the origin that the declarations around
it give. -/
theorem check_sited {p : Program} (hd : p.check.diagnostics = []) :
    match p.check.body with
    | .expression e => Settled p.origin? [] [[]] e.names
    | .statements ss => Stmt.SitedAll p.origin? p.globalDeclarations [] 0 [[]] ss := by
  obtain ⟨body, span⟩ := p
  cases body with
  | expression e =>
    exact empty_aligned.settled (fun _ => rfl) (Expr.typeOf?_of_mem_names e hd)
  | statements ss =>
    refine Stmt.checkAll_sited_main (empty_aligned.hoist ss) rfl hd fun k path x => ?_
    rw [Nat.zero_add]
    rfl

end Program

end CatScript
