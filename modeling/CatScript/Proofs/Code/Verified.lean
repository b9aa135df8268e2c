import CatScript.Proofs.Code.Between
import CatScript.Proofs.Typing.Checked

/-!
# Lowered code is verified

The code of a statement leads from the point before it to the point behind it, unless the
statement always returns: then nothing leads behind it (`Stmt.lower_chart`). So the last
instruction of a method with a result is never reached, and every method has a chart
(`Program.certified`).
-/
namespace CatScript

open Typing Code StackMachine

/-! ## Loops -/

namespace Code

variable {R : Rules} {result : Ty} {H : Chart → Prop} {n : Nat} {L : Layout} {its : List Nat}

/-- The point at the head of a loop, whose iterator has the next slot. -/
def Layout.head (L : Layout) (its : List Nat) : Point := L.point (L.nextSlot :: its)

/-- The iterator comes into a slot of its own. -/
theorem iterator_charts (hp : L.Placed) (ha : L.Apart its) :
    Charts R.world result H n [.getIterator, .storeLocal L.nextSlot]
      [some ((L.point its).having [.reference]),
        some { L.point its with stack := [.reference], fact := .iterator }]
      (some ((L.point its).having [.reference])) (some (L.head its)) := by
  have hget : Charts R.world result H n [.getIterator] [some ((L.point its).having [.reference])]
      (some ((L.point its).having [.reference]))
      (some { L.point its with stack := [.reference], fact := .iterator }) :=
    .plain fun _ _ h => ⟨[], rfl, h⟩
  have hput : Charts R.world result H (n + 1) [.storeLocal L.nextSlot]
      [some { L.point its with stack := [.reference], fact := .iterator }]
      (some { L.point its with stack := [.reference], fact := .iterator })
      (some (Point.stored { L.point its with stack := [.reference], fact := .iterator }
        L.nextSlot .reference [])) :=
    .plain fun _ _ h => ⟨.reference, [], rfl, h⟩
  refine hget.append (hput.weaken ⟨rfl, fun b hb => ?_, fun m hm => ?_, .inl rfl⟩)
  · refine List.mem_cons_of_mem _ (List.mem_filter.2 ⟨hb, decide_eq_true fun he => ?_⟩)
    have hlt := hp.bound b.1 (L.slots_eq ▸ List.mem_map.2 ⟨b, hb, rfl⟩)
    omega
  · rcases List.mem_cons.1 hm with rfl | hm
    · exact List.mem_append_left _ (List.mem_singleton.2 rfl)
    · refine List.mem_append_right _ (List.mem_filter.2 ⟨hm, decide_eq_true fun he => ?_⟩)
      have hlt := (ha m hm).1
      omega

/-- The points from the head of a loop, where `P` is known, to the item that comes next. -/
def headPoints (P : Point) (it : Nat) : List (Option Point) :=
  [some P, some { P with stack := [.reference], fact := .top it },
    some { P with stack := [.native], fact := .more it },
    some { P with fact := .ready it },
    some { P with stack := [.reference], fact := .full }]

theorem marked_head {P : Point} (hP : P.stack = []) (it : Nat) :
    Marked (headPoints P it) (Mark.within [[], [.reference], [.native], [], [.reference]]) :=
  (marked_single hP).append ((marked_single rfl).append ((marked_single rfl).append
    ((marked_single hP).append (marked_single rfl))))

/-- From the head of a loop to its next item, as long as there is one. -/
theorem head_charts {stop : Nat} {P : Point} (hP : P.stack = []) (hfact : P.fact = .nothing)
    {it : Nat} (hit : it ∈ P.iterators)
    (hstop : ∀ A : Chart, H A → A.Leads stop (some P)) :
    Charts R.world result H n
      [.loadLocal it, .hasNext, .jump .ifFalse stop, .loadLocal it, .next] (headPoints P it)
      (some P) (some (P.having [.reference])) := by
  obtain ⟨stack, slots, iterators, fact⟩ := P
  subst hP hfact
  refine Charts.cons (.plain fun _ _ h => .inr ⟨hit, h⟩) ?_
  refine Charts.cons (.plain fun _ _ h => ⟨it, [], rfl, rfl, h⟩) ?_
  refine Charts.cons
    (.single fun A hA hl => ⟨[], rfl, hstop A hA, hl⟩) ?_
  refine Charts.cons (.plain fun _ _ h => .inr ⟨hit, ?_⟩)
    (.plain fun _ _ h => ⟨[], rfl, rfl, h⟩)
  simp only [if_true]
  exact h

theorem Layout.Apart.loop (ha : L.Apart its) (hp : L.Placed) :
    L.allocate.2.push.Apart (L.nextSlot :: its) := by
  intro m hm
  rcases List.mem_cons.1 hm with rfl | hm
  · exact ⟨Nat.lt_succ_self _, fun h => Nat.lt_irrefl _ (hp.bound _ h)⟩
  · exact ⟨Nat.lt_succ_of_lt (ha m hm).1, (ha m hm).2⟩

theorem kind_of_element {s t : Ty} (h : s.element? = some t) : s.kind = .reference := by
  cases s with
  | int | bool => cases h
  | _ => rfl

/-- The jump behind a block, which is not reached if the block always returns. -/
theorem back_charts {target : Nat} {returns : Bool} {P P' : Point} {Q : Option Point}
    (hP : P.having [] = P) (hPP : P.Implies P')
    (ht : returns = false → ∀ A : Chart, H A → A.Leads target (some P')) :
    Charts R.world result H n [.jump .always target] [behind returns P] (behind returns P) Q := by
  cases returns with
  | true => exact .dead
  | false =>
    refine .single fun A hA _ => ?_
    show A.Leads target (some (P.having P.stack))
    have hst : P.stack = [] := by rw [← hP]; rfl
    rw [hst, hP]
    exact (ht rfl A hA).weaken hPP

theorem marked_behind {returns : Bool} {P : Point} (hP : P.stack = []) :
    Marked [behind returns P] [.edge] := by
  refine ⟨fun Q hQ => ?_, trivial⟩
  cases returns with
  | true => cases hQ
  | false =>
    cases hQ
    exact hP

/-- The code from the head of a loop to its body. -/
def loopHead (L : Layout) (stop : Nat) (x : String) (t : Ty) : List Instruction :=
  [.loadLocal L.nextSlot, .hasNext, .jump .ifFalse stop, .loadLocal L.nextSlot, .next] ++
    coercion .object t ++ [(L.allocate.2.push.declare x t).1.store]

theorem loopHead_charts (hp : L.Placed) (ha : L.Apart its) (x : String) (t : Ty) {stop : Nat}
    (hstop : ∀ A : Chart, H A → A.Leads stop (some (L.head its))) :
    ∃ points, points.head? = some (some (L.head its)) ∧
      Marked points (Mark.within [[], [.reference], [.native], [], [.reference]] ++
        Mark.within (coercionShapes .object t []) ++ Mark.within [[t.kind]]) ∧
      Charts R.world result H n (loopHead L stop x t) points (some (L.head its))
        (some ((L.loop x t).point (L.nextSlot :: its))) := by
  have hitem : Charts R.world result H n _ _ _ _ :=
    head_charts (P := L.head its) rfl rfl (List.mem_cons_self ..) hstop
  have hunbox : ∀ m, Shaped R.world result H (L.head its) m (coercion .object t) _ _ [t.kind] :=
    fun m => coercion_shaped .object t
  have hlength : L.allocate.2.push.scopes.length ≠ 1 := by
    have := List.length_pos_iff.2 hp.ne_nil
    simp only [Layout.push, Layout.allocate, List.length_cons]
    omega
  have hstore : ∀ m, Charts R.world result H m [(L.allocate.2.push.declare x t).1.store] _ _
      (some ((L.loop x t).point (L.nextSlot :: its))) :=
    fun m => declare_charts hp.allocate.push (ha.loop hp) fun h => absurd h hlength
  exact ⟨_, rfl, ((marked_head rfl _).append (marked_within _ _)).append (marked_single rfl),
    (hitem.append (hunbox _)).append (hstore _)⟩

/-- The part of a loop that is run again and again, from the chart of its body. -/
theorem rounds_charts {K : Layout} (hp : L.Placed) (ha : L.Apart its) {x : String} {t : Ty}
    {inner : List Instruction} {points : List (Option Point)} {returns : Bool} {top bodyAt stop : Nat}
    (hK : K.pop.scopes = L.scopes) (hbodyAt : bodyAt = top + (loopHead L stop x t).length)
    (hstop : stop = bodyAt + inner.length + 1)
    (hbody : Charts R.world result (fun _ => True) bodyAt inner points
      (some ((L.loop x t).point (L.nextSlot :: its)))
      (behind returns (K.point (L.nextSlot :: its)))) :
    ∃ headPoints, Marked headPoints (Mark.within [[], [.reference], [.native], [], [.reference]] ++
        Mark.within (coercionShapes .object t []) ++ Mark.within [[t.kind]]) ∧
      Charts R.world result (fun _ => True) top (loopHead L stop x t ++ inner ++ [.jump .always top])
        (headPoints ++ points ++ [behind returns (K.point (L.nextSlot :: its))])
        (some (L.head its)) (some (K.pop.point its)) := by
  have hhead : (K.point (L.nextSlot :: its)).Implies (L.head its) := by
    rw [Layout.head, ← Layout.point_of_scopes hK]
    exact K.point_implies_pop fun _ h => h
  have hleave : (L.head its).Implies (K.pop.point its) := by
    rw [Layout.point_of_scopes hK]
    exact ⟨rfl, fun _ h => h, fun _ h => List.mem_cons_of_mem _ h, .inl rfl⟩
  -- what the jumps rely on: the point at the head of the loop and the one behind the loop
  let H : Chart → Prop := fun A => A.Leads top (some (L.head its)) ∧ A.Leads stop (some (L.head its))
  obtain ⟨headPoints, hfirst, hmarked, hstart⟩ :
      ∃ headPoints, headPoints.head? = some (some (L.head its)) ∧ Marked headPoints _ ∧
        Charts R.world result H top (loopHead L stop x t) headPoints (some (L.head its)) _ :=
    loopHead_charts hp ha x t fun A hA => hA.2
  have hback : ∀ m, Charts R.world result H m [.jump .always top]
      [behind returns (K.point (L.nextSlot :: its))] _ (some (K.pop.point its)) :=
    fun m => back_charts rfl hhead fun _ A hA => hA.1
  refine ⟨headPoints, hmarked, Charts.close (H := H) ?_ fun A _ hf hl => ⟨?_, ?_⟩⟩
  · subst hbodyAt
    exact (hstart.append (hbody.close fun _ _ _ _ => trivial)).append (hback _)
  · cases headPoints with
    | nil => cases hfirst
    | cons P rest =>
      cases hfirst
      exact ⟨_, hf.1, .refl _⟩
  · have hend : top + (loopHead L stop x t ++ inner ++ [Instruction.jump .always top]).length = stop := by
      simp only [List.length_append, List.length_cons, List.length_nil]
      omega
    rw [hend] at hl
    exact hl.weaken hleave

/-- A loop, from the charts of its parts. -/
theorem loop_charted {K : Layout} (hp : L.Placed) (ha : L.Apart its) {x : String} {t : Ty}
    {source inner : List Instruction} {shapes : List (List Kind)} {marks : List Mark}
    {returns : Bool} {top bodyAt stop : Nat} (hK : K.pop.scopes = L.scopes)
    (hsource : Shaped R.world result (fun _ => True) (L.point its) n source shapes [] [.reference])
    (htop : top = n + (source ++ [Instruction.getIterator, .storeLocal L.nextSlot]).length)
    (hbodyAt : bodyAt = top + (loopHead L stop x t).length)
    (hstop : stop = bodyAt + inner.length + 1)
    (hinner : Charted R result bodyAt inner marks
      (some ((L.loop x t).point (L.nextSlot :: its)))
      (behind returns (K.point (L.nextSlot :: its)))) :
    Charted R result n (source ++ [.getIterator, .storeLocal L.nextSlot] ++
        (loopHead L stop x t ++ inner ++ [.jump .always top]))
      (Mark.opening (shapes ++ [[.reference]]) ++ Mark.within [[.reference]] ++
        (Mark.within [[], [.reference], [.native], [], [.reference]] ++
          Mark.within (coercionShapes .object t []) ++ Mark.within [[t.kind]] ++ marks ++ [.edge]))
      (some (L.point its)) (some (K.pop.point its)) := by
  obtain ⟨points, hmarked, hbody⟩ := hinner
  obtain ⟨headPoints, hmarked', hrounds⟩ := rounds_charts hp ha hK hbodyAt hstop hbody
  have hinit : Charts R.world result (fun _ => True) n _ _ (some (L.point its)) (some (L.head its)) :=
    Charts.append hsource (iterator_charts hp ha)
  subst htop
  refine ⟨_, ?_, hinit.append hrounds⟩
  refine Marked.append ?_ ((hmarked'.append hmarked).append (marked_behind rfl))
  have h := (marked_opening (L.point its) (shapes ++ [[.reference]])).append
    (marked_single (P := { L.point its with stack := [.reference], fact := .iterator })
      (m := ⟨false, [.reference]⟩) rfl)
  rw [List.map_append, List.append_assoc] at h
  exact h

theorem add_length_branch (n : Nat) (test inner : List Instruction) (no stop : Nat) :
    n + (test ++ [Instruction.jump .ifFalse no] ++ inner ++
      [Instruction.jump .always stop]).length =
      n + test.length + 1 + inner.length + 1 := by
  simp only [List.length_append, List.length_cons, List.length_nil]
  omega

/-- A test and the block behind it, which end in a jump to `stop`. If the test fails, the code
goes on at `no`. -/
theorem branch_charts {K : Layout} {test inner : List Instruction} {shapes : List (List Kind)}
    {marks : List Mark} {returns : Bool} (no stop : Nat) (hK : K.pop.scopes = L.scopes)
    (htest : ∀ {H : Chart → Prop},
      Shaped R.world result H (L.point its) n test shapes [] [.native])
    (hinner : Charted R result (n + test.length + 1) inner marks (some (L.push.point its))
      (behind returns (K.point its))) :
    ∃ points, Marked points (Mark.opening (shapes ++ [[.native]]) ++ marks ++ [.edge]) ∧
      Charts R.world result
        (fun A => A.Leads no (some (L.point its)) ∧
          (returns = false → A.Leads stop (some (L.point its))))
        n (test ++ [.jump .ifFalse no] ++ inner ++ [.jump .always stop]) points
        (some (L.point its)) none := by
  obtain ⟨points, hmarked, hbody⟩ := hinner
  have hleave : (K.point its).Implies (L.point its) := by
    rw [← Layout.point_of_scopes hK]
    exact K.point_implies_pop fun _ h => h
  let H : Chart → Prop := fun A => A.Leads no (some (L.point its)) ∧
    (returns = false → A.Leads stop (some (L.point its)))
  have hjump : ∀ m, Charts R.world result H m [.jump .ifFalse no]
      [some ((L.point its).having [.native])] _ (some (L.point its)) :=
    fun m => .single fun A hA hl => ⟨[], rfl, hA.1, hl⟩
  have hback : ∀ m, Charts R.world result H m [.jump .always stop]
      [behind returns (K.point its)] _ none :=
    fun m => back_charts rfl hleave fun hr A hA => hA.2 hr
  have hfront := Charts.append (htest (H := H)) (hjump _)
  have hlen : n + test.length + 1 = n + (test ++ [Instruction.jump .ifFalse no]).length := by
    simp only [List.length_append, List.length_cons, List.length_nil]
    omega
  rw [hlen] at hbody
  refine ⟨_, ?_, (hfront.append (hbody.close fun _ _ _ _ => trivial)).append (hback _)⟩
  have h := marked_opening (L.point its) (shapes ++ [[.native]])
  rw [List.map_append] at h
  exact (h.append hmarked).append (marked_behind rfl)

/-- A conditional without an `else`, from the chart of its block. -/
theorem cond_charted {K : Layout} {test inner : List Instruction} {shapes : List (List Kind)}
    {marks : List Mark} {returns : Bool} {stop : Nat} (hK : K.pop.scopes = L.scopes)
    (hstop : stop = n + test.length + 1 + inner.length + 1)
    (htest : ∀ {H : Chart → Prop},
      Shaped R.world result H (L.point its) n test shapes [] [.native])
    (hinner : Charted R result (n + test.length + 1) inner marks (some (L.push.point its))
      (behind returns (K.point its))) :
    Charted R result n (test ++ [.jump .ifFalse stop] ++ inner ++ [.jump .always stop])
      (Mark.opening (shapes ++ [[.native]]) ++ marks ++ [.edge]) (some (L.point its))
      (some (K.pop.point its)) := by
  obtain ⟨points, hmarked, hcode⟩ := branch_charts stop stop hK htest hinner
  refine ⟨points, hmarked, hcode.length, fun A _ hf hl => hcode.carries A ?_ hf trivial⟩
  -- both jumps go to the end, where nothing more is needed than what the layout in front knew
  rw [add_length_branch, ← hstop, Layout.point_of_scopes hK] at hl
  exact ⟨hl, fun _ => hl⟩

/-- A conditional with an `else`, from the charts of its blocks. Something is known behind it
unless both of them always return. -/
theorem cond_else_charted {K M : Layout} {test inner other : List Instruction}
    {shapes : List (List Kind)} {marks marks' : List Mark} {returns returns' : Bool} {no stop : Nat}
    (hK : K.pop.scopes = L.scopes) (hM : M.pop.scopes = L.scopes)
    (hno : no = n + test.length + 1 + inner.length + 1) (hstop : stop = no + other.length)
    (htest : ∀ {H : Chart → Prop},
      Shaped R.world result H (L.point its) n test shapes [] [.native])
    (hinner : Charted R result (n + test.length + 1) inner marks (some (L.push.point its))
      (behind returns (K.point its)))
    (hother : Charted R result no other marks' (some (K.pop.push.point its))
      (behind returns' (M.point its))) :
    Charted R result n (test ++ [.jump .ifFalse no] ++ inner ++ [.jump .always stop] ++ other)
      (Mark.opening (shapes ++ [[.native]]) ++ marks ++ [.edge] ++ marks') (some (L.point its))
      (behind (returns && returns') (M.pop.point its)) := by
  obtain ⟨points, hmarked, hcode⟩ := branch_charts no stop hK htest hinner
  obtain ⟨points', hmarked', hcode'⟩ := hother
  have hend : n + (test ++ [Instruction.jump .ifFalse no] ++ inner ++
      [Instruction.jump .always stop]).length = no := by
    rw [add_length_branch, hno]
  refine ⟨points ++ points', hmarked.append hmarked', ?_, fun A _ hf hl => ?_⟩
  · rw [List.length_append, hcode.length, hcode'.length, ← List.length_append]
  rw [List.length_append, ← Nat.add_assoc, hend, ← hstop] at hl
  obtain ⟨hf, hf'⟩ := Chart.fits_append.1 hf
  rw [hcode.length, hend] at hf'
  -- where one of the blocks does not return, something is known behind the statement
  have hbehind : (returns && returns') = false → A.Leads stop (some (M.pop.point its)) := by
    intro hr
    simpa only [hr, behind, if_false, Bool.false_eq_true] using hl
  have hleave : A.Leads (no + other.length) (behind returns' (M.point its)) := by
    rw [← hstop]
    cases returns' with
    | true => trivial
    | false => exact (hbehind (Bool.and_false _)).weaken (M.point_implies_pop fun _ h => h)
  obtain ⟨hother, hverified'⟩ := hcode'.carries A trivial hf' hleave
  rw [Layout.point_push, Layout.point_of_scopes hK] at hother
  have hjump : returns = false → A.Leads stop (some (L.point its)) := by
    intro hr
    rw [← Layout.point_of_scopes hM]
    exact hbehind (by rw [hr, Bool.false_and])
  obtain ⟨hstart, hverified⟩ := hcode.carries A ⟨hother, hjump⟩ hf trivial
  refine ⟨hstart, Chart.verified_append.2 ⟨hverified, ?_⟩⟩
  rw [hend]
  exact hverified'

end Code

/-! ## Statements -/

/-- Printing the value of an expression. -/
theorem Expr.print_charted {R : Rules} {result : Ty} {S : Scopes} {L : Layout} {n : Nat}
    {code : List Instruction} (its : List Nat) {e : Expr} (ht : e.Typed R S) (hS : S.Shared R)
    (hL : L.Sees R result S) (hp : L.Placed) (h : e.lower L n = .ok code) :
    Charted R result n (code ++ boxing e.ty ++ [.print])
      (Mark.opening (e.shapes R.functions [] ++ boxingShapes e.ty [] ++ [[.reference]]))
      (some (L.point its)) (some (L.point its)) :=
  have hval := e.lower_shaped (H := fun _ => True) hL hp (hS.layout hL) (L.known_point its) ht [] h
  .of_shapes (hval.append (boxing_shaped e.ty)) (.plain fun _ _ h => ⟨[], rfl, h⟩)

/-- The test of a conditional leaves a native value. -/
theorem Expr.test_shaped {R : Rules} {result : Ty} {S : Scopes} {L : Layout} {n : Nat}
    {test : List Instruction} (its : List Nat) {e : Expr} (ht : e.Typed R S) (hty : e.ty = .bool)
    (hS : S.Shared R) (hL : L.Sees R result S) (hp : L.Placed) (h : e.lower L n = .ok test)
    {H : Chart → Prop} :
    Shaped R.world result H (L.point its) n test (e.shapes R.functions []) [] [.native] := by
  have hval := e.lower_shaped (H := H) hL hp (hS.layout hL) (L.known_point its) ht [] h
  rw [hty] at hval
  exact hval

namespace Stmt

open Layout

/-- The code of a loop, which ends at `stop`. -/
theorem lower_forEach {L K : Layout} {n : Nat} {note : Note} {x : String} {e : Expr}
    {body : List Stmt} {ty : Ty} {part : List Instruction} (hty : e.ty.element? = some ty)
    (h : (forEach note x e body).lower L n = .ok (part, K)) :
    ∃ source inner K' stop, e.lower L n = .ok source ∧
      lowerAll (L.loop x ty) (n + source.length + 2 + (loopHead L stop x ty).length) body =
        .ok (inner, K') ∧ K = K'.pop ∧ stop = n + part.length ∧
      part = source ++ ([.getIterator, .storeLocal L.nextSlot] ++
        (loopHead L stop x ty ++ inner ++ [.jump .always (n + source.length + 2)])) := by
  simp only [lower, bind_eq_ok, hty, Option.getD_some] at h
  obtain ⟨source, hsource, ⟨inner, K'⟩, hinner, h⟩ := h
  cases h
  have htop : n + (source ++ [Instruction.getIterator, .storeLocal L.allocate.1]).length =
      n + source.length + 2 := by
    rw [List.length_append, ← Nat.add_assoc]
    rfl
  have hbodyAt : ∀ stop, n + source.length + 2 + 3 +
      ([Instruction.loadLocal L.allocate.1, .next] ++ coercion .object ty ++
        [(L.allocate.2.push.declare x ty).1.store]).length =
      n + source.length + 2 + (loopHead L stop x ty).length := by
    intro stop
    simp only [loopHead, List.length_append, List.length_cons, List.length_nil]
    omega
  rw [htop] at hinner ⊢
  refine ⟨source, inner, K', n + source.length + 2 + 3 +
    ([Instruction.loadLocal L.allocate.1, .next] ++ coercion .object ty ++
      [(L.allocate.2.push.declare x ty).1.store]).length + inner.length + 1,
    hsource, ?_, rfl, ?_, ?_⟩
  · rw [← hbodyAt]
    exact hinner
  · simp only [List.length_append, List.length_cons, List.length_nil]
    omega
  · simp only [loopHead, List.append_assoc, List.cons_append, List.nil_append]
    rfl

/-- The code of the statements of a block leads from the point before them to the point behind
them, with the intended stacks. -/
def BlockCharted (R : Rules) (result : Ty) (ss : List Stmt) : Prop :=
  ∀ {S : Scopes} {L K : Layout} {n : Nat} {code : List Instruction} {its : List Nat},
    TypedAll R result S ss → S.Shared R → L.Sees R result S → L.Placed → L.Apart its →
    lowerAll L n ss = .ok (code, K) →
      Charted R result n code (planAll R.functions result S ss) (some (L.point its))
        (behind (lastReturns ss) (K.point its))

section

variable {R : Rules} {result : Ty} {S : Scopes} {L K : Layout} {n : Nat}
  {code : List Instruction} {its : List Nat} {note : Note} {e : Expr} {body yes no : List Stmt}

theorem forEach_chart {x : String} (hbody : BlockCharted R result body)
    (ht : (forEach note x e body).Typed R result S) (hS : S.Shared R) (hL : L.Sees R result S)
    (hp : L.Placed) (ha : L.Apart its) (h : (forEach note x e body).lower L n = .ok (code, K)) :
    Charted R result n code ((forEach note x e body).plan R.functions result S)
      (some (L.point its)) (some (K.point its)) := by
  obtain ⟨he, t, hty, hbt⟩ := ht
  obtain ⟨source, inner, K', stop, hs, hi, rfl, hstop, rfl⟩ := lower_forEach hty h
  have hL' := hL.loop hp x t
  have hp' := hp.loop x t
  have hS' : Scopes.Shared ([(x, t)] :: S) R := hS.cons (hL.ne_nil hp) _
  have hK := ((loop_grows x t).trans (lowerAll_behind hbt hL' hp' hi).grows).scopes_pop
    hp.allocate.ne_nil
  have hinner := hbody hbt hS' hL' hp' ((ha.loop hp).grows (loop_grows x t)) hi
  have hsource := Expr.lower_shaped (H := fun _ => True) hL hp (hS.layout hL) (known_point L its)
    e he [] hs
  rw [kind_of_element hty] at hsource
  have htop : n + source.length + 2 =
      n + (source ++ [Instruction.getIterator, .storeLocal L.nextSlot]).length := by
    rw [List.length_append, ← Nat.add_assoc]
    rfl
  have hend : stop = n + source.length + 2 + (loopHead L stop x t).length + inner.length + 1 := by
    simp only [List.length_append, List.length_cons, List.length_nil] at hstop
    omega
  have hcode := loop_charted hp ha hK hsource htop rfl hend hinner
  simp only [plan, hty, Option.getD_some, List.append_assoc] at hcode ⊢
  exact hcode

theorem cond_chart (hyes : BlockCharted R result yes)
    (ht : (cond note e yes none).Typed R result S) (hS : S.Shared R) (hL : L.Sees R result S)
    (hp : L.Placed) (ha : L.Apart its) (h : (cond note e yes none).lower L n = .ok (code, K)) :
    Charted R result n code ((cond note e yes none).plan R.functions result S)
      (some (L.point its)) (some (K.point its)) := by
  obtain ⟨he, hty, hyt⟩ := ht
  simp only [lower, bind_eq_ok] at h
  obtain ⟨test, htest, ⟨inner, K'⟩, hi, hc⟩ := h
  cases hc
  have hK := (lowerAll_behind hyt hL.push hp.push hi).grows.scopes_pop hp.ne_nil
  have hinner := hyes hyt (hS.cons (hL.ne_nil hp) []) hL.push hp.push ha hi
  exact cond_charted hK rfl (Expr.test_shaped its he hty hS hL hp htest) hinner

theorem cond_else_chart (hyes : BlockCharted R result yes) (hno : BlockCharted R result no)
    (ht : (cond note e yes (some no)).Typed R result S) (hS : S.Shared R)
    (hL : L.Sees R result S) (hp : L.Placed) (ha : L.Apart its)
    (h : (cond note e yes (some no)).lower L n = .ok (code, K)) :
    Charted R result n code ((cond note e yes (some no)).plan R.functions result S)
      (some (L.point its)) (behind (lastReturns yes && lastReturns no) (K.point its)) := by
  obtain ⟨he, hty, hyt, hnt⟩ := ht
  simp only [lower, bind_eq_ok] at h
  obtain ⟨test, htest, ⟨inner, K₁⟩, hi, ⟨other, K₂⟩, ho, hc⟩ := h
  cases hc
  have hS' : Scopes.Shared ([] :: S) R := hS.cons (hL.ne_nil hp) []
  have hg := (lowerAll_behind hyt hL.push hp.push hi).grows
  obtain ⟨hL₁, hp₁, hg₁⟩ := hg.leave hL hp
  have hg₂ := (lowerAll_behind hnt hL₁.push hp₁.push ho).grows
  have hK := hg.scopes_pop hp.ne_nil
  have hinner := hyes hyt hS' hL.push hp.push ha hi
  have ha₁ : K₁.pop.Apart its := ha.grows hg₁
  have hother := hno hnt hS' hL₁.push hp₁.push ha₁ ho
  exact cond_else_charted hK ((hg₂.scopes_pop hp₁.ne_nil).trans hK) rfl rfl
    (Expr.test_shaped its he hty hS hL hp htest) hinner hother

end

mutual

/-- The code of a statement leads from the point before it to the point behind it, with the
intended stacks. -/
theorem lower_chart {R : Rules} {result : Ty} : (s : Stmt) → ∀ {S : Scopes} {L K : Layout}
    {n : Nat} {code : List Instruction} {its : List Nat}, s.Typed R result S → S.Shared R →
    L.Sees R result S → L.Placed → L.Apart its → s.lower L n = .ok (code, K) →
      Charted R result n code (s.plan R.functions result S) (some (L.point its))
        (behind s.returns (K.point its))
  | print m e, S, L, K, n, code, its, ht, hS, hL, hp, ha, h => by
    simp only [lower, bind_eq_ok] at h
    obtain ⟨value, hv, hc⟩ := h
    cases hc
    exact Expr.print_charted its ht hS hL hp hv
  | call m e, S, L, K, n, code, its, ht, hS, hL, hp, ha, h => by
    simp only [lower, bind_eq_ok] at h
    obtain ⟨value, hv, hc⟩ := h
    cases hc
    have hval := Expr.lower_shaped (H := fun _ => True) hL hp (hS.layout hL) (known_point L its) e
      ht [] hv
    exact .of_shapes hval (.plain fun _ _ h => ⟨_, [], rfl, h⟩)
  | forEach m x e body, S, L, K, n, code, its, ht, hS, hL, hp, ha, h =>
    forEach_chart (lowerAll_chart body) ht hS hL hp ha h
  | cond m e yes none, S, L, K, n, code, its, ht, hS, hL, hp, ha, h =>
    cond_chart (lowerAll_chart yes) ht hS hL hp ha h
  | cond m e yes (some no), S, L, K, n, code, its, ht, hS, hL, hp, ha, h =>
    cond_else_chart (lowerAll_chart yes) (lowerAll_chart no) ht hS hL hp ha h
  | declare m x t e, S, L, K, n, code, its, ht, hS, hL, hp, ha, h => by
    obtain ⟨he, -, -, hx⟩ := ht
    simp only [lower, bind_eq_ok] at h
    obtain ⟨value, hv, hc⟩ := h
    cases hc
    have hval := Expr.lower_shaped (H := fun _ => True) hL hp (hS.layout hL) (known_point L its) e
      he [] hv
    refine .of_shapes (hval.append (coercion_shaped e.ty (declaredTy t e)))
      (declare_charts hp ha fun hl => hx ?_)
    rw [← hL.types, Layout.types, List.length_map, hl]
  | assign m x e, S, L, K, n, code, its, ht, hS, hL, hp, ha, h => by
    obtain ⟨he, t, hx, -⟩ := ht
    simp only [lower, bind_eq_ok] at h
    obtain ⟨v, hv, value, hval, hc⟩ := h
    cases hc
    have hshape := Expr.lower_shaped (H := fun _ => True) hL hp (hS.layout hL) (known_point L its) e
      he [] hval
    have hty := hL.ty hv
    simp only [plan, hty, Option.getD_some]
    exact .of_shapes (hshape.append (coercion_shaped e.ty v.ty))
      (assign_charts hp (hS.layout hL) ha hv)
  | define _ _ _, S, L, K, n, code, its, ht, hS, hL, hp, ha, h
  | invalid _ _, S, L, K, n, code, its, ht, hS, hL, hp, ha, h => by
    cases h
    exact .nil _
  | ret m none, S, L, K, n, code, its, ht, hS, hL, hp, ha, h => by
    cases h
    have hret : Charts R.world result (fun _ => True) n [.ret] [some (L.point its)]
        (some (L.point its)) none := .single fun _ _ _ => ht
    exact ⟨_, marked_single rfl, hret⟩
  | ret m (some e), S, L, K, n, code, its, ht, hS, hL, hp, ha, h => by
    obtain ⟨hres, he, -⟩ := ht
    simp only [lower, bind_eq_ok] at h
    obtain ⟨value, hv, hc⟩ := h
    cases hc
    have hval := Expr.lower_shaped (H := fun _ => True) hL hp (hS.layout hL) (known_point L its) e
      he [] hv
    rw [hL.result]
    exact .of_shapes (hval.append (coercion_shaped e.ty result))
      (.single fun _ _ _ => ⟨hres, [], rfl⟩)

theorem lowerAll_chart {R : Rules} {result : Ty} : (ss : List Stmt) → ∀ {S : Scopes}
    {L K : Layout} {n : Nat} {code : List Instruction} {its : List Nat}, TypedAll R result S ss →
    S.Shared R → L.Sees R result S → L.Placed → L.Apart its → lowerAll L n ss = .ok (code, K) →
      Charted R result n code (planAll R.functions result S ss) (some (L.point its))
        (behind (lastReturns ss) (K.point its))
  | [], S, L, K, n, code, its, ht, hS, hL, hp, ha, h => by
    cases h
    exact .nil _
  | [s], S, L, K, n, code, its, ht, hS, hL, hp, ha, h => by
    simp only [lowerAll, bind_eq_ok] at h
    obtain ⟨⟨one, K'⟩, ho, ⟨_, _⟩, hm, hc⟩ := h
    cases hm
    cases hc
    have hone := lower_chart s ht.1 hS hL hp ha ho
    simp only [planAll, List.append_nil]
    exact hone
  | s :: s' :: ss, S, L, K, n, code, its, ht, hS, hL, hp, ha, h => by
    rw [lowerAll] at h
    simp only [bind_eq_ok] at h
    obtain ⟨⟨one, K₁⟩, ho, ⟨more, K₂⟩, hm, hc⟩ := h
    have hb := lower_behind ht.1 hL hp ho
    have hone := lower_chart s ht.1 hS hL hp ha ho
    have hmore := lowerAll_chart (s' :: ss) ht.2 (hS.extend ht.1) hb.sees hb.placed
      (ha.grows hb.grows) hm
    cases hc
    exact hone.of_behind.append hmore

end

end Stmt

/-! ## Methods -/

namespace StackMachine

/-- The chart that has the given points and no others. -/
def Chart.ofPoints (points : List (Option Point)) : Chart := fun n => points[n]?.join

theorem Chart.fits_of_get {A : Chart} {n : Nat} {points : List (Option Point)}
    (h : ∀ k P, points[k]? = some P → A (n + k) = P) : A.Fits n points := by
  induction points generalizing n with
  | nil => trivial
  | cons P points ih =>
    refine ⟨h 0 P rfl, ih fun k Q hk => ?_⟩
    rw [Nat.add_assoc, Nat.add_comm 1 k]
    exact h (k + 1) Q hk

end StackMachine

/-- A chart of a whole method: it begins with what is known at the start of a call, its
instructions are allowed, and it has the intended stacks. -/
structure Certified (W : World) (result : Ty) (start : Point) (code : List Instruction)
    (marks : List Mark) (A : Chart) : Prop where
  start : A.Leads 0 (some start)
  verified : A.Verified W result 0 code
  mark : ∀ n P, A n = some P → ∃ m, marks[n]? = some m ∧ P.stack = m.stack
  bound : ∀ n P, A n = some P → n < code.length

theorem Charted.certified {R : Rules} {result : Ty} {code : List Instruction} {marks : List Mark}
    {P : Point} (h : Charted R result 0 code marks (some P) none) :
    ∃ A, Certified R.world result P code marks A := by
  obtain ⟨points, hmarked, hcode⟩ := h
  have hget : ∀ n P, Chart.ofPoints points n = some P → points[n]? = some (some P) := by
    intro n P hn
    simpa [Chart.ofPoints, Option.join_eq_some_iff] using hn
  obtain ⟨hs, hv⟩ := hcode.carries (.ofPoints points) trivial
    (Chart.fits_of_get fun k P hk => by simp [Chart.ofPoints, hk]) trivial
  refine ⟨_, hs, hv, fun n P hn => hmarked.mark (hget n P hn), fun n P hn => ?_⟩
  rw [← hcode.length]
  exact (List.getElem?_eq_some_iff.1 (hget n P hn)).1

/-- A method from the code of its body: the last instruction returns, if it is reached. -/
theorem Charted.method {R : Rules} {result : Ty} {code : List Instruction} {marks : List Mark}
    {P Q : Point} {returns : Bool} (h : Charted R result 0 code marks (some P) (behind returns Q))
    (hQ : Q.stack = []) (hr : result ≠ .void → returns = true) :
    Charted R result 0 (code ++ [.ret]) (marks ++ [.edge]) (some P) none := by
  refine h.append ⟨[behind returns Q], marked_behind hQ, ?_⟩
  cases returns with
  | true => exact .dead
  | false =>
    refine .single fun _ _ _ => ?_
    show result = .void
    cases hv : decide (result = .void) with
    | true => exact of_decide_eq_true hv
    | false => exact absurd (hr (of_decide_eq_false hv)) nofun

namespace Program

variable {fits : Ty → Ty → Prop} {p : Program}

/-- What is known at the start of a call of a method: how its parameters are held. -/
def entry (p : Program) (name : String) : Point :=
  ⟨[], ((p.signatures.find? name).map fun s =>
    (s.params.map fun q => q.2.kind).mapIdx fun n k => (n, k)).getD [], [], .nothing⟩

theorem find?_signatures_main (ht : p.Typed fits) : p.signatures.find? mainName = none := by
  have hs := (List.nodup_cons.1 ht.symbols).1
  rw [signatures, Table.ofList, Table.find?_foldl_insert]
  · rfl
  · rw [List.map_map]
    exact hs

theorem certified_main (ht : p.Typed fits) {main : List Instruction} {K : Layout}
    (hm : p.lowerMain = .ok (main, K)) :
    ∃ A, Certified (p.rules fits).world (p.resultOf mainName) (p.entry mainName) (main ++ [.ret])
      (p.plan mainName) A := by
  have hL := Layout.main_sees (p.rules fits)
  have hp := Layout.main_placed p.signatures
  have hS : Scopes.Shared [[]] (p.rules fits) := by
    intro scope hs x t hx
    cases hs
    cases hx
  have hentry : p.entry mainName = (Layout.main p.signatures).point [] := by
    simp only [entry, find?_signatures_main ht]
    rfl
  have hresult : p.resultOf mainName = .void := by
    simp only [resultOf, find?_signatures_main ht]
    rfl
  have hplan : p.plan mainName = p.mainPlan := if_pos rfl
  rw [hentry, hresult, hplan]
  have hb := ht.body
  obtain ⟨body, span⟩ := p
  cases body with
  | expression e =>
    simp only [lowerMain, bind_eq_ok] at hm
    obtain ⟨code, hc, hm⟩ := hm
    cases hm
    have hcode := Expr.print_charted [] hb hS hL hp hc
    rw [← show behind false (Layout.point _ []) = some (Layout.point _ []) from rfl] at hcode
    exact (hcode.method rfl fun h => absurd rfl h).certified
  | statements ss =>
    have hcode := Stmt.lowerAll_chart ss hb hS hL hp (Layout.apart_nil _) hm
    exact (hcode.method rfl fun h => absurd rfl h).certified

/-- How the parameters of a function are held. -/
theorem kinds_paramScope (n : Nat) (ps : List Param) :
    ((paramScope n ps).filterMap fun b => b.2.slot?.map fun m => (m, b.2.ty.kind)) =
      (ps.map fun q => q.ty.kind).mapIdx fun m k => (n + m, k) := by
  induction ps generalizing n with
  | nil => rfl
  | cons q ps ih =>
    rw [paramScope, List.filterMap_cons, ih (n + 1), List.map_cons, List.mapIdx_cons]
    simp only [Variable.slot?, Option.map_some, Nat.add_zero, Nat.add_assoc, Nat.add_comm 1]

theorem find?_functions (hn : (p.functions.map (·.header.symbol)).Nodup) {f : Function}
    (hf : f ∈ p.functions) :
    p.functions.find? (fun g => g.header.symbol = f.header.symbol) = some f := by
  generalize p.functions = fs at hn hf
  induction fs with
  | nil => cases hf
  | cons g fs ih =>
    simp only [List.map_cons, List.nodup_cons, List.mem_map, not_exists, not_and] at hn
    rw [List.find?_cons]
    rcases List.mem_cons.1 hf with rfl | hf
    · simp only [decide_true]
    · have hne : g.header.symbol ≠ f.header.symbol := fun he => hn.1 f hf he.symm
      simp only [hne, decide_false, ih hn.2 hf]

theorem certified_function (ht : p.Typed fits) {globals : Table Variable}
    (hg : Layout.Globals globals) (hty : globals.mapValues Variable.ty = p.globals) {f : Function}
    (hf : f ∈ p.functions) :
    ∃ A, Certified (p.rules fits).world (p.resultOf f.header.symbol) (p.entry f.header.symbol)
      (f.method p.signatures globals).code (p.plan f.header.symbol) A := by
  have hs := List.nodup_cons.1 ht.symbols
  have hff := ht.functions f hf
  have hne : f.header.symbol ≠ mainName := fun he => hs.1 (he ▸ List.mem_map.2 ⟨f, hf, rfl⟩)
  have hfind := find?_signatures hs.2 hf
  have hresult : p.resultOf f.header.symbol = f.header.resultTy := by
    simp only [resultOf, hfind]
    rfl
  have hentry : p.entry f.header.symbol =
      (Layout.function p.signatures globals f.header).point [] := by
    have hnil : (globals.filterMap fun b => b.2.slot?.map fun m => (m, b.2.ty.kind)) = [] := by
      refine List.filterMap_eq_nil_iff.2 fun b hb => ?_
      simp only [Variable.slot?, hg b hb, Option.map_none]
    rw [Layout.function_eq _ _ hff.params]
    simp only [entry, hfind, Layout.point, Layout.kinds, List.flatten_cons, List.flatten_nil,
      List.append_nil, List.filterMap_append, hnil, kinds_paramScope, Nat.zero_add, Option.map_some,
      Option.getD_some, Header.signature, List.map_map, Function.comp_def]
  have hplan : p.plan f.header.symbol = p.functionPlan f := by
    rw [plan, if_neg hne, find?_functions hs.2 hf]
    rfl
  obtain ⟨code, K, hc, hm⟩ := method_eq ht hg hty hf
  have hL := Layout.function_sees (R := p.rules fits) hty hff.params
  have hp := Layout.function_placed p.signatures hg hff.params
  have hS : Scopes.Shared [f.header.scope, p.globals] (p.rules fits) := by
    intro scope hs x t hx
    cases hs
    exact hx
  rw [hm, hentry, hresult, hplan]
  have hcode := Stmt.lowerAll_chart f.body hff.body hS hL hp (Layout.apart_nil _) hc
  exact (hcode.method rfl hff.returns).certified

/-- Every method of a well-typed program has a chart. -/
theorem certified (ht : p.Typed fits) {main : List Instruction} {K : Layout}
    (hm : p.lowerMain = .ok (main, K)) {name : String} {m : Method}
    (h : (p.codeOf main K).methods.find? name = some m) :
    ∃ A, Certified (p.rules fits).world (p.resultOf name) (p.entry name) m.code (p.plan name) A := by
  obtain ⟨_, _, hm', -, hg, hty⟩ := lowerMain_total ht
  rw [hm] at hm'
  cases hm'
  rcases List.mem_cons.1 (Table.mem_of_find? h) with he | hf
  · cases he
    exact certified_main ht hm
  · obtain ⟨f, hmem, he⟩ := List.mem_map.1 hf
    cases he
    exact certified_function ht hg hty hmem

end Program

end CatScript
