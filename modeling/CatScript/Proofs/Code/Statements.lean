import CatScript.Proofs.Code.Shows
import CatScript.Proofs.Code.Verified

/-!
# The code of statements

The code of a statement leads from a state that shows a scene to one that shows the scene behind
the statement, or leaves the frame with the value that the statement returns
(`Stmt.lower_matched`). In a loop the iterator stands in a slot that no variable has, and the
items which it has still to give are those over which the loop has still to run
(`rounds_matched`).
-/
namespace CatScript

open Typing Code Eval StackMachine

/-- The machine behind statements of a function with the given result type: at offset `stop` of
the frame, or back in the caller. -/
def Arrives (K : Layout) (f : Frame) (slots : List Nat) (heap : List (List Reference))
    (callers : List Frame) (stop : Nat) (result : Ty) : Flow → Scene → State → Prop
  | .normal, τ, t => Rests K f slots heap callers stop τ t
  | .returned r, τ, t =>
    ∃ s, t = State.leave s (r.map (·.held result)) callers ∧ Agrees heap τ s

variable {code : Code} {R : Rules} {result : Ty} {S : Scopes} {L K : Layout} {f g : Frame}
  {slots : List Nat} {heap heap' : List (List Reference)} {σ τ : Scene} {s t : State}
  {callers : List Frame} {n stop : Nat} {flow : Flow}

namespace Arrives

theorem of_keeps (h : Arrives K g slots heap callers stop result flow τ t) (hk : f.Keeps slots g) :
    Arrives K f slots heap callers stop result flow τ t := by
  cases flow with
  | returned r => exact h
  | normal =>
    obtain ⟨g', s, rfl, hk', hs⟩ := h
    exact ⟨g', s, rfl, hk.trans hk', hs⟩

theorem of_scopes (h : Arrives K f slots heap callers stop result flow τ t)
    (hs : L.scopes = K.scopes) : Arrives L f slots heap callers stop result flow τ t := by
  cases flow with
  | returned r => exact h
  | normal =>
    obtain ⟨g, s, rfl, hk, hshow⟩ := h
    exact ⟨g, s, rfl, hk, hshow.of_scopes hs⟩

theorem mono (h : Arrives K f slots heap callers stop result flow τ t) (hh : heap' <+: heap) :
    Arrives K f slots heap' callers stop result flow τ t := by
  cases flow with
  | returned r =>
    obtain ⟨s, rfl, ha⟩ := h
    exact ⟨s, rfl, ha.mono hh⟩
  | normal =>
    obtain ⟨g, s, rfl, hk, hshow⟩ := h
    exact ⟨g, s, rfl, hk, hshow.mono hh⟩

/-- The scope of a block is left. -/
theorem pop (h : Arrives K f slots heap callers stop result flow τ t)
    (hg : Layout.Grows L.push K) (hL : L.scopes ≠ []) :
    Arrives K.pop f slots heap callers stop result flow { τ with locals := τ.locals.tail } t := by
  cases flow with
  | returned r =>
    obtain ⟨s, rfl, ha⟩ := h
    exact ⟨s, rfl, ha.globals, ha.output, ha.heap⟩
  | normal =>
    obtain ⟨g, s, rfl, hk, hshow⟩ := h
    exact ⟨g, s, rfl, hk, hshow.pop hg hL⟩

/-- The jump behind a block. -/
theorem jump {target : Nat} (h : Arrives K f slots heap callers stop result flow τ t)
    (hc : f.code[stop]? = some (.jump .always target)) :
    ∃ u, Steps code t u ∧ Arrives K f slots heap callers target result flow τ u := by
  cases flow with
  | returned r => exact ⟨t, .refl t, h⟩
  | normal =>
    obtain ⟨g, s, rfl, hk, hshow⟩ := h
    exact ⟨_, .jump (hk.code ▸ hc) (b := true) rfl, g, s, rfl, hk, hshow⟩

end Arrives

/-! ## Loops -/

theorem getElem?_of_items {items : List Reference} (h : heap ++ [items] <+: heap') :
    heap'[heap.length]? = some items := by
  obtain ⟨rest, rfl⟩ := h
  simp

/-- Taking an item from the last iterator of a heap keeps the heap below it. -/
theorem set_items {items : List Reference} (h : heap ++ [items] <+: heap')
    (items' : List Reference) : heap ++ [items'] <+: heap'.set heap.length items' := by
  obtain ⟨rest, rfl⟩ := h
  exact ⟨rest, by simp⟩

theorem exec_hasNext {id : Nat} {items : List Reference} {st : List Slot}
    (h : s.heap[id]? = some items) :
    exec code s (f.before n (.reference (.iterator id) :: st)) callers .hasNext =
      .ok (s.resume (f.before n ((Value.bool !items.isEmpty).held .bool :: st)) callers) := by
  show Except.ok (s.resume ((f.before n st).pushTruth !((s.heap[id]?).getD []).isEmpty) callers) = _
  rw [h]
  rfl

theorem exec_next_eq (id : Nat) (st : List Slot) :
    exec code s (f.before n (.reference (.iterator id) :: st)) callers .next =
      match (s.heap[id]?).getD [] with
      | [] => .error .stackUnderflow
      | r :: items => .ok ({ s with heap := s.heap.set id items }.resume
          ((f.before n st).pushReference r) callers) := rfl

theorem exec_next {id : Nat} {r : Reference} {items : List Reference} {st : List Slot}
    (h : s.heap[id]? = some (r :: items)) :
    exec code s (f.before n (.reference (.iterator id) :: st)) callers .next =
      .ok ({ s with heap := s.heap.set id items }.resume
        (f.before n (.reference r :: st)) callers) := by
  rw [exec_next_eq, h]
  rfl

/-- The frame has the last iterator of the heap in the slot behind those of the layout. -/
def Iterates (L : Layout) (f : Frame) (heap : List (List Reference)) : Prop :=
  f.load L.nextSlot = .reference (.iterator heap.length)

section

variable {x : String} {ty : Ty}

/-- The test at the head of a loop. -/
theorem head_steps {items : List Reference} (hi : Iterates L f heap)
    (hc : Includes f.code n (loopHead L stop x ty)) (hh : heap ++ [items] <+: s.heap) :
    Steps code (s.resume (f.before n []) callers)
      (s.resume (f.before (if items.isEmpty then stop else n + 3) []) callers) := by
  rw [loopHead, List.append_assoc] at hc
  simp only [List.cons_append, includes_cons] at hc
  obtain ⟨hload, hhas, hjump, -⟩ := hc
  have hfirst : Steps code (s.resume (f.before n []) callers)
      (s.resume (f.before (n + 1) [.reference (.iterator heap.length)]) callers) :=
    .exec hload (by rw [← hi]; rfl)
  refine (hfirst.trans (.exec hhas (exec_hasNext (getElem?_of_items hh)))).trans ?_
  refine .jump hjump ?_
  cases items <;> rfl

/-- The next item of a loop comes into its variable. -/
theorem item_steps {v : Value} {vs : List Value} (hp : L.Placed) (ha : L.Apart slots)
    (hi : Iterates L f heap) (hc : Includes f.code n (loopHead L stop x ty)) (hv : v.Inhabits ty)
    (hs : Shows L f (heap ++ [v.ref :: Value.refs vs]) σ s) :
    ∃ t, Steps code (s.resume (f.before (n + 3) []) callers) t ∧
      Rests (L.loop x ty) f (L.nextSlot :: slots) (heap ++ [Value.refs vs]) callers
        (n + (loopHead L stop x ty).length)
        (Scene.define { σ with locals := [] :: σ.locals } x ⟨ty, v⟩) t := by
  have hlen : (loopHead L stop x ty).length = 5 + (coercion .object ty).length + 1 := by
    rw [loopHead, List.length_append, List.length_append]
    rfl
  rw [loopHead, List.append_assoc] at hc
  simp only [List.cons_append, List.nil_append, includes_cons, includes_append] at hc
  obtain ⟨-, -, -, hload, hnext, hcoerce, hstore, -⟩ := hc
  have hitem : Steps code (s.resume (f.before (n + 3) []) callers)
      (s.resume (f.before (n + 3 + 1) [.reference (.iterator heap.length)]) callers) :=
    .exec hload (by rw [← hi]; rfl)
  have hgive : Steps code
      (s.resume (f.before (n + 3 + 1) [.reference (.iterator heap.length)]) callers)
      ({ s with heap := s.heap.set heap.length (Value.refs vs) }.resume
        (f.before (n + 3 + 1 + 1) [v.held .object]) callers) :=
    .exec hnext (exec_next (getElem?_of_items hs.heap))
  have hs' : Shows L.allocate.2.push f (heap ++ [Value.refs vs])
      { σ with locals := [] :: σ.locals }
      { s with heap := s.heap.set heap.length (Value.refs vs) } :=
    Shows.push ⟨⟨hs.globals, hs.output, set_items hs.heap _⟩, hs.locals⟩ hp.allocate.ne_nil
  obtain ⟨t, ht, hr⟩ := hs'.declare_steps (b := ⟨ty, v⟩) hp.allocate.push (ha.loop hp) hstore
  have hobject : v.Inhabits .object := trivial
  refine ⟨t, (hitem.trans hgive).trans ((coercion_steps hobject hv hcoerce).trans ht), ?_⟩
  rw [hlen, ← Nat.add_assoc, ← Nat.add_assoc]
  exact hr

variable {body : Watched Flow} {inner : List Instruction} {top : Nat}

/-- The machine matches the body of a loop, whose code stands behind the head of the loop. -/
def BodyMatched (code : Code) (R : Rules) (result : Ty) (S : Scopes) (L K : Layout)
    (slots : List Nat) (callers : List Frame) (bodyAt : Nat) (inner : List Instruction)
    (body : Watched Flow) : Prop :=
  ∀ {τ : Scene} {g : Frame} {heap : List (List Reference)} {s : State}, τ.Conforms R S →
    Shows L g heap τ s → Includes g.code bodyAt inner →
    (body τ).Matched code R (s.resume (g.before bodyAt []) callers)
      (Arrives K g slots heap callers (bodyAt + inner.length) result)

/-- One round of a loop, behind the test at its head. -/
theorem round_matched (hp : L.Placed) (ha : L.Apart slots) (hg : Layout.Grows L.allocate.2.push K)
    (hbody : BodyMatched code R result ([(x, ty)] :: S) (L.loop x ty) K (L.nextSlot :: slots)
      callers (top + (loopHead L stop x ty).length) inner body)
    {v : Value} {vs : List Value} (hv : v.Inhabits ty) (hσ : σ.Conforms R S)
    (hi : Iterates L f heap) (hs : Shows L f (heap ++ [v.ref :: Value.refs vs]) σ s)
    (hc : Includes f.code top (loopHead L stop x ty ++ inner ++ [.jump .always top])) :
    (Watched.inScope (do Watched.define x ⟨ty, v⟩; body) σ).Matched code R
      (s.resume (f.before (top + 3) []) callers)
      (Arrives K.pop f (L.nextSlot :: slots) (heap ++ [Value.refs vs]) callers top result) := by
  obtain ⟨hcode, hback⟩ := includes_append.1 hc
  obtain ⟨hhead, hinner⟩ := includes_append.1 hcode
  have hconf := hσ.push.define (b := ⟨ty, v⟩) (x := x) hv fun hl => by
    have := hσ.ne_nil
    simp_all
  obtain ⟨t, ht, g, s₁, rfl, hk, hs₁⟩ :
      ∃ t, Steps code (s.resume (f.before (top + 3) []) callers) t ∧ _ :=
    item_steps hp ha hi hhead hv hs
  refine .inScope (.steps ht (.bind (.define x ⟨ty, v⟩) fun _ τ t h => ?_))
  obtain ⟨rfl, rfl⟩ := h
  refine (hbody hconf hs₁ (hk.code ▸ hinner)).then_steps fun flow υ t h => ?_
  refine ((h.of_keeps hk).pop hg hp.allocate.ne_nil).jump ?_
  rw [Nat.add_assoc, ← List.length_append]
  exact (includes_cons.1 hback).1

/-- The part of a loop that is run again and again. -/
theorem rounds_matched {S' : Scopes} {returns : Bool} (hp : L.Placed) (ha : L.Apart slots)
    (hg : Layout.Grows L.allocate.2.push K)
    (hsafe : ∀ τ : Scene, τ.Conforms R ([(x, ty)] :: S) →
      (body τ).Safe R (Ends R result ([(x, ty)] :: S) S' returns))
    (hbody : BodyMatched code R result ([(x, ty)] :: S) (L.loop x ty) K (L.nextSlot :: slots)
      callers (top + (loopHead L stop x ty).length) inner body)
    {vs : List Value} (hvs : ∀ v ∈ vs, v.Inhabits ty) (hσ : σ.Conforms R S)
    (hi : Iterates L f heap) (hs : Shows L f (heap ++ [Value.refs vs]) σ s)
    (hc : Includes f.code top (loopHead L stop x ty ++ inner ++ [.jump .always top])) :
    (Watched.forItems x ty body vs σ).Matched code R (s.resume (f.before top []) callers)
      (Arrives K.pop f slots heap callers stop result) := by
  have hK : K.pop.scopes = L.scopes := hg.scopes_pop hp.allocate.ne_nil
  have hhead := (includes_append.1 (includes_append.1 hc).1).1
  induction vs generalizing σ f s with
  | nil =>
    refine .steps (head_steps hi hhead hs.heap) (.pure ?_)
    exact ⟨f, s, rfl, .refl slots f, (hs.mono (List.prefix_append _ _)).of_scopes hK⟩
  | cons v vs ih =>
    simp only [List.mem_cons, forall_eq_or_imp] at hvs
    simp only [Watched.forItems]
    refine .steps (head_steps hi hhead hs.heap) ?_
    refine .bind ((round_matched hp ha hg hbody hvs.1 hσ hi hs hc).safe (.round hsafe hvs.1 hσ))
      fun flow τ t h => ?_
    obtain ⟨hends, harr⟩ := h
    cases flow with
    | returned r =>
      obtain ⟨s₁, rfl, hag⟩ := harr
      exact .pure ⟨s₁, rfl, hag.mono (List.prefix_append _ _)⟩
    | normal =>
      obtain ⟨g, s₁, rfl, hk, hs₁⟩ := harr
      have hi' : Iterates L g heap := (hk.load _ (List.mem_cons_self ..)).trans hi
      have hc' := hk.code ▸ hc
      refine (ih hvs.2 (hends.normal rfl).1 hi' (hs₁.of_scopes hK.symm) hc'
        (hk.code ▸ hhead)).mono fun flow υ t h => ?_
      exact h.of_keeps (hk.mono fun _ h => List.mem_cons_of_mem _ h)

theorem isNative_of_element {s t : Ty} (h : s.element? = some t) : s.isNative = false := by
  cases s with
  | int | bool => cases h
  | _ => rfl

/-- A whole loop, behind the value over which it runs. -/
theorem loop_matched {S' : Scopes} {returns : Bool} {e : Expr} {v : Value} (hp : L.Placed)
    (ha : L.Apart slots) (hg : Layout.Grows L.allocate.2.push K)
    (hsafe : ∀ τ : Scene, τ.Conforms R ([(x, ty)] :: S) →
      (body τ).Safe R (Ends R result ([(x, ty)] :: S) S' returns))
    (hbody : BodyMatched code R result ([(x, ty)] :: S) (L.loop x ty) K (L.nextSlot :: slots)
      callers (n + 2 + (loopHead L stop x ty).length) inner body)
    (hty : e.ty.element? = some ty) (hv : v.Inhabits e.ty) (hσ : σ.Conforms R S)
    (hs : Shows L f heap σ s)
    (hc : Includes f.code n ([.getIterator, .storeLocal L.nextSlot] ++
      (loopHead L stop x ty ++ inner ++ [.jump .always (n + 2)]))) :
    ((do
        Watched.record (.iterated e v)
        let vs ← Watched.items v
        Watched.forItems x ty body vs : Watched Flow) σ).Matched code R
      (s.resume (f.before n [v.held e.ty]) callers)
      (Arrives K.pop f slots heap callers stop result) := by
  obtain ⟨hiterator, hrounds⟩ := includes_append.1 hc
  obtain ⟨hget, hput⟩ := includes_cons.1 hiterator
  have hput := (includes_cons.1 hput).1
  rw [Value.held_reference (isNative_of_element hty)]
  refine .iterate (fun vs hvs => ?_) fun hv => ?_
  · subst hvs
    have hfirst : Steps code (s.resume (f.before n [.reference (Value.list vs).ref]) callers)
        ({ s with heap := s.heap ++ [Value.refs vs] }.resume
          (f.before (n + 1) [.reference (.iterator s.heap.length)]) callers) := .exec hget rfl
    refine .steps (hfirst.trans (.exec hput rfl)) ?_
    have hk : f.Keeps slots (f.store L.nextSlot (.reference (.iterator s.heap.length))) :=
      .store (fun hm => Nat.lt_irrefl _ (ha _ hm).1) f _
    have hi : Iterates L (f.store L.nextSlot (.reference (.iterator s.heap.length))) s.heap :=
      (Frame.load_store f _ _ _).trans (if_pos rfl)
    have hs' : Shows L (f.store L.nextSlot (.reference (.iterator s.heap.length)))
        (s.heap ++ [Value.refs vs]) σ { s with heap := s.heap ++ [Value.refs vs] } :=
      ⟨⟨hs.globals, hs.output, List.prefix_refl _⟩, by
        rw [map_read_store (nextSlot_fresh hp)]; exact hs.locals⟩
    refine (rounds_matched hp ha hg hsafe hbody (hv.element hty) hσ hi hs' hrounds).mono
      fun flow τ t h => ?_
    exact (h.of_keeps hk).mono hs.heap
  · refine Fails.exec hget ?_
    rw [← Value.display_ref]
    cases v with
    | list vs => exact absurd rfl (hv vs)
    | _ => rfl

end

/-! ## Statements -/

/-- Printing a value. -/
theorem print_steps (slots : List Nat) {v : Value} {ty : Ty} (hv : v.Inhabits ty)
    (hs : Shows L f heap σ s) (hc : Includes f.code n (boxing ty ++ [.print])) :
    ∃ t, Steps code (s.resume (f.before n [v.held ty]) callers) t ∧
      Rests L f slots heap callers (n + (boxing ty ++ [Instruction.print]).length)
        { σ with output := v.display :: σ.output } t := by
  obtain ⟨hbox, hprint⟩ := includes_append.1 hc
  refine ⟨_, (boxing_steps hv hbox).trans (.exec (includes_cons.1 hprint).1 rfl), f,
    { s with output := v.ref.display :: s.output }, ?_, .refl slots f,
    ⟨hs.globals, ?_, hs.heap⟩, hs.locals⟩
  · rw [List.length_append]
    rfl
  · rw [Value.display_ref, hs.output]

/-- The parts of a test and the block behind it, and where they stand. -/
theorem includes_branch {test inner : List Instruction} {no target : Nat}
    (h : Includes f.code n (test ++ [.jump .ifFalse no] ++ inner ++ [.jump .always target])) :
    Includes f.code n (test ++ [.jump .ifFalse no]) ∧
      Includes f.code (n + test.length + 1) inner ∧
      f.code[n + test.length + 1 + inner.length]? = some (.jump .always target) := by
  obtain ⟨h, hback⟩ := includes_append.1 h
  obtain ⟨htest, hinner⟩ := includes_append.1 h
  have hlen : n + (test ++ [Instruction.jump .ifFalse no]).length = n + test.length + 1 := by
    simp only [List.length_append, List.length_cons, List.length_nil]
    omega
  rw [List.length_append, ← Nat.add_assoc, hlen] at hback
  rw [hlen] at hinner
  exact ⟨htest, hinner, (includes_cons.1 hback).1⟩

/-- A block in a scope of its own, behind which the layout sees what `L` does. -/
theorem block_matched {w : Watched Flow} {M : Layout} (hg : Layout.Grows L.push K)
    (hL : L.scopes ≠ []) (hM : M.scopes = L.scopes)
    (h : (w { σ with locals := [] :: σ.locals }).Matched code R s
      (Arrives K f slots heap callers stop result)) :
    (Watched.inScope w σ).Matched code R s (Arrives M f slots heap callers stop result) := by
  refine .inScope (h.mono fun flow τ t h => ?_)
  exact (h.pop hg hL).of_scopes (hM.trans (hg.scopes_pop hL).symm)

/-- The block of a branch, behind which the code jumps to `target`. -/
theorem branch_matched {w : Watched Flow} {M : Layout} {target : Nat}
    (hg : Layout.Grows L.push K) (hL : L.scopes ≠ []) (hM : M.scopes = L.scopes)
    (hback : f.code[stop]? = some (.jump .always target))
    (h : (w { σ with locals := [] :: σ.locals }).Matched code R s
      (Arrives K f slots heap callers stop result)) :
    (Watched.inScope w σ).Matched code R s (Arrives M f slots heap callers target result) :=
  block_matched hg hL hM (h.then_steps fun _ _ _ h => h.jump hback)

/-- The test of a conditional, behind which the code of one of its branches is run. -/
theorem Expr.test_matched {functions : Table Function} {invoke : Watched.Invoke} {e : Expr}
    {test : List Instruction} {no : Nat} {k : Bool → Watched Flow}
    {Q : Flow → Scene → State → Prop} (hk : Knows R functions) (hi : CallsSafe R invoke)
    (hm : CallsMatched code R functions invoke) (hL : L.Sees R result S) (hp : L.Placed)
    (he : e.Typed R S) (hty : e.ty = .bool) (h : e.lower L n = .ok test) (hσ : σ.Conforms R S)
    (hs : Shows L f heap σ s) (hc : Includes f.code n (test ++ [.jump .ifFalse no]))
    (hQ : ∀ b τ s', τ.Conforms R S → Shows L f heap τ s' →
      (k b τ).Matched code R
        (State.resume s' (f.before (if b then n + test.length + 1 else no) []) callers) Q) :
    ((do
        let v ← e.watch functions invoke
        let b ← Watched.ofExcept (v.asBool "if")
        k b : Watched Flow) σ).Matched code R (s.resume (f.before n []) callers) Q := by
  obtain ⟨hc, hjump⟩ := includes_append.1 hc
  refine .bind (value_matched hk hi hm hL hp he h hσ hs hc) fun v τ t h => ?_
  obtain ⟨⟨hv, hτ⟩, s₁, rfl, hs₁⟩ := h
  rw [hty] at hv ⊢
  obtain ⟨b, rfl⟩ := hv
  refine .steps (.jump (includes_cons.1 hjump).1 (b := !b) (by cases b <;> rfl)) ?_
  refine .bind (.ofExcept (a := b) rfl (P := fun c υ u => b = c ∧ τ = υ ∧ u = _) ⟨rfl, rfl, rfl⟩) ?_
  rintro _ _ _ ⟨rfl, rfl, rfl⟩
  have h := hQ b τ s₁ hτ hs₁
  cases b <;> exact h

/-- Declaring a variable, behind its value. -/
theorem declare_matched {x : String} {ty ty' : Ty} {v : Value} (hp : L.Placed) (ha : L.Apart slots)
    (hv : v.Inhabits ty) (hv' : v.Inhabits ty') (hs : Shows L f heap σ s)
    (hc : Includes f.code n (coercion ty ty' ++ [(L.declare x ty').1.store])) :
    ((do Watched.define x ⟨ty', v⟩; pure .normal : Watched Flow) σ).Matched code R
      (s.resume (f.before n [v.held ty]) callers)
      (Arrives (L.declare x ty').2 f slots heap callers
        (n + (coercion ty ty' ++ [(L.declare x ty').1.store]).length) result) := by
  obtain ⟨hcoerce, hstore⟩ := includes_append.1 hc
  obtain ⟨t, ht, hrest⟩ := hs.declare_steps (b := ⟨ty', v⟩) hp ha (includes_cons.1 hstore).1
  refine .steps ((coercion_steps hv hv' hcoerce).trans ht) ?_
  refine .bind (.define x ⟨ty', v⟩) fun _ τ u h => ?_
  obtain ⟨rfl, rfl⟩ := h
  rw [List.length_append, ← Nat.add_assoc]
  exact .pure hrest

/-- Assigning to a variable, behind the value. -/
theorem assign_matched {x : String} {w : Variable} {ty : Ty} {v : Value} (hL : L.Sees R result S)
    (hp : L.Placed) (ha : L.Apart slots) (hw : L.find x = .ok w) (hf : R.fits w.ty ty)
    (hv : v.Inhabits ty) (hσ : σ.Conforms R S) (hs : Shows L f heap σ s)
    (hc : Includes f.code n (coercion ty w.ty ++ [w.store])) :
    ((do Watched.assign x v; pure .normal : Watched Flow) σ).Matched code R
      (s.resume (f.before n [v.held ty]) callers)
      (Arrives L f slots heap callers (n + (coercion ty w.ty ++ [w.store]).length) result) := by
  obtain ⟨hcoerce, hstore⟩ := includes_append.1 hc
  rw [List.length_append, ← Nat.add_assoc]
  refine .bind (P := fun _ τ t => Arrives L f slots heap callers
    (n + (coercion ty w.ty).length + 1) result .normal τ t) ?_ fun _ τ t h => .pure h
  have hstore := (includes_cons.1 hstore).1
  refine .bind (.lookUp fun hb hR => ?_) fun b τ t h => ?_
  · exact ⟨_, coercion_steps hv (hR _ _ _ hf hv) hcoerce, hs.store_misses hp hw hb hstore⟩
  obtain ⟨rfl, rfl, hb⟩ := h
  have hty := (hσ.find? (hL.ty hw) hb).1
  refine .bind (.passed (hty ▸ hf) hv) fun _ τ t h => ?_
  obtain ⟨rfl, rfl, hv'⟩ := h
  obtain ⟨υ, hυ⟩ : ∃ υ, σ.assign? x ⟨b.ty, v⟩ = some υ := by
    rw [← Option.isSome_iff_exists, Mirrors.isSome_assign?, hb]
    rfl
  rw [← hty] at hcoerce hstore ⊢
  obtain ⟨t, ht, hrest⟩ : ∃ t, Steps code
      (s.resume (f.before (n + (coercion ty b.ty).length) [v.held b.ty]) callers) t ∧ _ :=
    hs.assign_steps (c := ⟨b.ty, v⟩) hp ha hw hb hυ hstore
  refine .steps ((coercion_steps hv hv' hcoerce).trans ht) ?_
  refine .bind (.modify (P := fun _ κ u => υ = κ ∧ t = u) ⟨by rw [hυ]; rfl, rfl⟩) ?_
  rintro _ _ _ ⟨rfl, rfl⟩
  refine (Report.Matched.record _).mono fun _ κ u h => ?_
  obtain ⟨rfl, rfl⟩ := h
  exact hrest

namespace Stmt

open Layout

section

variable {functions : Table Function} {invoke : Watched.Invoke}

/-- The code of the statements of a block does what they do. -/
def BlockMatched (code : Code) (R : Rules) (result : Ty) (functions : Table Function)
    (invoke : Watched.Invoke) (ss : List Stmt) : Prop :=
  ∀ {S : Scopes} {L K : Layout} {n : Nat} {part : List Instruction} {slots : List Nat} {σ : Scene}
    {heap : List (List Reference)} {f : Frame} {m : State} {callers : List Frame},
    TypedAll R result S ss → L.Sees R result S → L.Placed → L.Apart slots →
    lowerAll L n ss = .ok (part, K) → σ.Conforms R S → Shows L f heap σ m →
    Includes f.code n part →
    (watchAll functions invoke result ss σ).Matched code R (m.resume (f.before n []) callers)
      (Arrives K f slots heap callers (n + part.length) result)

section

variable {note : Note} {e : Expr} {body yes no : List Stmt} {part : List Instruction} {m : State}

theorem forEach_matched {x : String} (hk : Knows R functions) (hi : CallsSafe R invoke)
    (hm : CallsMatched code R functions invoke)
    (hbody : BlockMatched code R result functions invoke body)
    (ht : (forEach note x e body).Typed R result S) (hL : L.Sees R result S) (hp : L.Placed)
    (ha : L.Apart slots) (h : (forEach note x e body).lower L n = .ok (part, K))
    (hσ : σ.Conforms R S) (hs : Shows L f heap σ m) (hc : Includes f.code n part) :
    ((forEach note x e body).watch functions invoke result σ).Matched code R
      (m.resume (f.before n []) callers)
      (Arrives K f slots heap callers (n + part.length) result) := by
  obtain ⟨he, ty, hty, hbt⟩ := ht
  obtain ⟨source, inner, K', stop, hsource, hinner, rfl, hstop, rfl⟩ := lower_forEach hty h
  have hL' := hL.loop hp x ty
  have hp' := hp.loop x ty
  have hg := (loop_grows x ty).trans (lowerAll_behind hbt hL' hp' hinner).grows
  have ha' := (ha.loop hp).grows (loop_grows x ty)
  obtain ⟨hc, hloop⟩ := includes_append.1 hc
  simp only [watch, hty, Option.getD_some]
  refine .bind (Expr.value_matched hk hi hm hL hp he hsource hσ hs hc) fun v τ t h => ?_
  obtain ⟨⟨hv, hτ⟩, m₁, rfl, hs₁⟩ := h
  rw [← hstop]
  refine loop_matched hp ha hg (fun υ hυ => watchAll_safe hk hi body hbt υ hυ) ?_ hty hv hτ hs₁
    hloop
  exact fun hυ hs hc => hbody hbt hL' hp' ha' hinner hυ hs hc

theorem cond_matched (hk : Knows R functions) (hi : CallsSafe R invoke)
    (hm : CallsMatched code R functions invoke)
    (hyes : BlockMatched code R result functions invoke yes)
    (ht : (cond note e yes none).Typed R result S) (hL : L.Sees R result S) (hp : L.Placed)
    (ha : L.Apart slots) (h : (cond note e yes none).lower L n = .ok (part, K))
    (hσ : σ.Conforms R S) (hs : Shows L f heap σ m) (hc : Includes f.code n part) :
    ((cond note e yes none).watch functions invoke result σ).Matched code R
      (m.resume (f.before n []) callers)
      (Arrives K f slots heap callers (n + part.length) result) := by
  obtain ⟨he, hty, hyt⟩ := ht
  simp only [lower, bind_eq_ok] at h
  obtain ⟨test, htest, ⟨inner, K'⟩, hinner, h⟩ := h
  cases h
  have hg := (lowerAll_behind hyt hL.push hp.push hinner).grows
  have hK := hg.scopes_pop hp.ne_nil
  obtain ⟨htest', hinner', hback⟩ := includes_branch hc
  rw [add_length_branch]
  simp only [watch]
  refine Expr.test_matched hk hi hm hL hp he hty htest hσ hs htest' fun b τ m₁ hτ hs₁ => ?_
  cases b with
  | true =>
    exact branch_matched hg hp.ne_nil hK hback
      (hyes hyt hL.push hp.push ha hinner hτ.push (hs₁.push hp.ne_nil) hinner')
  | false => exact .pure ⟨f, m₁, rfl, .refl slots f, hs₁.of_scopes hK⟩

theorem cond_else_matched (hk : Knows R functions) (hi : CallsSafe R invoke)
    (hm : CallsMatched code R functions invoke)
    (hyes : BlockMatched code R result functions invoke yes)
    (hno : BlockMatched code R result functions invoke no)
    (ht : (cond note e yes (some no)).Typed R result S) (hL : L.Sees R result S) (hp : L.Placed)
    (ha : L.Apart slots) (h : (cond note e yes (some no)).lower L n = .ok (part, K))
    (hσ : σ.Conforms R S) (hs : Shows L f heap σ m) (hc : Includes f.code n part) :
    ((cond note e yes (some no)).watch functions invoke result σ).Matched code R
      (m.resume (f.before n []) callers)
      (Arrives K f slots heap callers (n + part.length) result) := by
  obtain ⟨he, hty, hyt, hnt⟩ := ht
  simp only [lower, bind_eq_ok] at h
  obtain ⟨test, htest, ⟨inner, K₁⟩, hinner, ⟨other, K₂⟩, hother, h⟩ := h
  cases h
  have hg := (lowerAll_behind hyt hL.push hp.push hinner).grows
  obtain ⟨hL₁, hp₁, hg₁⟩ := hg.leave hL hp
  have hK₁ := hg.scopes_pop hp.ne_nil
  have hg₂ := (lowerAll_behind hnt hL₁.push hp₁.push hother).grows
  have hK₂ := hg₂.scopes_pop hp₁.ne_nil
  obtain ⟨hc, hother'⟩ := includes_append.1 hc
  obtain ⟨htest', hinner', hback⟩ := includes_branch hc
  rw [add_length_branch] at hother'
  rw [List.length_append, ← Nat.add_assoc, add_length_branch]
  simp only [watch]
  refine Expr.test_matched hk hi hm hL hp he hty htest hσ hs htest' fun b τ m₁ hτ hs₁ => ?_
  cases b with
  | true =>
    exact branch_matched hg hp.ne_nil (hK₂.trans hK₁) hback
      (hyes hyt hL.push hp.push ha hinner hτ.push (hs₁.push hp.ne_nil) hinner')
  | false =>
    have ha₁ : K₁.pop.Apart slots := ha.grows hg₁
    have hs₂ := (hs₁.of_scopes hK₁).push hp₁.ne_nil
    exact block_matched hg₂ hp₁.ne_nil hK₂
      (hno hnt hL₁.push hp₁.push ha₁ hother hτ.push hs₂ hother')

end

mutual

/-- The code of a statement does what the statement does. -/
theorem lower_matched (hk : Knows R functions) (hi : CallsSafe R invoke)
    (hm : CallsMatched code R functions invoke) : (s : Stmt) → ∀ {S : Scopes} {L K : Layout}
      {n : Nat} {part : List Instruction} {slots : List Nat} {σ : Scene}
      {heap : List (List Reference)} {f : Frame} {m : State} {callers : List Frame},
    s.Typed R result S → L.Sees R result S → L.Placed → L.Apart slots →
    s.lower L n = .ok (part, K) → σ.Conforms R S → Shows L f heap σ m →
    Includes f.code n part →
    (s.watch functions invoke result σ).Matched code R (m.resume (f.before n []) callers)
      (Arrives K f slots heap callers (n + part.length) result)
  | print _ e, S, L, K, n, part, slots, σ, heap, f, m, callers, ht, hL, hp, ha, h, hσ, hs, hc => by
    simp only [lower, bind_eq_ok] at h
    obtain ⟨value, hval, h⟩ := h
    cases h
    rw [List.append_assoc] at hc ⊢
    obtain ⟨hc, hprint⟩ := includes_append.1 hc
    simp only [watch]
    refine .bind (Expr.value_matched hk hi hm hL hp ht hval hσ hs hc) fun v τ t h => ?_
    obtain ⟨⟨hv, -⟩, m₁, rfl, hs₁⟩ := h
    obtain ⟨t, hsteps, hrest⟩ := print_steps slots hv hs₁ hprint
    refine .steps hsteps (.bind (.modify (P := fun _ υ u => υ = _ ∧ u = t) ⟨rfl, rfl⟩) ?_)
    rintro _ _ _ ⟨rfl, rfl⟩
    rw [List.length_append, ← Nat.add_assoc]
    exact .pure hrest
  | call _ e, S, L, K, n, part, slots, σ, heap, f, m, callers, ht, hL, hp, ha, h, hσ, hs, hc => by
    simp only [lower, bind_eq_ok] at h
    obtain ⟨value, hval, h⟩ := h
    cases h
    obtain ⟨hc, hpop⟩ := includes_append.1 hc
    simp only [watch]
    refine .bind (Expr.lower_matched hk hi hm hL hp e ht hval hσ hs hc) fun v τ t h => ?_
    obtain ⟨m₁, rfl, hs₁⟩ := h
    rw [List.length_append, ← Nat.add_assoc]
    exact .steps (.exec (includes_cons.1 hpop).1 rfl) (.pure ⟨f, m₁, rfl, .refl slots f, hs₁⟩)
  | forEach _ x e body, S, L, K, n, part, slots, σ, heap, f, m, callers, ht, hL, hp, ha, h, hσ, hs,
      hc => forEach_matched hk hi hm (lowerAll_matched hk hi hm body) ht hL hp ha h hσ hs hc
  | cond _ e yes none, S, L, K, n, part, slots, σ, heap, f, m, callers, ht, hL, hp, ha, h, hσ, hs,
      hc => cond_matched hk hi hm (lowerAll_matched hk hi hm yes) ht hL hp ha h hσ hs hc
  | cond _ e yes (some no), S, L, K, n, part, slots, σ, heap, f, m, callers, ht, hL, hp, ha, h, hσ,
      hs, hc => cond_else_matched hk hi hm (lowerAll_matched hk hi hm yes)
        (lowerAll_matched hk hi hm no) ht hL hp ha h hσ hs hc
  | declare _ x none e, S, L, K, n, part, slots, σ, heap, f, m, callers, ht, hL, hp, ha, h, hσ, hs,
      hc => by
    obtain ⟨he, -, -, -⟩ := ht
    simp only [lower, bind_eq_ok] at h
    obtain ⟨value, hval, h⟩ := h
    cases h
    rw [List.append_assoc] at hc ⊢
    obtain ⟨hc, hstore⟩ := includes_append.1 hc
    rw [List.length_append, ← Nat.add_assoc]
    simp only [watch]
    refine .bind (Expr.value_matched hk hi hm hL hp he hval hσ hs hc) fun v τ t h => ?_
    obtain ⟨⟨hv, -⟩, m₁, rfl, hs₁⟩ := h
    exact declare_matched hp ha hv hv hs₁ hstore
  | declare _ x (some ty) e, S, L, K, n, part, slots, σ, heap, f, m, callers, ht, hL, hp, ha, h, hσ,
      hs, hc => by
    obtain ⟨he, hf, -, -⟩ := ht
    simp only [lower, bind_eq_ok] at h
    obtain ⟨value, hval, h⟩ := h
    cases h
    rw [List.append_assoc] at hc ⊢
    obtain ⟨hc, hstore⟩ := includes_append.1 hc
    rw [List.length_append, ← Nat.add_assoc]
    simp only [watch]
    refine .bind (Expr.value_matched hk hi hm hL hp he hval hσ hs hc) fun v τ t h => ?_
    obtain ⟨⟨hv, -⟩, m₁, rfl, hs₁⟩ := h
    refine .bind (.passed (hf ty rfl) hv) fun _ υ t h => ?_
    obtain ⟨rfl, rfl, hv'⟩ := h
    exact declare_matched hp ha hv hv' hs₁ hstore
  | assign _ x e, S, L, K, n, part, slots, σ, heap, f, m, callers, ht, hL, hp, ha, h, hσ, hs,
      hc => by
    obtain ⟨he, ty, hx, hf⟩ := ht
    simp only [lower, bind_eq_ok] at h
    obtain ⟨w, hw, value, hval, h⟩ := h
    cases h
    rw [List.append_assoc] at hc ⊢
    obtain ⟨hc, hstore⟩ := includes_append.1 hc
    rw [List.length_append, ← Nat.add_assoc]
    simp only [watch]
    refine .bind (Expr.value_matched hk hi hm hL hp he hval hσ hs hc) fun v τ t h => ?_
    obtain ⟨⟨hv, hτ⟩, m₁, rfl, hs₁⟩ := h
    have hty : w.ty = ty := by
      have := hL.ty hw
      rw [hx] at this
      exact (Option.some.inj this).symm
    subst hty
    exact assign_matched hL hp ha hw hf hv hτ hs₁ hstore
  | define _ _ _, S, L, K, n, part, slots, σ, heap, f, m, callers, ht, hL, hp, ha, h, hσ, hs, hc
  | invalid _ _, S, L, K, n, part, slots, σ, heap, f, m, callers, ht, hL, hp, ha, h, hσ, hs,
      hc => by
    cases h
    exact .pure ⟨f, m, rfl, .refl slots f, hs⟩
  | ret _ none, S, L, K, n, part, slots, σ, heap, f, m, callers, ht, hL, hp, ha, h, hσ, hs, hc => by
    cases h
    exact .steps (.exec (includes_cons.1 hc).1 rfl) (.pure ⟨m, rfl, hs.toAgrees⟩)
  | ret _ (some e), S, L, K, n, part, slots, σ, heap, f, m, callers, ht, hL, hp, ha, h, hσ, hs,
      hc => by
    obtain ⟨-, he, hf⟩ := ht
    simp only [lower, bind_eq_ok] at h
    obtain ⟨value, hval, h⟩ := h
    cases h
    obtain ⟨hc, hret⟩ := includes_append.1 hc
    obtain ⟨hc, hcoerce⟩ := includes_append.1 hc
    simp only [watch]
    refine .bind (Expr.value_matched hk hi hm hL hp he hval hσ hs hc) fun v τ t h => ?_
    obtain ⟨⟨hv, -⟩, m₁, rfl, hs₁⟩ := h
    refine .bind (.passed hf hv) fun _ υ t h => ?_
    obtain ⟨rfl, rfl, hv'⟩ := h
    rw [hL.result] at hcoerce hret
    rw [List.length_append, ← Nat.add_assoc] at hret
    refine .steps (coercion_steps hv hv' hcoerce) ?_
    exact .steps (.exec (includes_cons.1 hret).1 rfl) (.pure ⟨m₁, rfl, hs₁.toAgrees⟩)

theorem lowerAll_matched (hk : Knows R functions) (hi : CallsSafe R invoke)
    (hm : CallsMatched code R functions invoke) : (ss : List Stmt) → ∀ {S : Scopes} {L K : Layout}
      {n : Nat} {part : List Instruction} {slots : List Nat} {σ : Scene}
      {heap : List (List Reference)} {f : Frame} {m : State} {callers : List Frame},
    TypedAll R result S ss → L.Sees R result S → L.Placed → L.Apart slots →
    lowerAll L n ss = .ok (part, K) → σ.Conforms R S → Shows L f heap σ m →
    Includes f.code n part →
    (watchAll functions invoke result ss σ).Matched code R (m.resume (f.before n []) callers)
      (Arrives K f slots heap callers (n + part.length) result)
  | [], S, L, K, n, part, slots, σ, heap, f, m, callers, ht, hL, hp, ha, h, hσ, hs, hc => by
    cases h
    exact .pure ⟨f, m, rfl, .refl slots f, hs⟩
  | s :: ss, S, L, K, n, part, slots, σ, heap, f, m, callers, ht, hL, hp, ha, h, hσ, hs, hc => by
    simp only [lowerAll, bind_eq_ok] at h
    obtain ⟨⟨one, K'⟩, hone, ⟨more, K''⟩, hmore, h⟩ := h
    cases h
    have hb := lower_behind ht.1 hL hp hone
    obtain ⟨hc, hcm⟩ := includes_append.1 hc
    simp only [watchAll]
    refine .bind ((lower_matched hk hi hm s ht.1 hL hp ha hone hσ hs hc).safe
      (watch_safe hk hi s ht.1 σ hσ)) fun flow τ t h => ?_
    obtain ⟨hends, harr⟩ := h
    cases flow with
    | returned v => exact .pure harr
    | normal =>
      obtain ⟨g, m₁, rfl, hkeep, hs₁⟩ := harr
      rw [List.length_append, ← Nat.add_assoc]
      exact (lowerAll_matched hk hi hm ss ht.2 hb.sees hb.placed (ha.grows hb.grows) hmore
        (hends.normal rfl).1 hs₁ (hkeep.code ▸ hcm)).mono fun flow υ t h => h.of_keeps hkeep

end

end

end Stmt

end CatScript
