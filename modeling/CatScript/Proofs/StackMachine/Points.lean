import CatScript.Stmt
import CatScript.StackMachine.Step

/-!
# Points

A point is what is known of a frame before an instruction: the kinds of the values on the
operand stack, the kinds of some locals, which locals hold iterators, and one fact about the
iterator of the loop at whose head the frame stands. An instruction is allowed at a point if it
finds what it needs there, and the points behind it are what its rule says
(`Point.Allows`). The rules make no use of values, so they can be checked on the code alone.

An allowed instruction that is neither a call nor a return runs into no fault but a tolerated
one, and leads to a frame that meets the point behind it (`exec_yields`).
-/
namespace CatScript

namespace StackMachine

/-- How a value is held. -/
inductive Kind where
  | native
  | reference
  deriving DecidableEq, Repr

def Slot.kind : Slot → Kind
  | native _ => .native
  | reference _ => .reference

end StackMachine

/-- How lowered code holds the values of a type. -/
def Ty.kind (t : Ty) : StackMachine.Kind := if t.isNative then .native else .reference

namespace StackMachine

open Code (Instruction Jump)

/-! ## Points and frames -/

/-- What is known of the iterator of a loop at the head of the loop. -/
inductive Fact where
  | nothing
  | iterator           -- the topmost value is an iterator
  | top (slot : Nat)   -- the topmost value is the iterator in the local
  | more (slot : Nat)  -- the topmost number is 0, or the iterator in the local has items
  | ready (slot : Nat) -- the iterator in the local has items
  | full               -- the topmost value is an iterator that has items
  deriving DecidableEq, Repr

structure Point where
  stack : List Kind           -- topmost first
  slots : List (Nat × Kind)   -- locals of which the kind is known
  iterators : List Nat        -- locals that hold an iterator
  fact : Fact

/-- The point with another stack and no fact. -/
def Point.having (P : Point) (stack : List Kind) : Point :=
  { P with stack := stack, fact := .nothing }

/-- The point behind a store into a local. -/
def Point.stored (P : Point) (n : Nat) (k : Kind) (stack : List Kind) : Point where
  stack := stack
  slots := (n, k) :: P.slots.filter (·.1 ≠ n)
  iterators := (if P.fact = .iterator then [n] else []) ++ P.iterators.filter (· ≠ n)
  fact := .nothing

/-- The iterator still has items. -/
def HasItems (heap : List (List Reference)) (id : Nat) : Prop := (heap[id]?).getD [] ≠ []

namespace Frame

def Holds (heap : List (List Reference)) (f : Frame) : Fact → Prop
  | .nothing => True
  | .iterator => ∃ id rest, f.stack = .reference (.iterator id) :: rest
  | .top n => ∃ id rest, f.stack = .reference (.iterator id) :: rest ∧
      f.load n = .reference (.iterator id)
  | .more n => ∃ v rest id, f.stack = .native v :: rest ∧ f.load n = .reference (.iterator id) ∧
      (v ≠ 0 → HasItems heap id)
  | .ready n => ∃ id, f.load n = .reference (.iterator id) ∧ HasItems heap id
  | .full => ∃ id rest, f.stack = .reference (.iterator id) :: rest ∧ HasItems heap id

structure Meets (heap : List (List Reference)) (P : Point) (f : Frame) : Prop where
  stack : f.stack.map Slot.kind = P.stack
  slots : ∀ b ∈ P.slots, (f.load b.1).kind = b.2
  iterators : ∀ n ∈ P.iterators, ∃ id, f.load n = .reference (.iterator id)
  fact : f.Holds heap P.fact

end Frame

/-- Everything known at the second point is known at the first. -/
structure Point.Implies (P Q : Point) : Prop where
  stack : Q.stack = P.stack
  slots : ∀ b ∈ Q.slots, b ∈ P.slots
  iterators : ∀ n ∈ Q.iterators, n ∈ P.iterators
  fact : Q.fact = .nothing ∨ Q.fact = P.fact

theorem Point.Implies.refl (P : Point) : P.Implies P :=
  ⟨rfl, fun _ h => h, fun _ h => h, .inr rfl⟩

theorem Frame.Meets.weaken {heap : List (List Reference)} {P Q : Point} {f : Frame}
    (h : f.Meets heap P) (hPQ : P.Implies Q) : f.Meets heap Q := by
  refine ⟨h.stack.trans hPQ.stack.symm, fun b hb => h.slots b (hPQ.slots b hb),
    fun n hn => h.iterators n (hPQ.iterators n hn), ?_⟩
  rcases hPQ.fact with hf | hf
  · rw [hf]
    trivial
  · rw [hf]
    exact h.fact

/-- The offset of a frame plays no part in what it meets. -/
theorem Frame.Meets.withNext {heap : List (List Reference)} {P : Point} {f : Frame}
    (h : f.Meets heap P) (n : Nat) : { f with next := n }.Meets heap P := by
  refine ⟨h.stack, h.slots, h.iterators, ?_⟩
  have hf := h.fact
  revert hf
  cases P.fact <;> exact id

/-! ## Allowed instructions -/

/-- What code refers to outside of its method. -/
structure World where
  functions : Table Signature
  globals : Table Ty

/-- What is known behind a test, where it is not 0. -/
def Fact.afterTest : Fact → Fact
  | .more n => .ready n
  | _ => .nothing

/-- The kinds of the arguments of a function, the last one on top. -/
def argumentKinds (s : Signature) : List Kind := (s.params.map fun p => p.2.kind).reverse

/-- The instruction finds what it needs at the point, in a method with the given result. `next`
says what may be known at the instruction behind it, and `goto` at a target. -/
def Point.Allows (W : World) (result : Ty) (next : Point → Prop) (goto : Nat → Point → Prop)
    (P : Point) : Instruction → Prop
  | .pushInt _ => next (P.having (.native :: P.stack))
  | .pushString _ | .pushNull => next (P.having (.reference :: P.stack))
  | .box _ => ∃ st, P.stack = .native :: st ∧ next (P.having (.reference :: st))
  | .unbox => ∃ st, P.stack = .reference :: st ∧ next (P.having (.native :: st))
  | .pop => ∃ k st, P.stack = k :: st ∧ next (P.having st)
  | .getGlobal x => ∃ t, W.globals.find? x = some t ∧ next (P.having (t.kind :: P.stack))
  | .putGlobal x =>
    ∃ t st, W.globals.find? x = some t ∧ P.stack = t.kind :: st ∧ next (P.having st)
  | .loadLocal n =>
    (∃ k, (n, k) ∈ P.slots ∧ next (P.having (k :: P.stack))) ∨
      (n ∈ P.iterators ∧ next { P with
        stack := .reference :: P.stack
        fact := if P.fact = .ready n then .full else .top n })
  | .storeLocal n => ∃ k st, P.stack = k :: st ∧ next (P.stored n k st)
  | .add | .sub | .mul | .div =>
    ∃ st, P.stack = .native :: .native :: st ∧ next (P.having (.native :: st))
  | .neg => ∃ st, P.stack = .native :: st ∧ next (P.having (.native :: st))
  | .concat => ∃ st, P.stack = .reference :: .reference :: st ∧ next (P.having (.reference :: st))
  | .equals => ∃ st, P.stack = .reference :: .reference :: st ∧ next (P.having (.native :: st))
  | .makeList n =>
    ∃ st, P.stack = List.replicate n .reference ++ st ∧ next (P.having (.reference :: st))
  | .getIterator =>
    ∃ st, P.stack = .reference :: st ∧ next { P with stack := .reference :: st, fact := .iterator }
  | .hasNext =>
    ∃ n st, P.fact = .top n ∧ P.stack = .reference :: st ∧
      next { P with stack := .native :: st, fact := .more n }
  | .next => ∃ st, P.fact = .full ∧ P.stack = .reference :: st ∧ next (P.having (.reference :: st))
  | .print => ∃ st, P.stack = .reference :: st ∧ next (P.having st)
  | .invoke f arity =>
    ∃ s st, W.functions.find? f = some s ∧ s.params.length = arity ∧
      P.stack = argumentKinds s ++ st ∧
      next (P.having (if s.result = .void then st else s.result.kind :: st))
  | .ret => result = .void
  | .retValue => result ≠ .void ∧ ∃ st, P.stack = result.kind :: st
  | .jump .always t => goto t (P.having P.stack)
  | .jump .ifTrue t =>
    ∃ st, P.stack = .native :: st ∧ goto t (P.having st) ∧ next (P.having st)
  | .jump .ifFalse t =>
    ∃ st, P.stack = .native :: st ∧ goto t (P.having st) ∧
      next { P with stack := st, fact := P.fact.afterTest }
  | .jump _ t =>
    ∃ st, P.stack = .native :: .native :: st ∧ goto t (P.having st) ∧ next (P.having st)

/-- The faults that lowered code may run into: those of the values it works on. A reference is
unboxed that is no number and no truth value; the others say for themselves what is wrong. -/
def Tolerated (i : Instruction) (f : Frame) : Fault → Prop
  | .stackUnderflow | .expectedReference _ | .undefinedMethod _ => False
  | .expectedNative text =>
    i = .unbox ∧ ∃ r rest, f.stack = .reference r :: rest ∧ (∀ n, r ≠ .int n) ∧
      (∀ b, r ≠ .bool b) ∧ text = r.display
  | .divisionByZero | .undefinedGlobal _ | .notIterable _ => True

/-! ## Taking values from a stack of known kinds -/

/-- A result that has the property, or a fault that is tolerated. -/
def Yields {α : Type} (tolerated : Fault → Prop) (post : α → Prop) : Except Fault α → Prop
  | .ok a => post a
  | .error fault => tolerated fault

variable {heap : List (List Reference)} {tolerated : Fault → Prop}

theorem Yields.bind {α β : Type} {mid : α → Prop} {post : β → Prop} {x : Except Fault α}
    {k : α → Except Fault β} (h : Yields tolerated mid x)
    (hk : ∀ a, mid a → Yields tolerated post (k a)) : Yields tolerated post (x >>= k) := by
  cases x with
  | error fault => exact h
  | ok a => exact hk a h

namespace Frame

variable {f : Frame} {st : List Kind}

theorem pop_yields {k : Kind} (h : f.stack.map Slot.kind = k :: st) :
    Yields tolerated (fun r => r.1.kind = k ∧ f.stack = r.1 :: r.2.stack ∧
      r.2.stack.map Slot.kind = st ∧ r.2 = { f with stack := r.2.stack }) f.pop := by
  cases hs : f.stack with
  | nil => simp [hs] at h
  | cons v rest =>
    simp only [hs, List.map_cons, List.cons.injEq] at h
    simp only [pop, hs]
    exact ⟨h.1, rfl, h.2, rfl⟩

theorem popNative_yields (h : f.stack.map Slot.kind = .native :: st) :
    Yields tolerated (fun r => f.stack = .native r.1 :: r.2.stack ∧
      r.2.stack.map Slot.kind = st ∧ r.2 = { f with stack := r.2.stack }) f.popNative := by
  refine (pop_yields h).bind ?_
  rintro ⟨v, f'⟩ ⟨hk, hv, hst, he⟩
  cases v with
  | native n => exact ⟨hv, hst, he⟩
  | reference r => cases hk

theorem popReference_yields (h : f.stack.map Slot.kind = .reference :: st) :
    Yields tolerated (fun r => f.stack = .reference r.1 :: r.2.stack ∧
      r.2.stack.map Slot.kind = st ∧ r.2 = { f with stack := r.2.stack }) f.popReference := by
  refine (pop_yields h).bind ?_
  rintro ⟨v, f'⟩ ⟨hk, hv, hst, he⟩
  cases v with
  | native n => cases hk
  | reference r => exact ⟨hv, hst, he⟩

theorem popIterator_eq {id : Nat} {rest : List Slot}
    (h : f.stack = .reference (.iterator id) :: rest) :
    f.popIterator = .ok (id, { f with stack := rest }) := by
  simp only [popIterator, popReference, pop, h]
  rfl

theorem onNumbers_yields {op : Int64 → Int64 → Except Fault Int64}
    (hop : ∀ a b, Yields tolerated (fun _ => True) (op a b))
    (h : f.stack.map Slot.kind = .native :: .native :: st) :
    Yields tolerated (fun f' => f'.stack.map Slot.kind = .native :: st ∧
      f' = { f with stack := f'.stack }) (f.onNumbers op) := by
  refine (popNative_yields h).bind ?_
  rintro ⟨b, f₁⟩ ⟨-, h₁, he₁⟩
  refine (popNative_yields h₁).bind ?_
  rintro ⟨a, f₂⟩ ⟨-, h₂, he₂⟩
  refine (hop a b).bind fun c _ => ?_
  refine ⟨?_, ?_⟩
  · simp only [pushNative, push, List.map_cons, h₂]
    rfl
  · simp only at he₁ he₂
    rw [he₂, he₁]
    rfl

theorem popMany_yields {ks : List Kind} (h : f.stack.map Slot.kind = ks ++ st) :
    Yields tolerated (fun r => r.1.map Slot.kind = ks.reverse ∧
      r.2.stack.map Slot.kind = st ∧ r.2 = { f with stack := r.2.stack })
      (f.popMany ks.length) := by
  have hl : f.stack.length = ks.length + st.length := by
    simpa using congrArg List.length h
  simp only [popMany, show ¬f.stack.length < ks.length by omega, if_false]
  refine ⟨?_, ?_, rfl⟩
  · rw [List.map_reverse, List.map_take, h, List.take_left]
  · rw [List.map_drop, h, List.drop_left]

theorem load_store (f : Frame) (n m : Nat) (v : Slot) :
    (f.store n v).load m = if m = n then v else f.load m := by
  simp only [store, load, List.getElem?_set]
  by_cases hm : m = n
  · subst hm
    have hl : m < (f.locals ++ List.replicate (m + 1 - f.locals.length) Slot.unset).length := by
      simp only [List.length_append, List.length_replicate]
      omega
    simp only [if_true, hl, Option.getD_some]
  · simp only [hm, Ne.symm hm, if_false]
    by_cases hl : m < f.locals.length
    · rw [List.getElem?_append_left hl]
    · have hl : f.locals.length ≤ m := by omega
      rw [List.getElem?_append_right hl, List.getElem?_eq_none hl]
      cases h : (List.replicate (n + 1 - f.locals.length) Slot.unset)[m - f.locals.length]? with
      | none => rfl
      | some w =>
        simp only [List.getElem?_replicate] at h
        split at h <;> simp_all

end Frame

theorem references_yields {slots : List Slot}
    (h : slots.map Slot.kind = List.replicate slots.length .reference) :
    Yields tolerated (fun _ => True) (references slots) := by
  induction slots with
  | nil => trivial
  | cons v slots ih =>
    simp only [List.map_cons, List.length_cons, List.replicate_succ, List.cons.injEq] at h
    cases v with
    | native n => cases h.1
    | reference r =>
      have := ih h.2
      simp only [references]
      cases hr : references slots with
      | ok rs => trivial
      | error fault => rw [hr] at this; exact this

/-! ## Running an allowed instruction -/

/-- The globals are held as their types say. -/
def World.Holds (W : World) (globals : Table Slot) : Prop :=
  ∀ x t v, W.globals.find? x = some t → globals.find? x = some v → v.kind = t.kind

/-- Calls and returns, which change the pile of frames. -/
def Transfers : Instruction → Prop
  | .invoke _ _ | .ret | .retValue => True
  | _ => False

variable {P : Point} {f : Frame} {st : List Kind}

/-- A frame that differs only in the stack and in its offset. -/
theorem Frame.Meets.having (h : f.Meets heap P) (heap' : List (List Reference)) {f' : Frame}
    (hst : f'.stack.map Slot.kind = st) (hf : f'.locals = f.locals) :
    f'.Meets heap' (P.having st) := by
  have hload : ∀ n, f'.load n = f.load n := fun n => by simp only [Frame.load, hf]
  refine ⟨hst, fun b hb => ?_, fun n hn => ?_, trivial⟩
  · rw [hload]
    exact h.slots b hb
  · rw [hload]
    exact h.iterators n hn

/-- A frame that differs only in the stack, and of which a fact is known. -/
theorem Frame.Meets.knowing (h : f.Meets heap P) (heap' : List (List Reference)) {f' : Frame}
    {fact : Fact} (st : List Kind) (hst : f'.stack.map Slot.kind = st) (hf : f'.locals = f.locals)
    (hfact : f'.Holds heap' fact) : f'.Meets heap' { P with stack := st, fact := fact } :=
  have h' := h.having heap' hst hf
  ⟨hst, h'.slots, h'.iterators, hfact⟩

/-- Storing a value into a local. -/
theorem Frame.Meets.stored (h : f.Meets heap P) {v : Slot} {rest : List Slot}
    (hs : f.stack = v :: rest) (n : Nat) (hst : rest.map Slot.kind = st) :
    ({ f with stack := rest }.store n v).Meets heap (P.stored n v.kind st) := by
  have hload : ∀ m, ({ f with stack := rest }.store n v).load m = if m = n then v else f.load m :=
    fun m => Frame.load_store { f with stack := rest } n m v
  refine ⟨hst, fun b hb => ?_, fun m hm => ?_, trivial⟩
  · rw [hload]
    rcases List.mem_cons.1 hb with rfl | hb
    · simp
    · obtain ⟨hb, hne⟩ := List.mem_filter.1 hb
      rw [if_neg (of_decide_eq_true hne)]
      exact h.slots b hb
  · rw [hload]
    rcases List.mem_append.1 hm with hm | hm
    · split at hm
      · next hf =>
        have hfact := h.fact
        rw [hf] at hfact
        obtain ⟨id, rest', he⟩ := hfact
        rw [hs, List.cons.injEq] at he
        exact ⟨id, by rw [if_pos (List.mem_singleton.1 hm), he.1]⟩
      · cases hm
    · obtain ⟨hm, hne⟩ := List.mem_filter.1 hm
      rw [if_neg (of_decide_eq_true hne)]
      exact h.iterators m hm

/-- What an instruction that is no transfer does to a state: the frame goes on to a point behind
the instruction, and the frames below it stay as they are. -/
def Advances (W : World) (next : Point → Prop) (goto : Nat → Point → Prop) (f : Frame)
    (callers : List Frame) (s : State) : Prop :=
  ∃ f' Q, s.frames = f' :: callers ∧ f'.code = f.code ∧ f'.Meets s.heap Q ∧ W.Holds s.globals ∧
    (f'.next = f.next ∧ next Q ∨ goto f'.next Q)

section

variable {W : World} {result : Ty} {next : Point → Prop} {goto : Nat → Point → Prop}
  {code : Code} {s : State} {callers : List Frame}

/-- The usual way on: only the stack is another. -/
theorem Advances.of_stack (hm : f.Meets heap P) {s' : State} {f' : Frame}
    (hs : s'.frames = f' :: callers) (hf : f' = { f with stack := f'.stack })
    (hst : f'.stack.map Slot.kind = st) (hg : W.Holds s'.globals) (hn : next (P.having st)) :
    Advances W next goto f callers s' := by
  have hl : f'.locals = f.locals := by rw [hf]
  exact ⟨f', _, hs, by rw [hf], hm.having s'.heap hst hl, hg, .inl ⟨by rw [hf], hn⟩⟩

theorem World.Holds.insert {globals : Table Slot} (h : W.Holds globals) {x : String} {t : Ty}
    {v : Slot} (ht : W.globals.find? x = some t) (hv : v.kind = t.kind) :
    W.Holds (globals.insert x v) := by
  intro y u w hu hw
  rw [Table.find?_insert] at hw
  split at hw
  · next he =>
    cases hw
    rw [he, ht] at hu
    cases hu
    exact hv
  · exact h y u w hu hw

/-- An operation on two numbers. -/
private theorem exec_onNumbers (i : Instruction) {op : Int64 → Int64 → Except Fault Int64}
    (hop : ∀ a b, Yields (Tolerated i f) (fun _ => True) (op a b)) (hm : f.Meets s.heap P)
    (hg : W.Holds s.globals) (hst : P.stack = .native :: .native :: st)
    (hn : next (P.having (.native :: st))) :
    Yields (Tolerated i f) (Advances W next goto f callers)
      (f.onNumbers op >>= fun f => .ok (s.resume f callers)) := by
  refine (Frame.onNumbers_yields hop (hm.stack.trans hst)).bind fun f' h => ?_
  exact Advances.of_stack hm rfl h.2 h.1 hg hn

/-- An operation on two references. -/
private theorem exec_onReferences (i : Instruction) {g : Reference → Reference → Slot} {k : Kind}
    (hk : ∀ a b, (g a b).kind = k) (hm : f.Meets s.heap P) (hg : W.Holds s.globals)
    (hst : P.stack = .reference :: .reference :: st) (hn : next (P.having (k :: st))) :
    Yields (Tolerated i f) (Advances W next goto f callers) (do
      let (b, f) ← f.popReference
      let (a, f) ← f.popReference
      .ok (s.resume (f.push (g a b)) callers)) := by
  refine (Frame.popReference_yields (hm.stack.trans hst)).bind ?_
  rintro ⟨b, f₁⟩ ⟨-, h₁, he₁⟩
  refine (Frame.popReference_yields h₁).bind ?_
  rintro ⟨a, f₂⟩ ⟨-, h₂, he₂⟩
  refine Advances.of_stack hm rfl ?_ ?_ hg hn
  · simp only at he₁ he₂
    rw [he₂, he₁]
    rfl
  · simp only [Frame.push, List.map_cons, h₂, hk]

/-- A test of two numbers, of which no fact is known. -/
private theorem test_yields (h : f.stack.map Slot.kind = .native :: .native :: st)
    (test : Int64 → Int64 → Bool) :
    Yields tolerated (fun r => r.2.stack.map Slot.kind = st ∧ r.2 = { f with stack := r.2.stack })
      (do
        let (b, f) ← f.popNative
        let (a, f) ← f.popNative
        .ok (test a b, f)) := by
  refine (Frame.popNative_yields h).bind ?_
  rintro ⟨b, f₁⟩ ⟨-, h₁, he₁⟩
  refine (Frame.popNative_yields h₁).bind ?_
  rintro ⟨a, f₂⟩ ⟨-, h₂, he₂⟩
  refine ⟨h₂, ?_⟩
  simp only at he₁ he₂
  rw [he₂, he₁]

private theorem taken_yields {j : Jump} (hj : j ≠ .always) (hj' : j ≠ .ifTrue) (hj'' : j ≠ .ifFalse)
    (h : f.stack.map Slot.kind = .native :: .native :: st) :
    Yields tolerated (fun r => r.2.stack.map Slot.kind = st ∧ r.2 = { f with stack := r.2.stack })
      (taken j f) := by
  cases j with
  | always => exact absurd rfl hj
  | ifTrue => exact absurd rfl hj'
  | ifFalse => exact absurd rfl hj''
  | ifEq => exact test_yields h fun a b => a == b
  | ifNe => exact test_yields h fun a b => a != b
  | ifLt => exact test_yields h fun a b => decide (a < b)
  | ifLe => exact test_yields h fun a b => decide (a ≤ b)
  | ifGt => exact test_yields h fun a b => decide (b < a)
  | ifGe => exact test_yields h fun a b => decide (b ≤ a)

/-- A jump goes to its target or on, with the stack that it leaves. -/
private theorem Advances.of_jump (hm : f.Meets s.heap P) (hg : W.Holds s.globals) {f' : Frame}
    (hf : f' = { f with stack := f'.stack }) (hst : f'.stack.map Slot.kind = st) {target : Nat}
    {b : Bool} (ht : b = true → goto target (P.having st)) (hn : b = false → next (P.having st)) :
    Advances W next goto f callers
      (s.resume (if b then { f' with next := target } else f') callers) := by
  cases b with
  | false => exact Advances.of_stack hm rfl hf hst hg (hn rfl)
  | true =>
    refine ⟨_, _, rfl, by rw [hf]; rfl, hm.having s.heap hst ?_, hg, .inr (ht rfl)⟩
    rw [hf]
    rfl

private theorem exec_jump {j : Jump} {target : Nat}
    (ha : P.Allows W result next goto (.jump j target)) (hm : f.Meets s.heap P)
    (hg : W.Holds s.globals) :
    Yields (Tolerated (.jump j target) f) (Advances W next goto f callers)
      (exec code s f callers (.jump j target)) := by
  have compare (hj : j ≠ .always) (hj' : j ≠ .ifTrue) (hj'' : j ≠ .ifFalse)
      (ha : ∃ st, P.stack = .native :: .native :: st ∧ goto target (P.having st) ∧
        next (P.having st)) :
      Yields (Tolerated (.jump j target) f) (Advances W next goto f callers)
        (exec code s f callers (.jump j target)) := by
    obtain ⟨st, hst, ht, hn⟩ := ha
    refine (taken_yields hj hj' hj'' (hm.stack.trans hst)).bind ?_
    rintro ⟨b, f'⟩ ⟨h, he⟩
    exact Advances.of_jump hm hg he h (fun _ => ht) fun _ => hn
  cases j with
  | always => exact Advances.of_jump hm hg rfl hm.stack (fun _ => ha) nofun
  | ifTrue =>
    obtain ⟨st, hst, ht, hn⟩ := ha
    have h : Yields (Tolerated (.jump .ifTrue target) f) (fun r =>
        r.2.stack.map Slot.kind = st ∧ r.2 = { f with stack := r.2.stack }) (taken .ifTrue f) := by
      refine (Frame.popNative_yields (hm.stack.trans hst)).bind ?_
      rintro ⟨n, f'⟩ ⟨-, h, he⟩
      exact ⟨h, he⟩
    refine h.bind ?_
    rintro ⟨b, f'⟩ ⟨h, he⟩
    exact Advances.of_jump hm hg he h (fun _ => ht) fun _ => hn
  | ifFalse =>
    obtain ⟨st, hst, ht, hn⟩ := ha
    have h : Yields (Tolerated (.jump .ifFalse target) f) (fun r => ∃ n,
        r.1 = (n == 0) ∧ f.stack = .native n :: r.2.stack ∧ r.2.stack.map Slot.kind = st ∧
          r.2 = { f with stack := r.2.stack }) (taken .ifFalse f) := by
      refine (Frame.popNative_yields (hm.stack.trans hst)).bind ?_
      rintro ⟨n, f'⟩ ⟨hs, h, he⟩
      exact ⟨n, rfl, hs, h, he⟩
    refine h.bind ?_
    rintro ⟨b, f'⟩ ⟨n, hb, hs, h, he⟩
    have hl : f'.locals = f.locals := by
      simp only at he
      rw [he]
    cases b with
    | true => exact Advances.of_jump hm hg he h (fun _ => ht) nofun
    | false =>
      refine ⟨f', _, rfl, by simp only at he; rw [he], hm.knowing s.heap st h hl ?_, hg,
        .inl ⟨by simp only at he; rw [he], hn⟩⟩
      -- behind a test that came out true, the iterator has items if the number said so
      have hfact := hm.fact
      cases hp : P.fact with
      | more m =>
        rw [hp] at hfact
        obtain ⟨v, rest, id, hv, hload, hitems⟩ := hfact
        simp only [hs, List.cons.injEq, Slot.native.injEq] at hv
        refine ⟨id, by simp only [Frame.load, hl]; exact hload, hitems ?_⟩
        rintro rfl
        simp [hv.1] at hb
      | _ => trivial
  | _ => exact compare nofun nofun nofun ha

/-- What the instructions of a loop do to its iterator. -/
private theorem exec_iterator {i : Instruction} (hi : i = .getIterator ∨ i = .hasNext ∨ i = .next)
    (ha : P.Allows W result next goto i) (hm : f.Meets s.heap P) (hg : W.Holds s.globals) :
    Yields (Tolerated i f) (Advances W next goto f callers) (exec code s f callers i) := by
  rcases hi with rfl | rfl | rfl
  · obtain ⟨st, hst, hn⟩ := ha
    refine (Frame.popReference_yields (hm.stack.trans hst)).bind ?_
    rintro ⟨r, f'⟩ ⟨-, h, he⟩
    simp only at he
    cases r with
    | list items =>
      refine ⟨_, _, rfl, by rw [he]; rfl, hm.knowing _ (.reference :: st) ?_ ?_ ?_, hg,
        .inl ⟨by rw [he]; rfl, hn⟩⟩
      · simp only [Frame.pushReference, Frame.push, List.map_cons, h]
        rfl
      · rw [he]
        rfl
      · exact ⟨_, _, rfl⟩
    | _ => trivial
  · obtain ⟨n, st, hfact, hst, hn⟩ := ha
    have hold := hm.fact
    rw [hfact] at hold
    obtain ⟨id, rest, hs, hload⟩ := hold
    have hrest : rest.map Slot.kind = st := by
      have := hm.stack.trans hst
      rw [hs, List.map_cons, List.cons.injEq] at this
      exact this.2
    simp only [exec, Frame.popIterator_eq hs]
    refine ⟨_, _, rfl, rfl, hm.knowing s.heap (.native :: st) ?_ rfl ?_, hg, .inl ⟨rfl, hn⟩⟩
    · simp only [Frame.pushTruth, Frame.pushNative, Frame.push, List.map_cons, hrest]
      rfl
    · refine ⟨_, _, id, rfl, hload, fun hne hitems => hne ?_⟩
      simp [hitems]
  · obtain ⟨st, hfact, hst, hn⟩ := ha
    have hold := hm.fact
    rw [hfact] at hold
    obtain ⟨id, rest, hs, hitems⟩ := hold
    have hrest : rest.map Slot.kind = st := by
      have := hm.stack.trans hst
      rw [hs, List.map_cons, List.cons.injEq] at this
      exact this.2
    simp only [exec, Frame.popIterator_eq hs]
    cases hh : (s.heap[id]?).getD [] with
    | nil => exact absurd hh hitems
    | cons r items =>
      simp only [bind, Except.bind, hh]
      refine Advances.of_stack hm rfl rfl ?_ hg hn
      simp only [Frame.pushReference, Frame.push, List.map_cons, hrest]
      rfl

private theorem exec_loadLocal {n : Nat} (ha : P.Allows W result next goto (.loadLocal n))
    (hm : f.Meets s.heap P) (hg : W.Holds s.globals) :
    Yields (Tolerated (.loadLocal n) f) (Advances W next goto f callers)
      (exec code s f callers (.loadLocal n)) := by
  rcases ha with ⟨k, hk, hn⟩ | ⟨hit, hn⟩
  · refine Advances.of_stack hm rfl rfl ?_ hg hn
    simp only [Frame.push, List.map_cons, hm.stack, hm.slots _ hk]
  · obtain ⟨id, hid⟩ := hm.iterators n hit
    refine ⟨_, _, rfl, rfl, hm.knowing s.heap (.reference :: P.stack) ?_ rfl ?_, hg,
      .inl ⟨rfl, hn⟩⟩
    · simp only [Frame.push, List.map_cons, hm.stack, hid]
      rfl
    · split
      · next hready =>
        have hold := hm.fact
        rw [hready] at hold
        obtain ⟨id', hid', hitems⟩ := hold
        exact ⟨id', _, by rw [Frame.push, hid'], hitems⟩
      · exact ⟨id, _, by rw [Frame.push, hid], hid⟩

/-- An allowed instruction that is no transfer goes on to a point behind it, or fails as is
tolerated. -/
theorem exec_yields {i : Instruction} (hi : ¬Transfers i) (ha : P.Allows W result next goto i)
    (hm : f.Meets s.heap P) (hg : W.Holds s.globals) :
    Yields (Tolerated i f) (Advances W next goto f callers) (exec code s f callers i) := by
  cases i with
  | pushInt n =>
    refine Advances.of_stack hm rfl rfl ?_ hg ha
    simp only [Frame.pushNative, Frame.push, List.map_cons, hm.stack]
    rfl
  | pushString v =>
    refine Advances.of_stack hm rfl rfl ?_ hg ha
    simp only [Frame.pushReference, Frame.push, List.map_cons, hm.stack]
    rfl
  | pushNull =>
    refine Advances.of_stack hm rfl rfl ?_ hg ha
    simp only [Frame.pushReference, Frame.push, List.map_cons, hm.stack]
    rfl
  | box native =>
    obtain ⟨st, hst, hn⟩ := ha
    refine (Frame.popNative_yields (hm.stack.trans hst)).bind ?_
    rintro ⟨n, f'⟩ ⟨-, h, he⟩
    refine Advances.of_stack hm rfl (by simp only at he; rw [he]; rfl) ?_ hg hn
    simp only [Frame.pushReference, Frame.push, List.map_cons, h]
    rfl
  | unbox =>
    obtain ⟨st, hst, hn⟩ := ha
    refine (Frame.popReference_yields (hm.stack.trans hst)).bind ?_
    rintro ⟨r, f'⟩ ⟨hs, h, he⟩
    simp only at he
    cases r with
    | int n =>
      refine Advances.of_stack hm rfl (by rw [he]; rfl) ?_ hg hn
      simp only [Frame.pushNative, Frame.push, List.map_cons, h]
      rfl
    | bool b =>
      refine Advances.of_stack hm rfl (by rw [he]; rfl) ?_ hg hn
      simp only [Frame.pushTruth, Frame.pushNative, Frame.push, List.map_cons, h]
      rfl
    | _ => exact ⟨rfl, _, _, hs, nofun, nofun, rfl⟩
  | pop =>
    obtain ⟨k, st, hst, hn⟩ := ha
    refine (Frame.pop_yields (hm.stack.trans hst)).bind ?_
    rintro ⟨v, f'⟩ ⟨-, -, h, he⟩
    exact Advances.of_stack hm rfl he h hg hn
  | getGlobal x =>
    obtain ⟨t, ht, hn⟩ := ha
    simp only [exec]
    cases hx : s.globals.find? x with
    | none => trivial
    | some v =>
      refine Advances.of_stack hm rfl rfl ?_ hg hn
      simp only [Frame.push, List.map_cons, hm.stack, hg x t v ht hx]
  | putGlobal x =>
    obtain ⟨t, st, ht, hst, hn⟩ := ha
    refine (Frame.pop_yields (hm.stack.trans hst)).bind ?_
    rintro ⟨v, f'⟩ ⟨hk, -, h, he⟩
    exact Advances.of_stack hm rfl he h (hg.insert ht hk) hn
  | loadLocal n => exact exec_loadLocal ha hm hg
  | storeLocal n =>
    obtain ⟨k, st, hst, hn⟩ := ha
    refine (Frame.pop_yields (hm.stack.trans hst)).bind ?_
    rintro ⟨v, f'⟩ ⟨hk, hs, h, he⟩
    simp only at he hk
    subst hk
    rw [he]
    exact ⟨_, _, rfl, rfl, hm.stored hs n h, hg, .inl ⟨rfl, hn⟩⟩
  | add | sub | mul =>
    obtain ⟨st, hst, hn⟩ := ha
    exact exec_onNumbers _ (fun _ _ => trivial) hm hg hst hn
  | div =>
    obtain ⟨st, hst, hn⟩ := ha
    refine exec_onNumbers _ (fun a b => ?_) hm hg hst hn
    split <;> trivial
  | neg =>
    obtain ⟨st, hst, hn⟩ := ha
    refine (Frame.popNative_yields (hm.stack.trans hst)).bind ?_
    rintro ⟨n, f'⟩ ⟨-, h, he⟩
    refine Advances.of_stack hm rfl (by simp only at he; rw [he]; rfl) ?_ hg hn
    simp only [Frame.pushNative, Frame.push, List.map_cons, h]
    rfl
  | concat =>
    obtain ⟨st, hst, hn⟩ := ha
    exact exec_onReferences (g := fun a b => .reference (.str (a.display ++ b.display))) _
      (fun _ _ => rfl) hm hg hst hn
  | equals =>
    obtain ⟨st, hst, hn⟩ := ha
    exact exec_onReferences (g := fun a b => .native (if decide (a = b) then 1 else 0)) _
      (fun _ _ => rfl) hm hg hst hn
  | makeList n =>
    obtain ⟨st, hst, hn⟩ := ha
    have h : Yields (Tolerated (.makeList n) f) _ _ := Frame.popMany_yields (hm.stack.trans hst)
    rw [List.length_replicate] at h
    refine h.bind ?_
    rintro ⟨slots, f'⟩ ⟨hk, h, he⟩
    have hl : slots.length = n := by simpa using congrArg List.length hk
    refine (references_yields (by rw [hl, hk, List.reverse_replicate])).bind fun rs _ => ?_
    refine Advances.of_stack hm rfl (by simp only at he; rw [he]; rfl) ?_ hg hn
    simp only [Frame.pushReference, Frame.push, List.map_cons, h]
    rfl
  | getIterator => exact exec_iterator (.inl rfl) ha hm hg
  | hasNext => exact exec_iterator (.inr (.inl rfl)) ha hm hg
  | next => exact exec_iterator (.inr (.inr rfl)) ha hm hg
  | print =>
    obtain ⟨st, hst, hn⟩ := ha
    refine (Frame.popReference_yields (hm.stack.trans hst)).bind ?_
    rintro ⟨r, f'⟩ ⟨-, h, he⟩
    exact Advances.of_stack hm rfl he h hg hn
  | invoke _ _ | ret | retValue => exact absurd trivial hi
  | jump j target => exact exec_jump ha hm hg

end

end StackMachine

end CatScript
