import CatScript.Proofs.Code.Charts
import CatScript.Proofs.Eval.TypeSafety
import CatScript.Proofs.StackMachine.Steps

/-!
# Runs that the machine matches

From a state of the machine a run of the program is matched if the machine comes to a state as
it should behind the run, or stops with the fault of the run (`Report.Matched`). The rules for
matched runs follow the parts of which watched runs are built. Behind its operands the code of
an operator answers with the value of the operation (`scheme_answers`).

Three faults are matched (`Stops`). At a division by zero and at a loop over something that is no
list the machine stops as the program does. Where the program reads or assigns to a global variable
that has not been declared yet, the machine comes to the same use of it, provided that nothing stops
it before: what is to be assigned has been coerced there, while the program has not looked at its
type.
-/
namespace CatScript

open Typing Code Eval StackMachine

/-! ## Faults -/

/-- A value of a type that fits a declared one is a value of the declared one. -/
def Typing.Rules.Sound (R : Rules) : Prop :=
  ∀ t s v, R.fits t s → Value.Inhabits v s → Value.Inhabits v t

/-- The instruction that is run next. -/
def StackMachine.State.next? (s : State) : Option Instruction :=
  s.frames.head?.bind fun f => f.code[f.next]?

/-- The program has looked up variable `x` in the scene, in vain, and the machine is about to use
the global of that name, which has no value. To read it the machine stops, and to set it it goes
on. -/
structure Misses (code : Code) (access : Access) (x : String) (σ : Scene) (t : State) : Prop where
  output : t.output = σ.output
  unset : t.globals.find? x = none
  used :
    match access with
    | .read => t.next? = some (.getGlobal x) ∧ step code t = .error (.undefinedGlobal x)
    | .write => t.next? = some (.putGlobal x) ∧ ∃ u, step code t = .ok u ∧
      (u.globals.find? x).isSome

namespace Misses

variable {code : Code} {x : String} {σ : Scene} {s : State} {f : Frame} {n : Nat} {st : List Slot}
  {callers : List Frame}

theorem read (hi : f.code[n]? = some (.getGlobal x)) (hx : s.globals.find? x = none)
    (ho : s.output = σ.output) : Misses code .read x σ (s.resume (f.before n st) callers) := by
  refine ⟨ho, hx, hi, ?_⟩
  rw [step_before hi, StackMachine.exec, hx]

theorem write {v : Slot} (hi : f.code[n]? = some (.putGlobal x)) (hx : s.globals.find? x = none)
    (ho : s.output = σ.output) :
    Misses code .write x σ (s.resume (f.before n (v :: st)) callers) := by
  refine ⟨ho, hx, hi, _, step_before hi, ?_⟩
  show ((s.globals.insert x v).find? x).isSome
  rw [Table.find?_insert_self]
  rfl

end Misses

/-- The last of the moments is the use of variable `x` in the scene. -/
def Seeks (moments : List Moment) (access : Access) (x : String) (σ : Scene) : Prop :=
  moments.getLast? = some ⟨σ, .sought access x⟩

theorem Seeks.append {moments : List Moment} {access : Access} {x : String} {σ : Scene}
    (h : Seeks moments access x σ) (before : List Moment) :
    Seeks (before ++ moments) access x σ := by
  rw [Seeks, List.getLast?_append, h, Option.some_or]

/-- The machine stops where the program does, or comes to the use at which the program stops, of a
global that has no value. -/
def Stops (code : Code) (R : Rules) (s : State) (moments : List Moment) : Eval.Halt → Prop
  | .fault .divisionByZero => Fails code s .divisionByZero
  | .fault (.notIterable text) => Fails code s (.notIterable text)
  | .fault (.unboundVariable x) => ∃ access σ, Seeks moments access x σ ∧
    (R.Sound → ∃ t, Steps code s t ∧ Misses code access x σ t)
  | _ => True

theorem StackMachine.Steps.stops {code : Code} {R : Rules} {s t : State} {moments : List Moment}
    {halt : Eval.Halt} (hs : Steps code s t) (h : Stops code R t moments halt) :
    Stops code R s moments halt := by
  unfold Stops at h ⊢
  split at h
  · exact hs.fails h
  · exact hs.fails h
  · obtain ⟨access, σ, hseeks, hmiss⟩ := h
    refine ⟨access, σ, hseeks, fun hR => ?_⟩
    obtain ⟨u, hu, hm⟩ := hmiss hR
    exact ⟨u, hs.trans hu, hm⟩
  · trivial

theorem Stops.append {code : Code} {R : Rules} {s : State} {moments : List Moment}
    {halt : Eval.Halt} (h : Stops code R s moments halt) (before : List Moment) :
    Stops code R s (before ++ moments) halt := by
  unfold Stops at h ⊢
  split at h
  · exact h
  · exact h
  · obtain ⟨access, σ, hseeks, hmiss⟩ := h
    exact ⟨access, σ, hseeks.append before, hmiss⟩
  · trivial

/-! ## Operators -/

/-- The machine goes on with the value of an operation, or stops with its fault. -/
def Answers (code : Code) (R : Rules) (s : State) (r : Except Eval.Fault Value)
    (next : Value → State) : Prop :=
  match r with
  | .ok u => Steps code s (next u)
  | .error fault => Stops code R s [] (.fault fault)

namespace Code

/-- How a scheme wants an operand to be held. -/
def Scheme.hold (sc : Scheme) (v : Value) : Slot :=
  match sc with
  | numbers _ | comparison _ => .native v.number
  | equality _ | joining => .reference v.ref

variable {code : Code} {R : Rules} {s : State} {f : Frame} {n : Nat} {st : List Slot}
  {callers : List Frame} {v w : Value} {l r t : Ty}

theorem isNative_of_kind (h : t.kind = .native) : t.isNative = true := by
  unfold Ty.kind at h
  split at h
  · assumption
  · cases h

/-- An operand is held as its scheme wants it behind the boxing of the scheme. -/
theorem Scheme.boxing_steps {sc : Scheme} (ht : sc.kind = .native → t.kind = .native)
    (hv : v.Inhabits t) (hc : Includes f.code n (sc.boxing t)) :
    Steps code (s.resume (f.before n (v.held t :: st)) callers)
      (s.resume (f.before (n + (sc.boxing t).length) (sc.hold v :: st)) callers) := by
  cases sc with
  | numbers i =>
    rw [Value.held_native (isNative_of_kind (ht rfl))]
    exact .refl _
  | comparison j =>
    rw [Value.held_native (isNative_of_kind (ht rfl))]
    exact .refl _
  | equality j => exact CatScript.boxing_steps hv hc
  | joining => exact CatScript.boxing_steps hv hc

theorem Scheme.Suits.native {sc : Scheme} (h : sc.Suits l r t) (hk : sc.kind = .native) :
    l.kind = .native ∧ r.kind = .native := by
  cases sc with
  | numbers i => exact ⟨h.2.1, h.2.2.1⟩
  | comparison j => exact ⟨h.2.1, h.2.2.1⟩
  | equality j => cases hk
  | joining => cases hk

theorem onNumbers_natives (op : Int64 → Int64 → Except StackMachine.Fault Int64) (a b : Int64) :
    (f.before n (.native b :: .native a :: st)).onNumbers op =
      (op a b).map fun c => f.before n (.native c :: st) := by
  show (do let c ← op a b; .ok ((f.before n st).pushNative c)) = _
  cases op a b <;> rfl

/-- The end of an operation on two integers. -/
theorem onInts_answers {op : BinaryOp} (ht : op.result? .int .int = some t) (h1 : op ≠ .eq)
    (h2 : op ≠ .ne) (a b : Int64) (hc : Includes f.code n ((scheme op t .int .int).finish n)) :
    Answers code R (s.resume (f.before n (.native b :: .native a :: st)) callers) (op.onInts a b)
      fun u => s.resume (f.before (n + ((scheme op t .int .int).finish n).length)
        (u.held t :: st)) callers := by
  cases op with
  | eq => exact absurd rfl h1
  | ne => exact absurd rfl h2
  | add | sub | mul =>
    cases ht
    exact Steps.exec (includes_cons.1 hc).1 rfl
  | div =>
    cases ht
    have hi := (includes_cons.1 hc).1
    unfold BinaryOp.onInts
    by_cases hb : b = 0
    · rw [if_pos hb]
      refine Fails.exec hi ?_
      rw [exec, onNumbers_natives, if_pos hb]
      rfl
    · rw [if_neg hb]
      refine Steps.exec hi ?_
      rw [exec, onNumbers_natives, if_neg hb]
      rfl
  | gt | ge | lt | le =>
    cases ht
    exact truth_steps hc rfl

/-- The end of a comparison of any two values, of which `c` says what it makes of their
equality. -/
theorem equality_steps {j j' : Jump} {c : Bool → Bool}
    (hj : ∀ m a b, taken j (f.before m (.native b :: .native a :: st)) =
      .ok (c (decide (a = b)), f.before m st))
    (hj' : ∀ m b, taken j' (f.before m ((Value.bool b).held .bool :: st)) =
      .ok (c b, f.before m st))
    {sc : Scheme} (hsc : sc = if l.isNative ∧ l = r then .comparison j else .equality j')
    (hv : v.Inhabits l) (hw : w.Inhabits r) (hc : Includes f.code n (sc.finish n)) :
    Steps code (s.resume (f.before n (sc.hold w :: sc.hold v :: st)) callers)
      (s.resume (f.before (n + (sc.finish n).length)
        ((Value.bool (c (decide (v = w)))).held .bool :: st)) callers) := by
  split at hsc
  · next h =>
    obtain ⟨hl, rfl⟩ := h
    subst hsc
    refine truth_steps hc ?_
    rw [← decide_eq_decide.2 (Value.number_eq_iff hl hv hw)]
    exact hj (n + 1) v.number w.number
  · subst hsc
    obtain ⟨hequals, htruth⟩ := includes_cons.1 hc
    refine (Steps.exec hequals rfl).trans (truth_steps htruth ?_)
    rw [← decide_eq_decide.2 (Value.ref_eq_iff (v := v) (w := w))]
    exact hj' (n + 1 + 1) (decide (v.ref = w.ref))

/-- The end of an operation on operands of types for which it has a type. -/
theorem scheme_answers {op : BinaryOp} (ht : op.result? l r = some t) (hv : v.Inhabits l)
    (hw : w.Inhabits r) (hc : Includes f.code n ((scheme op t l r).finish n)) :
    Answers code R (s.resume (f.before n
        ((scheme op t l r).hold w :: (scheme op t l r).hold v :: st)) callers) (op.apply v w)
      fun u => s.resume (f.before (n + ((scheme op t l r).finish n).length)
        (u.held t :: st)) callers := by
  rcases BinaryOp.operands_of_result? ht with ⟨rfl, rfl, h1, h2⟩ | ⟨rfl, hs, rfl⟩ | ⟨hop, rfl⟩
  · obtain ⟨a, rfl⟩ := hv
    obtain ⟨b, rfl⟩ := hw
    have happ : op.apply (.int a) (.int b) = op.onInts a b ∧
        (∀ m, (scheme op t .int .int).hold (.int m) = .native m) := by
      cases op with
      | eq => exact absurd rfl h1
      | ne => exact absurd rfl h2
      | _ => cases ht; exact ⟨rfl, fun _ => rfl⟩
    rw [happ.1, happ.2, happ.2]
    exact onInts_answers ht h1 h2 a b hc
  · have happ : BinaryOp.apply .add v w = .ok (.str (v.ref.display ++ w.ref.display)) := by
      have hstr : (v.isStr || w.isStr) = true := by
        rcases hs with rfl | rfl
        · obtain ⟨x, rfl⟩ := hv
          rfl
        · obtain ⟨x, rfl⟩ := hw
          simp [Value.isStr]
      simp only [BinaryOp.apply, hstr, if_true, Value.display_ref]
    rw [happ]
    exact Steps.exec (includes_cons.1 hc).1 rfl
  · rcases hop with rfl | rfl
    · exact equality_steps (j := .ifEq) (c := id) (fun _ _ _ => rfl)
        (fun _ b => by cases b <;> rfl) rfl hv hw hc
    · have happ : BinaryOp.apply .ne v w = .ok (.bool !decide (v = w)) := by
        simp only [BinaryOp.apply, ne_eq, decide_not]
      rw [happ]
      exact equality_steps (j := .ifNe) (c := not) (fun _ _ _ => rfl)
        (fun _ b => by cases b <;> rfl) rfl hv hw hc

end Code

/-! ## Unary operators -/

namespace Code

/-- What follows the operand of a unary operator, at offset `start`. -/
def unaryFinish (op : UnaryOp) (start : Nat) : List Instruction :=
  match op with
  | .negate => [.neg]
  | .not => truth .ifFalse start

theorem unaryFinish_answers {code : Code} {R : Rules} {s : State} {f : Frame} {n : Nat}
    {st : List Slot} {callers : List Frame} {v : Value} {op : UnaryOp} (hv : v.Inhabits op.ty)
    (hc : Includes f.code n (unaryFinish op n)) :
    Answers code R (s.resume (f.before n (v.held op.ty :: st)) callers) (op.apply v)
      fun u => s.resume (f.before (n + (unaryFinish op n).length) (u.held op.ty :: st))
        callers := by
  cases op with
  | negate =>
    obtain ⟨a, rfl⟩ := hv
    exact Steps.exec (includes_cons.1 hc).1 rfl
  | not =>
    obtain ⟨b, rfl⟩ := hv
    refine truth_steps hc ?_
    cases b <;> rfl

end Code

/-! ## Matched runs -/

namespace Eval

/-- From state `s` the machine does what the run does: it comes to a state as `post` says, or
stops with the fault of the run. -/
def Report.Matched {α : Type} (code : Code) (R : Rules) (s : State) (r : Report α)
    (post : α → Scene → State → Prop) : Prop :=
  Lawful R r.moments →
    match r.result with
    | .ok (a, τ) => ∃ t, Steps code s t ∧ post a τ t
    | .error h => Stops code R s r.moments h

namespace Report.Matched

variable {α β : Type} {code : Code} {R : Rules} {s t : State} {σ : Scene}

theorem mono {r : Report α} {P Q : α → Scene → State → Prop} (h : r.Matched code R s P)
    (hPQ : ∀ a τ t, P a τ t → Q a τ t) : r.Matched code R s Q := by
  intro hl
  have hr := h hl
  split at hr
  · obtain ⟨t, ht, hp⟩ := hr
    exact ⟨t, ht, hPQ _ _ t hp⟩
  · exact hr

/-- What is known of the end of a safe run can be used behind a matched one. -/
theorem safe {r : Report α} {P : α → Scene → State → Prop} {Q : α → Scene → Prop}
    (h : r.Matched code R s P) (h' : r.Safe R Q) :
    r.Matched code R s fun a τ t => Q a τ ∧ P a τ t := by
  intro hl
  have hr := h hl
  have hr' := (h' hl).2
  split at hr
  · next heq =>
    rw [heq] at hr'
    obtain ⟨t, ht, hp⟩ := hr
    exact ⟨t, ht, hr', hp⟩
  · exact hr

/-- The machine may go some steps ahead. -/
theorem steps {r : Report α} {P : α → Scene → State → Prop} (hs : Steps code s t)
    (h : r.Matched code R t P) : r.Matched code R s P := by
  intro hl
  have hr := h hl
  split at hr
  · obtain ⟨u, hu, hp⟩ := hr
    exact ⟨u, hs.trans hu, hp⟩
  · exact hs.stops hr

/-- Or some steps behind. -/
theorem then_steps {r : Report α} {P Q : α → Scene → State → Prop} (h : r.Matched code R s P)
    (hPQ : ∀ a τ t, P a τ t → ∃ u, Steps code t u ∧ Q a τ u) : r.Matched code R s Q := by
  intro hl
  have hr := h hl
  split at hr
  · obtain ⟨t, ht, hp⟩ := hr
    obtain ⟨u, hu, hq⟩ := hPQ _ _ t hp
    exact ⟨u, ht.trans hu, hq⟩
  · exact hr

theorem pure {a : α} {P : α → Scene → State → Prop} (h : P a σ s) :
    ((Pure.pure a : Watched α) σ).Matched code R s P :=
  fun _ => ⟨s, .refl s, h⟩

theorem bind {w : Watched α} {f : α → Watched β} {P : α → Scene → State → Prop}
    {Q : β → Scene → State → Prop} (hw : (w σ).Matched code R s P)
    (hf : ∀ a τ t, P a τ t → (f a τ).Matched code R t Q) :
    ((w >>= f) σ).Matched code R s Q := by
  show (Watched.bind w f σ).Matched code R s Q
  unfold Watched.bind
  intro hl
  cases hr : (w σ).result with
  | error h =>
    rw [hr] at hl
    have hm := hw hl
    rw [hr] at hm
    exact hm
  | ok r =>
    obtain ⟨a, τ⟩ := r
    rw [hr] at hl
    obtain ⟨hl₁, hl₂⟩ := hl.append
    have hm := hw hl₁
    rw [hr] at hm
    obtain ⟨t, ht, hp⟩ := hm
    have hq := steps ht (hf a τ t hp) hl₂
    simp only
    split at hq
    · exact hq
    · exact hq.append _

theorem record (event : Event) :
    (Watched.record event σ).Matched code R s fun _ τ t => σ = τ ∧ s = t :=
  fun _ => ⟨s, .refl s, rfl, rfl⟩

/-- A value passes through a declared type that its own type fits. -/
theorem passed {ty ty' : Ty} {v : Value} (hf : R.fits ty' ty) (hv : v.Inhabits ty) :
    (Watched.record (.passed ty' v) σ).Matched code R s fun _ τ t =>
      σ = τ ∧ s = t ∧ v.Inhabits ty' :=
  fun hl => ⟨s, .refl s, rfl, rfl, hl _ (List.mem_singleton.2 rfl) ty' v rfl ty hf hv⟩

theorem value {e : Expr} {v : Value} {P : Value → Scene → State → Prop} (h : P v σ s) :
    (Watched.value e v σ).Matched code R s P := by
  refine bind (record _) fun _ τ t hτ => ?_
  obtain ⟨rfl, rfl⟩ := hτ
  exact pure h

theorem modify {f : Scene → Scene} {P : Unit → Scene → State → Prop} (h : P () (f σ) s) :
    (Watched.modify f σ).Matched code R s P :=
  fun _ => ⟨s, .refl s, h⟩

theorem ofExcept {r : Except Eval.Fault α} {a : α} {P : α → Scene → State → Prop} (hr : r = .ok a)
    (h : P a σ s) : (Watched.ofExcept r σ).Matched code R s P := by
  subst hr
  exact pure h

/-- The value of an operation that the machine answers. -/
theorem answer {r : Except Eval.Fault Value} {next : Value → State} (h : Answers code R s r next) :
    (Watched.ofExcept r σ).Matched code R s fun u τ t => σ = τ ∧ t = next u := by
  cases r with
  | ok u => exact fun _ => ⟨next u, h, rfl, rfl⟩
  | error fault => exact fun _ => h

/-- A variable is looked up that has a value, unless the machine misses it. -/
theorem lookUp {access : Access} {x : String}
    (h : σ.find? x = none → R.Sound → ∃ t, Steps code s t ∧ Misses code access x σ t) :
    (Watched.lookUp access x σ).Matched code R s fun b τ t =>
      σ = τ ∧ s = t ∧ σ.find? x = some b := by
  have hmoments : (Watched.find x σ).moments = [] := by
    unfold Watched.find
    split <;> rfl
  show Report.Matched code R s ⟨⟨σ, .sought access x⟩ :: (Watched.find x σ).moments,
    (Watched.find x σ).result⟩ _
  rw [hmoments]
  unfold Watched.find
  cases hx : σ.find? x with
  | none => exact fun _ => ⟨access, σ, rfl, h hx⟩
  | some b => exact fun _ => ⟨s, .refl s, rfl, rfl, rfl⟩

theorem define (x : String) (b : Binding) :
    (Watched.define x b σ).Matched code R s fun _ τ t => τ = σ.define x b ∧ s = t := by
  refine bind (modify (P := fun _ τ t => τ = σ.define x b ∧ s = t) ⟨rfl, rfl⟩) fun _ τ t h => ?_
  obtain ⟨rfl, rfl⟩ := h
  refine (record _).mono fun _ τ t h => ?_
  exact ⟨h.1.symm, h.2⟩

/-- A loop starts over a value, if it is a list. -/
theorem iterate {e : Expr} {v : Value} {f : List Value → Watched β} {Q : β → Scene → State → Prop}
    (hlist : ∀ vs, v = .list vs → (f vs σ).Matched code R s Q)
    (hother : (∀ vs, v ≠ .list vs) → Fails code s (.notIterable v.display)) :
    ((do Watched.record (.iterated e v); let vs ← Watched.items v; f vs : Watched β) σ).Matched
      code R s Q := by
  refine bind (record _) fun _ τ t h => ?_
  obtain ⟨rfl, rfl⟩ := h
  cases v with
  | list vs => exact hlist vs rfl
  | _ => exact fun _ => hother nofun

theorem inScope {w : Watched α} {P : α → Scene → State → Prop}
    (h : (w { σ with locals := [] :: σ.locals }).Matched code R s
      fun a τ t => P a { τ with locals := τ.locals.tail } t) :
    (Watched.inScope w σ).Matched code R s P := by
  intro hl
  have hr := h hl
  unfold Watched.inScope Report.ending
  simp only
  split at hr
  · next heq => rw [heq]; exact hr
  · next heq => rw [heq]; exact hr

theorem inCall {params : Table Binding} {w : Watched α} {P : α → Scene → State → Prop}
    (h : (w { σ with locals := [params], callers := σ.locals :: σ.callers }).Matched code R s
      fun a τ t => P a { τ with locals := σ.locals, callers := σ.callers } t) :
    (Watched.inCall params w σ).Matched code R s P := by
  intro hl
  have hr := h hl
  unfold Watched.inCall Report.ending
  simp only
  split at hr
  · next heq => rw [heq]; exact hr
  · next heq => rw [heq]; exact hr

end Report.Matched

end Eval

end CatScript
