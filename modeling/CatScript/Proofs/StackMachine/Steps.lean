import CatScript.Code.Lower
import CatScript.Proofs.Eval.Inhabits
import CatScript.StackMachine.Run

/-!
# What lowered code does with values

How the machine holds a value depends on the type under which it is held: as a number under
`int` and `bool`, as a reference otherwise (`Value.held`). Code moves the machine from one state
to another in some number of steps (`Steps`), or makes it stop with a fault (`Fails`), and the
short sequences that lowering puts behind operands do what they are meant to: boxing, coercions,
truth values and the schemes of operators.
-/
namespace CatScript

open Code StackMachine

/-! ## Held values -/

namespace Value

mutual

/-- The reference to a value. -/
def ref : Value → Reference
  | int n => .int n
  | bool b => .bool b
  | str s => .str s
  | list vs => .list (refs vs)
  | null => .null

def refs : List Value → List Reference
  | [] => []
  | v :: vs => v.ref :: refs vs

end

/-- The number that stands for an integer or a boolean. -/
def number : Value → Int64
  | int n => n
  | bool b => if b then 1 else 0
  | _ => 0

/-- How a value is held under a type. -/
def held (v : Value) (t : Ty) : Slot :=
  if t.isNative then .native v.number else .reference v.ref

mutual

theorem ref_inj : (v w : Value) → v.ref = w.ref → v = w
  | int _, int _, h | bool _, bool _, h | str _, str _, h => by cases h; rfl
  | list vs, list ws, h => by rw [refs_inj vs ws (Reference.list.inj h)]
  | null, null, _ => rfl
  | int _, bool _, h | int _, str _, h | int _, list _, h | int _, null, h => by cases h
  | bool _, int _, h | bool _, str _, h | bool _, list _, h | bool _, null, h => by cases h
  | str _, int _, h | str _, bool _, h | str _, list _, h | str _, null, h => by cases h
  | list _, int _, h | list _, bool _, h | list _, str _, h | list _, null, h => by cases h
  | null, int _, h | null, bool _, h | null, str _, h | null, list _, h => by cases h

theorem refs_inj : (vs ws : List Value) → refs vs = refs ws → vs = ws
  | [], [], _ => rfl
  | v :: vs, w :: ws, h => by
    obtain ⟨hv, hvs⟩ := List.cons.inj h
    rw [ref_inj v w hv, refs_inj vs ws hvs]
  | [], _ :: _, h | _ :: _, [], h => by cases h

end

/-- Values are equal as their references are. -/
theorem ref_eq_iff {v w : Value} : v.ref = w.ref ↔ v = w :=
  ⟨ref_inj v w, fun h => h ▸ rfl⟩

mutual

theorem display_ref : (v : Value) → v.ref.display = v.display
  | int _ | bool _ | str _ | null => by simp only [ref, Reference.display, display]
  | list vs => by simp only [ref, Reference.display, display, displayAll_refs vs]

theorem displayAll_refs : (vs : List Value) → Reference.displayAll (refs vs) = displayAll vs
  | [] => by simp only [refs, Reference.displayAll, displayAll]
  | [v] => by simp only [refs, Reference.displayAll, displayAll, display_ref v]
  | v :: w :: vs => by
    have ih := displayAll_refs (w :: vs)
    simp only [refs, Reference.displayAll, displayAll, display_ref v] at ih ⊢
    rw [ih]

end

variable {v : Value} {t : Ty}

theorem held_native (h : t.isNative = true) : v.held t = .native v.number := if_pos h

theorem held_reference (h : t.isNative = false) : v.held t = .reference v.ref := by
  rw [held, h]
  rfl

/-- Two values of one native type are equal as their numbers are. -/
theorem number_eq_iff {w : Value} (ht : t.isNative = true) (hv : v.Inhabits t) (hw : w.Inhabits t) :
    v.number = w.number ↔ v = w := by
  cases t with
  | int =>
    obtain ⟨a, rfl⟩ := hv
    obtain ⟨b, rfl⟩ := hw
    simp [number]
  | bool =>
    obtain ⟨a, rfl⟩ := hv
    obtain ⟨b, rfl⟩ := hw
    cases a <;> cases b <;> decide
  | _ => cases ht

end Value

/-! ## Steps -/

namespace StackMachine

/-- The machine comes from one state to another. -/
def Steps (code : Code) (s t : State) : Prop := ∃ n, ∀ m, steps code (n + m) s = steps code m t

/-- The machine stops with a fault. -/
def Fails (code : Code) (s : State) (fault : Fault) : Prop :=
  ∃ n, ∀ m, steps code (n + m) s = .error (.fault fault)

variable {code : Code} {s t u : State} {fault : Fault}

theorem Steps.refl (s : State) : Steps code s s := ⟨0, fun m => by rw [Nat.zero_add]⟩

theorem Steps.trans (h : Steps code s t) (h' : Steps code t u) : Steps code s u := by
  obtain ⟨n, hn⟩ := h
  obtain ⟨k, hk⟩ := h'
  exact ⟨n + k, fun m => by rw [Nat.add_assoc, hn, hk]⟩

theorem Steps.fails (h : Steps code s t) (h' : Fails code t fault) : Fails code s fault := by
  obtain ⟨n, hn⟩ := h
  obtain ⟨k, hk⟩ := h'
  exact ⟨n + k, fun m => by rw [Nat.add_assoc, hn, hk]⟩

/-- The frame in front of the instruction at offset `n`, with the given stack. -/
def Frame.before (f : Frame) (n : Nat) (stack : List Slot) : Frame :=
  { f with next := n, stack := stack }

variable {f : Frame} {n : Nat} {st : List Slot} {callers : List Frame}

theorem exec_resume (g : Frame) (fs : List Frame) (i : Instruction) :
    exec code (s.resume g fs) f callers i = exec code s f callers i := by
  cases i <;> rfl

/-- A step runs the instruction in front of which the frame is. -/
theorem step_before {i : Instruction} (hi : f.code[n]? = some i) :
    step code (s.resume (f.before n st) callers) =
      StackMachine.exec code s (f.before (n + 1) st) callers i := by
  simp only [step, State.resume, Frame.before, hi]
  exact exec_resume (f.before n st) callers i

theorem Steps.exec {i : Instruction} (hi : f.code[n]? = some i)
    (h : StackMachine.exec code s (f.before (n + 1) st) callers i = .ok t) :
    Steps code (s.resume (f.before n st) callers) t := by
  refine ⟨1, fun m => ?_⟩
  rw [Nat.add_comm, steps, if_neg (by simp [State.resume]), step_before hi, h]

/-- The machine stops with a fault if its next step does. -/
theorem Fails.of_step (h : step code s = .error fault) : Fails code s fault := by
  refine ⟨1, fun m => ?_⟩
  have hs : s.frames.isEmpty = false := by
    cases hf : s.frames with
    | nil => simp [step, hf] at h
    | cons f callers => rfl
  rw [Nat.add_comm, steps, hs, h]
  rfl

theorem Fails.exec {i : Instruction} (hi : f.code[n]? = some i)
    (h : StackMachine.exec code s (f.before (n + 1) st) callers i = .error fault) :
    Fails code (s.resume (f.before n st) callers) fault :=
  .of_step ((step_before hi).trans h)

/-! ## Parts of code -/

/-- The code has the part at offset `n`. -/
def Includes (whole : List Instruction) (n : Nat) (part : List Instruction) : Prop :=
  ∀ k i, part[k]? = some i → whole[n + k]? = some i

variable {whole part part' : List Instruction}

theorem includes_nil : Includes whole n [] := by simp [Includes]

theorem includes_cons {i : Instruction} :
    Includes whole n (i :: part) ↔ whole[n]? = some i ∧ Includes whole (n + 1) part := by
  constructor
  · intro h
    refine ⟨h 0 i rfl, fun k j hj => ?_⟩
    have hk := h (k + 1) j hj
    rwa [Nat.add_comm k, ← Nat.add_assoc] at hk
  · rintro ⟨hi, h⟩ k j hj
    cases k with
    | zero =>
      cases hj
      exact hi
    | succ k =>
      rw [Nat.add_comm k, ← Nat.add_assoc]
      exact h k j hj

theorem includes_append : Includes whole n (part ++ part') ↔
    Includes whole n part ∧ Includes whole (n + part.length) part' := by
  induction part generalizing n with
  | nil => simp [includes_nil]
  | cons i part ih =>
    rw [List.cons_append, includes_cons, ih, includes_cons, and_assoc, List.length_cons,
      Nat.add_assoc n 1, Nat.add_comm 1]

theorem includes_start (part part' : List Instruction) : Includes (part ++ part') 0 part := by
  intro k i hk
  rw [Nat.zero_add, List.getElem?_append_left (List.getElem?_eq_some_iff.1 hk).1, hk]

/-- A jump, to its target if it is taken. -/
theorem Steps.jump {j : Jump} {target : Nat} {st' : List Slot} {b : Bool}
    (hi : f.code[n]? = some (.jump j target))
    (h : taken j (f.before (n + 1) st) = .ok (b, f.before (n + 1) st')) :
    Steps code (s.resume (f.before n st) callers)
      (s.resume (f.before (if b then target else n + 1) st') callers) := by
  refine .exec hi ?_
  simp only [StackMachine.exec, h]
  cases b <;> rfl

end StackMachine

/-! ## Boxing and coercions -/

section Sequences

variable {code : Code} {s : State} {f : Frame} {n : Nat} {st : List Slot} {callers : List Frame}
  {v w : Value} {t : Ty}

theorem boxing_steps (hv : v.Inhabits t) (hc : Includes f.code n (boxing t)) :
    Steps code (s.resume (f.before n (v.held t :: st)) callers)
      (s.resume (f.before (n + (boxing t).length) (.reference v.ref :: st)) callers) := by
  cases t with
  | int =>
    obtain ⟨a, rfl⟩ := hv
    exact .exec (includes_cons.1 hc).1 rfl
  | bool =>
    obtain ⟨b, rfl⟩ := hv
    refine .exec (includes_cons.1 hc).1 ?_
    cases b <;> rfl
  | _ => exact .refl _

/-- A value that has both types is held under the second behind a coercion. -/
theorem coercion_steps {t' : Ty} (hv : v.Inhabits t) (hv' : v.Inhabits t')
    (hc : Includes f.code n (coercion t t')) :
    Steps code (s.resume (f.before n (v.held t :: st)) callers)
      (s.resume (f.before (n + (coercion t t').length) (v.held t' :: st)) callers) := by
  unfold coercion at hc ⊢
  cases ht : t.isNative <;> cases ht' : t'.isNative <;> simp only [ht, ht'] at hc ⊢
  · rw [Value.held_reference ht, Value.held_reference ht']
    exact .refl _
  · rw [Value.held_reference ht]
    cases t' with
    | int =>
      obtain ⟨a, rfl⟩ := hv'
      exact .exec (includes_cons.1 hc).1 rfl
    | bool =>
      obtain ⟨b, rfl⟩ := hv'
      exact .exec (includes_cons.1 hc).1 rfl
    | _ => cases ht'
  · rw [Value.held_reference ht']
    exact boxing_steps hv hc
  · rw [Value.held_native ht, Value.held_native ht']
    exact .refl _

/-- The truth value of whether a jump would be taken. -/
theorem truth_steps {j : Jump} {st' : List Slot} {b : Bool} (hc : Includes f.code n (truth j n))
    (h : taken j (f.before (n + 1) st) = .ok (b, f.before (n + 1) st')) :
    Steps code (s.resume (f.before n st) callers)
      (s.resume (f.before (n + 4) ((Value.bool b).held .bool :: st')) callers) := by
  simp only [truth, includes_cons] at hc
  obtain ⟨hjump, hzero, hback, hone, -⟩ := hc
  refine (Steps.jump hjump h).trans ?_
  cases b with
  | true => exact .exec hone rfl
  | false => exact (Steps.exec hzero rfl).trans (Steps.jump hback (b := true) rfl)

end Sequences

end CatScript
