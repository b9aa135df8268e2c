import CatScript.StackMachine.Step

/-!
# Runs of the stack machine

A run starts with one frame, that of the main method, and has ended when none is left. It is
bounded by a number of steps, and a bound that is large enough makes no difference.
-/
namespace CatScript.StackMachine

/-- The state in which at most `steps` steps end, when no frame is left. -/
def steps (code : Code) : Nat → State → Except Halt State
  | 0, s => if s.frames.isEmpty then .ok s else .error .outOfSteps
  | n + 1, s =>
    if s.frames.isEmpty then .ok s
    else
      match step code s with
      | .error f => .error (.fault f)
      | .ok s => steps code n s

/-- A run that has ended in `n` steps ends in more steps alike. -/
theorem steps_mono {code : Code} {n m : Nat} {s t : State} (h : steps code n s = .ok t)
    (hm : n ≤ m) : steps code m s = .ok t := by
  induction n generalizing s m with
  | zero =>
    cases m with
    | zero => exact h
    | succ m =>
      unfold steps at h ⊢
      split at h
      · next hs => rw [if_pos hs]; exact h
      · cases h
  | succ n ih =>
    obtain ⟨m, rfl⟩ : ∃ k, m = k + 1 := ⟨m - 1, by omega⟩
    rw [steps] at h ⊢
    split at h
    · next hs => rw [if_pos hs]; exact h
    · next hs =>
      rw [if_neg hs]
      split at h
      · cases h
      · exact ih h (by omega)

/-- The text that the main method prints, in at most `n` steps. -/
def run (n : Nat) (code : Code) : Except Halt String :=
  match code.methods.find? Code.mainName with
  | none => .error (.fault (.undefinedMethod Code.mainName))
  | some main => (steps code n (.initial main)).map State.printed

end CatScript.StackMachine
