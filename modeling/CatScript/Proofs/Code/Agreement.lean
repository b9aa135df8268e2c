import CatScript.Proofs.Code.Correct

/-!
# Programs and their code side by side

A program can be run as it stands or lowered and run on the machine. Where both come to their end
they print the same (`Program.printsAlike`), if no value is stored under a type narrower than its
own, or if those that are happen to be values of the narrower type.

Without that they need not. An `object` may be stored under `int`, and the machine unboxes it
without a look at what kind of native value the reference holds: a boolean becomes the number that
stands for it, where the program goes on with the boolean (`Program.printsAlike_fails_narrowed`).
-/
namespace CatScript

open Typing Code Eval

namespace StackMachine

variable {code : Code}

/-- A run that has ended in `n` steps prints the same in more steps. -/
theorem run_mono {n m : Nat} {out : String} (h : run n code = .ok out) (hm : n ≤ m) :
    run m code = .ok out := by
  unfold run at h ⊢
  split at h
  · cases h
  · cases hs : steps code n (.initial ‹Method›) with
    | error e => rw [hs] at h; cases h
    | ok t =>
      rw [hs] at h
      rw [steps_mono hs hm]
      exact h

end StackMachine

theorem eq_ok_of_toOption {ε α : Type} {x : Except ε α} {a : α} (h : x.toOption = some a) :
    x = .ok a := by
  cases x with
  | error e => cases h
  | ok b => cases h; rfl

namespace Program

variable {fits : Ty → Ty → Prop} {p : Program} {depth : Nat}

/-- The run that goes at most `depth` calls deep prints what the code prints, if both come to
their end. -/
def PrintsAlike (p : Program) (depth : Nat) : Prop :=
  ∀ code n a b, p.lower = .ok code → p.run depth = .ok a → StackMachine.run n code = .ok b → a = b

theorem printsAlike_of_simulated {code : Code} (hc : p.lower = .ok code)
    (hs : p.Simulated depth code) : p.PrintsAlike depth := by
  intro code' n a b hc' ha hb
  cases hc.symm.trans hc'
  obtain ⟨enough, hrun⟩ := hs.prints a ha
  -- both bounds are within their maximum, where there is one answer only
  have ha' := hrun (max n enough) (Nat.le_max_right _ _)
  have hb' := StackMachine.run_mono hb (Nat.le_max_left n enough)
  exact Except.ok.inj (ha'.symm.trans hb')

theorem printsAlike_of_lawful (ht : p.Typed fits) (hd : p.diagnostics = [])
    (hl : Lawful (p.rules fits) (p.watch depth).moments) : p.PrintsAlike depth := by
  obtain ⟨main, K, hm, -⟩ := lowerMain_total ht
  exact printsAlike_of_simulated (lower_eq ht hd hm)
    (.of_matched (find?_codeOf_main _ main K) hl (watch_matched ht hm depth))

/-- A source without diagnostics prints the same as it stands and on the machine, if it stores
into wider types only or if every value that passes through a declared type is a value of it. -/
theorem printsAlike {source file : String} (hd : (parse source file).check.diagnostics = [])
    (depth : Nat) (hv : (parse source file).Widening ∨
      ((parse source file).check.watch depth).Faithful) :
    (parse source file).check.PrintsAlike depth := by
  cases hv with
  | inl hw =>
    exact printsAlike_of_lawful (parse_widening hd hw) hd
      fun _ _ _ _ _ _ hs hv => hv.widen hs
  | inr hf => exact printsAlike_of_lawful (parse_typed hd) hd (hf.lawful _)

/-- A program that narrows, with a value of the narrower type. -/
theorem printsAlike_narrowed :
    let source := "var o: object = 1 var n: int = o print(n == 1)"
    (parse source "narrowed.cat").check.diagnostics = [] ∧
      ((parse source "narrowed.cat").Widening ∨
        ((parse source "narrowed.cat").check.watch 0).Faithful) ∧
      (parse source "narrowed.cat").check.PrintsAlike 0 :=
  ⟨by decide +kernel, .inr (by decide +kernel),
    printsAlike (by decide +kernel) 0 (.inr (by decide +kernel))⟩

/-- The same program with a boolean: `true` is not `1`, but the number that stands for it is. -/
theorem printsAlike_fails_narrowed :
    let source := "var o: object = true\nvar n: int = o\nprint(n == 1)"
    (parse source "narrowed.cat").check.diagnostics = [] ∧
      ¬ (parse source "narrowed.cat").check.PrintsAlike 0 := by
  intro source
  refine ⟨by decide +kernel, fun h => ?_⟩
  have hrun : ((parse source "narrowed.cat").check.run 0).toOption = some "false" := by
    decide +kernel
  have hmachine : ((parse source "narrowed.cat").check.lower.toOption.bind fun code =>
      (StackMachine.run 20 code).toOption) = some "true" := by
    decide +kernel
  obtain ⟨code, hcode, hout⟩ := Option.bind_eq_some_iff.1 hmachine
  have halike := h code 20 _ _ (eq_ok_of_toOption hcode) (eq_ok_of_toOption hrun)
    (eq_ok_of_toOption hout)
  exact absurd halike (by decide)

end Program

end CatScript
