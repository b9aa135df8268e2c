import CatScript.Proofs.Code.Agreement
import Mathlib.Control.Monad.Basic

/-!
# Globals used before their declaration

A function can be called before a global variable that it uses has been declared, and the program
stops at the use. Its code comes to the same use (`Program.unbound_missed`). Where the variable is
read the machine stops as well. Where it is assigned to the machine goes on: declarations and
assignments set a global by the same instruction, which does not ask whether the global has a
value. So a program that stops may have code that prints something
(`Program.stopsAlike_fails_assigned`).
-/
namespace CatScript

open Typing Code Eval StackMachine

namespace Program

variable {fits : Ty → Ty → Prop} {p : Program} {depth : Nat} {x : String}

/-- The machine stops at a global without a value if the run that goes at most `depth` calls deep
stops at an unbound variable. -/
def StopsAlike (p : Program) (depth : Nat) : Prop :=
  ∀ code x, p.lower = .ok code → p.run depth = .error (.fault (.unboundVariable x)) →
    ∃ enough, ∀ n, enough ≤ n → StackMachine.run n code = .error (.fault (.undefinedGlobal x))

/-- The run that goes at most `depth` calls deep stops at a use of variable `x`, which is not there in
the scene: what the watched run has written down last is the use. -/
structure StopsAt (p : Program) (depth : Nat) (access : Access) (x : String) (σ : Scene) : Prop where
  watched : p.run depth = (p.watch depth).printed
  result : (p.watch depth).result = .error (.fault (.unboundVariable x))
  last : Seeks (p.watch depth).moments access x σ

/-- The machine has printed what the program had printed in the scene, and uses global `x`, which has
no value. To read the global it stops. To set the global it goes on. -/
structure Missed (code : Code) (access : Access) (x : String) (σ : Scene) (main : Method)
    (t : State) : Prop where
  starts : code.methods.find? mainName = some main
  comes : Steps code (.initial main) t
  output : t.output = σ.output
  unset : t.globals.find? x = none
  used :
    match access with
    | .read => t.next? = some (.getGlobal x) ∧
      ∃ enough, ∀ n, enough ≤ n → StackMachine.run n code = .error (.fault (.undefinedGlobal x))
    | .write => t.next? = some (.putGlobal x) ∧ ∃ u, step code t = .ok u ∧
      (u.globals.find? x).isSome

theorem Missed.of_misses {code : Code} {access : Access} {σ : Scene} {main : Method} {t : State}
    (hmain : code.methods.find? mainName = some main) (hs : Steps code (.initial main) t)
    (h : Misses code access x σ t) : Missed code access x σ main t := by
  refine ⟨hmain, hs, h.output, h.unset, ?_⟩
  have hused := h.used
  cases access with
  | read => exact ⟨hused.1, (hs.fails (.of_step hused.2)).run_error hmain⟩
  | write => exact hused

theorem missed_of_sound (ht : p.Typed fits) (hd : p.diagnostics = []) (hf : (p.rules fits).Sound)
    (hr : p.run depth = .error (.fault (.unboundVariable x))) :
    ∃ access σ code main t, p.StopsAt depth access x σ ∧ p.lower = .ok code ∧
      Missed code access x σ main t := by
  obtain ⟨main, K, hm, -⟩ := lowerMain_total ht
  have hmatched := watch_matched ht hm depth fun _ _ t v _ s => hf t s v
  rw [watch_of_run_error hr] at hmatched
  obtain ⟨access, σ, hseeks, hmiss⟩ := hmatched
  obtain ⟨t, hs, hmiss⟩ := hmiss hf
  exact ⟨access, σ, _, _, t, ⟨run_eq_watch depth p, watch_of_run_error hr, hseeks⟩,
    lower_eq ht hd hm, .of_misses (find?_codeOf_main _ main K) hs hmiss⟩

/-- A source without diagnostics that stores into wider types only. If a run of it stops at a
variable, the machine comes to the same use of the global of that name. Where the program reads the
variable, the machine stops as well; where it assigns to it, the machine sets the global. -/
theorem unbound_missed {source file : String} (hd : (parse source file).check.diagnostics = [])
    (hw : (parse source file).Widening) (depth : Nat) (x : String)
    (hr : (parse source file).check.run depth = .error (.fault (.unboundVariable x))) :
    ∃ access σ code main t, (parse source file).check.StopsAt depth access x σ ∧
      (parse source file).check.lower = .ok code ∧ Missed code access x σ main t :=
  missed_of_sound (parse_widening hd hw) hd (fun _ _ _ hs hv => hv.widen hs) hr

/-- A function that reads a variable is called before the variable is declared. -/
theorem unbound_missed_read :
    let source := "print(get())\nvar x: object = 1\nfunction get(): object \x7b return x \x7d"
    ((parse source "early.cat").check.diagnostics = [] ∧ (parse source "early.cat").Widening ∧
      (parse source "early.cat").check.run 1 = .error (.fault (.unboundVariable "x"))) ∧
      ∃ access σ code main t, (parse source "early.cat").check.StopsAt 1 access "x" σ ∧
        (parse source "early.cat").check.lower = .ok code ∧ Missed code access "x" σ main t := by
  intro source
  refine ⟨?facts, unbound_missed (And.left ?facts) (And.left (And.right ?facts)) 1 "x"
    (And.right (And.right ?facts))⟩
  decide +kernel

/-- A function that assigns to a variable is called before the variable is declared. The program
stops, and the machine prints the variable in the end. -/
theorem stopsAlike_fails_assigned :
    let source := "set()\nvar x: int = 1\nprint(x)\nfunction set() \x7b x = 2 \x7d"
    (parse source "early.cat").check.diagnostics = [] ∧ (parse source "early.cat").Widening ∧
      ¬ (parse source "early.cat").check.StopsAlike 1 := by
  intro source
  refine ⟨by decide +kernel, by decide +kernel, fun h => ?_⟩
  have hrun : (parse source "early.cat").check.run 1 = .error (.fault (.unboundVariable "x")) := by
    decide +kernel
  have hmachine : ((parse source "early.cat").check.lower.toOption.bind fun code =>
      (StackMachine.run 20 code).toOption) = some "1" := by
    decide +kernel
  obtain ⟨code, hcode, hout⟩ := Option.bind_eq_some_iff.1 hmachine
  obtain ⟨enough, hstops⟩ := h code "x" (eq_ok_of_toOption hcode) hrun
  have hends := StackMachine.run_mono (eq_ok_of_toOption hout) (Nat.le_max_right enough 20)
  rw [hstops _ (Nat.le_max_left enough 20)] at hends
  cases hends

end Program

end CatScript
