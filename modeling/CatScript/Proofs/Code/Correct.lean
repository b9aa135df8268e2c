import CatScript.Proofs.Code.Statements

/-!
# Correctness of lowering

A call of a function is matched by running its method: the arguments are its first locals, and
its value comes to the caller (`invoke_matched`). So a program and its code do the same
(`Program.lower_correct`), as long as every value that passes through a declared type is a value
of that type. Without that a run goes on where the machine stops: the program looks at a value
when it is used, and the machine when it is stored.
-/
namespace CatScript

open Typing Code Eval StackMachine

variable {code : Code} {R : Rules} {globals : Table Variable} {functions : Table Function}
  {f : Frame} {heap : List (List Reference)} {σ : Scene} {s : State} {callers : List Frame}

/-! ## Calls -/

/-- The code has the method of each function under its symbol. -/
def HasMethods (code : Code) (R : Rules) (functions : Table Function)
    (globals : Table Variable) : Prop :=
  ∀ symbol f, functions.find? symbol = some f → ∃ m part K,
    code.methods.find? symbol = some m ∧ m.code = part ++ [.ret] ∧
      Stmt.lowerAll (.function R.functions globals f.header) 0 f.body = .ok (part, K)

/-- The arguments of a call are its first locals. -/
theorem load_ofCall (m : Method) {args : List Slot} {n : Nat} {a : Slot} (h : args[n]? = some a) :
    (Frame.ofCall m args).load n = a := by
  have hn := (List.getElem?_eq_some_iff.1 h).1
  rw [Frame.load, Frame.ofCall, List.getElem?_append_left hn, h]
  rfl

theorem paramScope_read {ps : List Param} {params : Table Binding} {n : Nat}
    (hty : params.mapValues Binding.ty = ps.map fun p => (p.name, p.ty))
    (hload : ∀ k b, params[k]? = some b → f.load (n + k) = b.2.held) :
    (paramScope n ps).mapValues (Variable.read f) = params.mapValues Binding.held := by
  induction ps generalizing params n with
  | nil =>
    rw [List.map_eq_nil_iff.1 hty]
    rfl
  | cons p ps ih =>
    cases params with
    | nil => cases hty
    | cons b params =>
      obtain ⟨hb, hrest⟩ := List.cons.inj hty
      have hfirst := hload 0 b rfl
      have hmore := ih (n := n + 1) hrest fun k c hk => by
        rw [Nat.add_assoc, Nat.add_comm 1]
        exact hload (k + 1) c hk
      show (p.name, f.load n) :: _ = (b.1, b.2.held) :: _
      rw [← hfirst, ← (Prod.mk.inj hb).1]
      exact congrArg _ hmore

/-- At the start of a call the frame shows the scene. -/
theorem ofCall_shows {h : Header} {params : Table Binding} (m : Method)
    (hn : (h.params.map (·.name)).Nodup) (hp : params.mapValues Binding.ty = h.scope)
    (ha : Agrees heap σ s) :
    Shows (.function R.functions globals h) (.ofCall m (params.map fun b => b.2.held)) heap
      { σ with locals := [params], callers := σ.locals :: σ.callers } s := by
  have hscope : h.scope = h.params.map fun p => (p.name, p.ty) :=
    Table.ofList_of_nodup (by rw [List.map_map]; exact hn)
  refine ⟨⟨ha.globals, ha.output, ha.heap⟩, ?_⟩
  rw [Layout.function_eq _ _ hn]
  refine congrArg (fun scope => [scope]) (paramScope_read (hp.trans hscope) fun k b hk => ?_)
  refine load_ofCall m ?_
  rw [Nat.zero_add, List.getElem?_map, hk]
  rfl

/-- A method ends by going back to the caller with the value of the call. -/
theorem Arrives.leave {K : Layout} {slots : List Nat} {stop : Nat} {result : Ty} {flow : Flow}
    {τ : Scene} {t : State} (h : Arrives K f slots heap callers stop result flow τ t)
    (hc : f.code[stop]? = some .ret) (hn : flow = .normal → result = .void)
    (hr : ∀ r, flow = .returned r → Returns result r) :
    ∃ u, Steps code t u ∧
      ∃ s, u = State.leave s (returned result flow.value) callers ∧ Agrees heap τ s := by
  unfold returned
  cases flow with
  | normal =>
    obtain ⟨g, s, rfl, hk, hs⟩ := h
    rw [if_pos (hn rfl)]
    exact ⟨_, .exec (hk.code ▸ hc) rfl, s, rfl, hs.toAgrees⟩
  | returned r =>
    obtain ⟨s, rfl, ha⟩ := h
    have hr := hr r rfl
    cases r with
    | none =>
      rw [if_pos (show result = .void from hr)]
      exact ⟨_, .refl _, s, rfl, ha⟩
    | some v =>
      rw [if_neg hr.1]
      exact ⟨_, .refl _, s, rfl, ha⟩

/-- The machine matches the body of a function by running its method. -/
theorem Function.body_matched {invoke : Watched.Invoke} {f : Function} {m : Method}
    {part : List Instruction} {K : Layout} {params : Table Binding} {S : Scopes}
    (hk : Knows R functions) (hi : CallsSafe R invoke) (hc : CallsMatched code R functions invoke)
    (hg : Layout.Globals globals) (hty : globals.mapValues Variable.ty = R.globals)
    (hf : f.Typed R) (hcode : m.code = part ++ [.ret])
    (hlower : Stmt.lowerAll (.function R.functions globals f.header) 0 f.body = .ok (part, K))
    (hp : params.mapValues Binding.ty = f.header.scope)
    (hin : ∀ b ∈ params, b.2.value.Inhabits b.2.ty) (hσ : σ.Conforms R S) (hs : Agrees heap σ s) :
    (Stmt.watchAll functions invoke f.header.resultTy f.body
      { σ with locals := [params], callers := σ.locals :: σ.callers }).Matched code R
      (s.resume (.ofCall m (params.map fun b => b.2.held)) callers) fun flow τ t =>
        ∃ s', t = State.leave s' (returned f.header.resultTy flow.value) callers ∧
          Agrees heap τ s' := by
  have hL := Layout.function_sees (R := R) hty hf.params
  have hplaced := Layout.function_placed R.functions hg hf.params
  have henter := hσ.enter hin
  rw [hp] at henter
  have hret : (Frame.ofCall m (params.map fun b => b.2.held)).code[part.length]? = some .ret := by
    show m.code[part.length]? = some .ret
    rw [hcode, List.getElem?_concat_length]
  refine ((Stmt.lowerAll_matched hk hi hc f.body hf.body hL hplaced (Layout.apart_nil _) hlower
    henter (ofCall_shows m hf.params hp hs) ?_).safe
    (Stmt.watchAll_safe hk hi f.body hf.body _ henter)).then_steps fun flow τ t h => ?_
  · show Includes m.code 0 part
    rw [hcode]
    exact includes_start _ _
  · obtain ⟨hends, harr⟩ := h
    rw [Nat.zero_add] at harr
    refine harr.leave hret (fun hn => ?_) hends.returned
    -- a function whose body comes to its end has no result
    have hlast := (hends.normal hn).2
    by_cases hv : f.header.resultTy = .void
    · exact hv
    · rw [hf.returns hv] at hlast
      cases hlast

/-- The machine matches calls of any depth. -/
theorem invoke_matched (hk : Knows R functions) (hm : HasMethods code R functions globals)
    (hg : Layout.Globals globals) (hty : globals.mapValues Variable.ty = R.globals) (depth : Nat) :
    CallsMatched code R functions (Watched.invoke functions depth) := by
  induction depth with
  | zero =>
    intro symbol f params σ S heap s callers hf _ _ _ _ _
    obtain ⟨m, part, K, hfind, -, -⟩ := hm symbol f hf
    exact ⟨m, hfind, fun _ => trivial⟩
  | succ depth ih =>
    intro symbol f params σ S heap s callers hf hft hp hin hσ hs
    obtain ⟨m, part, K, hfind, hcode, hlower⟩ := hm symbol f hf
    refine ⟨m, hfind, ?_⟩
    simp only [Watched.invoke]
    refine .bind (P := fun flow τ t => ∃ s', t = State.leave s'
      (returned f.header.resultTy flow.value) callers ∧ Agrees heap τ s' ∧ τ.locals = σ.locals)
      (.inCall (.bind (.record _) fun _ τ t h => ?_)) fun flow τ t h => .pure h
    obtain ⟨rfl, rfl⟩ := h
    refine (Function.body_matched hk (invoke_safe hk depth) ih hg hty hft hcode hlower hp hin hσ
      hs).mono fun flow τ t h => ?_
    obtain ⟨s', rfl, ha⟩ := h
    exact ⟨s', rfl, ⟨ha.globals, ha.output, ha.heap⟩, rfl⟩

/-! ## Runs with values of the declared types -/

namespace Eval

/-- A value that passes through a declared type is a value of that type. -/
def Event.Faithful : Event → Prop
  | passed declared value => value.Inhabits declared
  | _ => True

instance : (event : Event) → Decidable event.Faithful
  | .passed declared value => inferInstanceAs (Decidable (value.Inhabits declared))
  | .evaluated _ _ | .sought _ _ | .stored _ | .iterated _ _ => .isTrue trivial

/-- So it is whenever a value passes through a declared type in the run. -/
def Report.Faithful {α : Type} (r : Report α) : Prop := ∀ m ∈ r.moments, m.event.Faithful

instance {α : Type} (r : Report α) : Decidable r.Faithful :=
  inferInstanceAs (Decidable (∀ m ∈ r.moments, m.event.Faithful))

theorem Report.Faithful.lawful {α : Type} {r : Report α} (h : r.Faithful) (R : Rules) :
    Lawful R r.moments := by
  intro m hm t v he _ _ _
  have hv := h m hm
  rw [he] at hv
  exact hv

end Eval

/-! ## Programs -/

namespace StackMachine

/-- A run that has come to an end has come to it in any number of steps from some number on. -/
theorem Steps.run_ok {t : State} {main : Method} (hm : code.methods.find? mainName = some main)
    (h : Steps code (.initial main) t) (ht : t.frames = []) :
    ∃ enough, ∀ n, enough ≤ n → run n code = .ok t.printed := by
  obtain ⟨k, hk⟩ := h
  refine ⟨k, fun n hn => ?_⟩
  obtain ⟨j, rfl⟩ := Nat.exists_eq_add_of_le hn
  have hend : steps code j t = .ok t := by
    cases j <;> simp [steps, ht]
  simp only [run, hm, hk, hend]
  rfl

theorem Fails.run_error {fault : StackMachine.Fault} {main : Method}
    (hm : code.methods.find? mainName = some main) (h : Fails code (.initial main) fault) :
    ∃ enough, ∀ n, enough ≤ n → run n code = .error (.fault fault) := by
  obtain ⟨k, hk⟩ := h
  refine ⟨k, fun n hn => ?_⟩
  obtain ⟨j, rfl⟩ := Nat.exists_eq_add_of_le hn
  simp only [run, hm, hk]
  rfl

end StackMachine

/-- The state at the start of a run shows the scene at its start. -/
theorem initial_shows (functions : Table Signature) (main : Method) :
    Shows (.main functions) (.ofCall main []) [] .initial ⟨[], [], [], []⟩ :=
  ⟨⟨rfl, rfl, List.prefix_refl _⟩, rfl⟩

/-- The main method ends the run. -/
theorem Arrives.halt {K : Layout} {slots : List Nat} {stop : Nat} {result : Ty} {flow : Flow}
    {τ : Scene} {t : State} (h : Arrives K f slots heap [] stop result flow τ t)
    (hc : f.code[stop]? = some .ret) :
    ∃ u, Steps code t u ∧ u.frames = [] ∧ u.output = τ.output := by
  cases flow with
  | normal =>
    obtain ⟨g, s, rfl, hk, hs⟩ := h
    exact ⟨State.leave s none [], .exec (hk.code ▸ hc) rfl, rfl, hs.output⟩
  | returned r =>
    obtain ⟨s, rfl, ha⟩ := h
    cases r with
    | none => exact ⟨State.leave s none [], .refl _, rfl, ha.output⟩
    | some v => exact ⟨State.leave s (some (v.held result)) [], .refl _, rfl, ha.output⟩

namespace Program

variable {fits : Ty → Ty → Prop} {p : Program} {depth : Nat}

theorem hasMethods (ht : p.Typed fits) (main : List Instruction) {K : Layout}
    (hg : Layout.Globals (K.scopes.getLast?.getD []))
    (hty : (K.scopes.getLast?.getD []).mapValues Variable.ty = p.globals) :
    HasMethods (p.codeOf main K) (p.rules fits) p.functionTable (K.scopes.getLast?.getD []) := by
  intro symbol f hf
  obtain ⟨g, hmem, he⟩ := List.mem_map.1 (Table.mem_of_find?_ofList hf)
  cases he
  obtain ⟨part, M, hlower, hm⟩ := method_eq ht hg hty hmem
  exact ⟨_, part, M, find?_codeOf ht main K hmem, by rw [hm], hlower⟩

/-- The machine matches the run of a program. -/
theorem watch_matched (ht : p.Typed fits) {main : List Instruction} {K : Layout}
    (hm : p.lowerMain = .ok (main, K)) (depth : Nat) :
    (p.watch depth).Matched (p.codeOf main K) (p.rules fits)
      (.initial ⟨mainName, 0, K.nextSlot, main ++ [.ret]⟩) fun _ τ t =>
        t.frames = [] ∧ t.output = τ.output := by
  obtain ⟨_, _, hm', -, hg, hty⟩ := lowerMain_total ht
  rw [hm] at hm'
  cases hm'
  have hk : Knows (p.rules fits) p.functionTable := knows ht
  have hi := invoke_safe hk depth
  have hc := invoke_matched hk (hasMethods ht main hg hty) hg hty depth
  have hL := Layout.main_sees (p.rules fits)
  have hp := Layout.main_placed p.signatures
  have hσ := Scene.initial_conforms (p.rules fits)
  have hs := initial_shows p.signatures ⟨mainName, 0, K.nextSlot, main ++ [.ret]⟩
  have hret : (main ++ [Instruction.ret])[main.length]? = some .ret := List.getElem?_concat_length
  have hin : Includes (main ++ [Instruction.ret]) 0 main := includes_start _ _
  obtain ⟨body, span⟩ := p
  cases body with
  | expression e =>
    simp only [lowerMain, bind_eq_ok] at hm
    obtain ⟨value, hval, hm⟩ := hm
    cases hm
    have hparts : Includes (value ++ boxing e.ty ++ [.print] ++ [.ret]) 0
        (value ++ (boxing e.ty ++ [.print])) := by
      rw [← List.append_assoc]
      exact hin
    have hstop : 0 + value.length + (boxing e.ty ++ [Instruction.print]).length =
        (value ++ boxing e.ty ++ [Instruction.print]).length := by
      simp only [List.length_append]
      omega
    obtain ⟨hin, hprint⟩ := includes_append.1 hparts
    refine .bind (Expr.value_matched hk hi hc hL hp ht.body hval hσ hs hin) fun v τ t h => ?_
    obtain ⟨⟨hv, -⟩, s₁, rfl, hs₁⟩ := h
    obtain ⟨t, ht, g, s₂, rfl, hkeep, hs₂⟩ := print_steps [] hv hs₁ hprint
    refine .steps (ht.trans (.exec (i := .ret) ?_ rfl)) (.modify ⟨rfl, hs₂.output⟩)
    rw [hstop, hkeep.code]
    exact hret
  | statements ss =>
    refine .bind (P := fun _ τ t => t.frames = [] ∧ t.output = τ.output)
      (.then_steps (Stmt.lowerAll_matched hk hi hc ss ht.body hL hp (Layout.apart_nil _) hm hσ hs
        hin) fun flow τ t h => ?_) fun _ τ t h => .pure h
    rw [Nat.zero_add] at h
    exact h.halt hret

/-- The code does what the run does that goes at most `depth` calls deep, in any number of steps
from some number on. -/
structure Simulated (p : Program) (depth : Nat) (code : Code) : Prop where
  watched : p.run depth = (p.watch depth).printed
  prints : ∀ out, p.run depth = .ok out →
    ∃ enough, ∀ n, enough ≤ n → StackMachine.run n code = .ok out
  divides : p.run depth = .error (.fault .divisionByZero) →
    ∃ enough, ∀ n, enough ≤ n → StackMachine.run n code = .error (.fault .divisionByZero)
  iterates : ∀ text, p.run depth = .error (.fault (.notIterable text)) →
    ∃ enough, ∀ n, enough ≤ n → StackMachine.run n code = .error (.fault (.notIterable text))

theorem Simulated.of_matched {main : Method} (hmain : code.methods.find? mainName = some main)
    (hl : Lawful R (p.watch depth).moments)
    (h : (p.watch depth).Matched code R (.initial main) fun _ τ t =>
      t.frames = [] ∧ t.output = τ.output) : p.Simulated depth code := by
  have hr := h hl
  have hstop : ∀ halt, p.run depth = .error halt →
      Stops code R (.initial main) (p.watch depth).moments halt := by
    intro halt he
    rw [watch_of_run_error he] at hr
    exact hr
  refine ⟨run_eq_watch depth p, fun out he => ?_, fun he => (hstop _ he).run_error hmain,
    fun text he => (hstop _ he).run_error hmain⟩
  obtain ⟨τ, hτ, rfl⟩ := watch_of_run_ok he
  rw [hτ] at hr
  obtain ⟨t, ht, hframes, hout⟩ := hr
  have htext : t.printed = τ.printed := by
    rw [State.printed, hout]
    rfl
  rw [← htext]
  exact ht.run_ok hmain hframes

/-- A source without diagnostics can be lowered, and its code does what a run does in which every
value that passes through a declared type is a value of that type. -/
theorem lower_correct {source file : String} (hd : (parse source file).check.diagnostics = [])
    (depth : Nat) (hv : ((parse source file).check.watch depth).Faithful) :
    ∃ code, (parse source file).check.lower = .ok code ∧
      (parse source file).check.Simulated depth code := by
  have ht := parse_typed hd
  obtain ⟨main, K, hm, -⟩ := lowerMain_total ht
  exact ⟨_, lower_eq ht hd hm,
    .of_matched (find?_codeOf_main _ main K) (hv.lawful _) (watch_matched ht hm depth)⟩

/-- A program that returns out of a loop and stores the items of an `object` under `int`. -/
theorem lower_correct_first :
    let source := "function first(xs: list<object>): int \x7b for (x in xs) \x7b var n: int = x " ++
      "if (n > 1) \x7b return n \x7d \x7d return 0 \x7d var o: object = [1, 4] print(first(o))"
    (parse source "first.cat").check.diagnostics = [] ∧
      ((parse source "first.cat").check.watch 3).Faithful ∧
      ((parse source "first.cat").check.run 3).toOption = some "4" ∧
      ∃ code, (parse source "first.cat").check.lower = .ok code ∧
        (parse source "first.cat").check.Simulated 3 code :=
  ⟨by decide +kernel, by decide +kernel, by decide +kernel,
    lower_correct (by decide +kernel) 3 (by decide +kernel)⟩

end Program

end CatScript
