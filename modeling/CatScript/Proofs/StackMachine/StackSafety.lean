import CatScript.StackMachine.Run
import CatScript.Proofs.Code.Verified

/-!
# Stack safety

Every state that a run of lowered code reaches is sound (`State.Sound`): the running frame meets
the point of its method's chart at its offset, each frame below it waits right behind a call
for what the method called returns, and the globals are held as their types say. One step leads
from a sound state to a sound state or stops with a fault that is tolerated (`step_sound`).
-/
namespace CatScript

open Typing Code

namespace StackMachine

/-! ## Reachable states -/

inductive Reachable (code : Code) : State → Prop where
  | start {main : Method} : code.methods.find? mainName = some main →
      Reachable code (.initial main)
  | step {s s' : State} : Reachable code s → step code s = .ok s' → Reachable code s'

/-- A fault that stops a run is the fault of a step from a reachable state. -/
theorem exists_step_of_steps {code : Code} {n : Nat} {s : State} {fault : Fault}
    (hs : Reachable code s) (h : steps code n s = .error (.fault fault)) :
    ∃ s', Reachable code s' ∧ s'.frames ≠ [] ∧ step code s' = .error fault := by
  induction n generalizing s with
  | zero =>
    rw [steps] at h
    split at h <;> cases h
  | succ n ih =>
    rw [steps] at h
    split at h
    · cases h
    · next hf =>
      split at h
      · next f hstep =>
        cases h
        exact ⟨s, hs, by simpa using hf, hstep⟩
      · next s' hstep => exact ih (hs.step hstep) h

theorem exists_step_of_run {code : Code} {n : Nat} {fault : Fault} {main : Method}
    (hm : code.methods.find? mainName = some main)
    (h : run n code = .error (.fault fault)) :
    ∃ s, Reachable code s ∧ s.frames ≠ [] ∧ step code s = .error fault := by
  simp only [run, hm] at h
  cases hs : steps code n (.initial main) with
  | ok s => rw [hs] at h; cases h
  | error halt =>
    rw [hs] at h
    cases h
    exact exists_step_of_steps (.start hm) hs

/-- The method that runs above the frames: the one that the topmost of them has just called, or
the main method if there is none. -/
def running : List Frame → String
  | [] => mainName
  | g :: _ =>
    match g.code[g.next - 1]? with
    | some (.invoke name _) => name
    | _ => mainName

/-! ## Sound states -/

section

variable (p : Program) (W : World) (code : Code)

/-- The frame runs the method of the name, which has the chart. -/
structure Follows (name : String) (A : Chart) (f : Frame) : Prop where
  method : ∃ m, code.methods.find? name = some m ∧ f.code = m.code
  certified : Certified W (p.resultOf name) (p.entry name) f.code (p.plan name) A

/-- What lies on a caller's stack when the call returns. -/
def returned (result : Ty) (st : List Kind) : List Kind :=
  if result = .void then st else result.kind :: st

/-- The frames wait for the method of the name, each behind the call that it has made. -/
def Waiting : String → List Frame → Prop
  | name, [] => name = mainName
  | name, g :: callers => ∃ caller A P, Follows p W code caller A g ∧
      (∃ arity, g.code[g.next - 1]? = some (.invoke name arity)) ∧ (∀ heap, g.Meets heap P) ∧
      A.Leads g.next (some (P.having (returned (p.resultOf name) P.stack))) ∧
      Waiting caller callers

/-- The running frame stands at a point of its method's chart. -/
structure Stands (name : String) (A : Chart) (heap : List (List Reference)) (f : Frame) : Prop where
  follows : Follows p W code name A f
  meets : ∃ P, A f.next = some P ∧ f.Meets heap P

structure State.Sound (s : State) : Prop where
  globals : W.Holds s.globals
  frames : ∀ f callers, s.frames = f :: callers →
    ∃ name A, Waiting p W code name callers ∧ Stands p W code name A s.heap f

end

variable {p : Program} {W : World} {code : Code}

theorem Waiting.running {name : String} {callers : List Frame} (h : Waiting p W code name callers) :
    running callers = name := by
  cases callers with
  | nil => exact h.symm
  | cons g callers =>
    obtain ⟨_, _, _, _, ⟨arity, hg⟩, _⟩ := h
    simp only [StackMachine.running, hg]

/-- The instruction at which a frame stands is allowed. -/
theorem Stands.allows {name : String} {A : Chart} {heap : List (List Reference)} {f : Frame}
    (h : Stands p W code name A heap f) : ∃ i P, f.code[f.next]? = some i ∧ A f.next = some P ∧
      f.Meets heap P ∧ P.Allows W (p.resultOf name) (fun Q => A.Leads (f.next + 1) (some Q))
        (fun t Q => A.Leads t (some Q)) i := by
  obtain ⟨P, hP, hm⟩ := h.meets
  have hlt := h.follows.certified.bound _ P hP
  refine ⟨f.code[f.next], P, List.getElem?_eq_getElem hlt, hP, hm, ?_⟩
  have ha := h.follows.certified.verified.allows (List.getElem?_eq_getElem hlt)
    (by rwa [Nat.zero_add])
  rwa [Nat.zero_add] at ha

/-! ## One step -/

/-- What the code of a program has to do with the program. -/
structure Lowered (p : Program) (W : World) (code : Code) : Prop where
  functions : W.functions = p.signatures
  method : ∀ name s, p.signatures.find? name = some s → ∃ m, code.methods.find? name = some m
  certified : ∀ name m, code.methods.find? name = some m →
    ∃ A, Certified W (p.resultOf name) (p.entry name) m.code (p.plan name) A

variable {s : State} {f : Frame} {callers : List Frame} {name : String} {A : Chart}

/-- A frame that has gone on to another offset of its method. -/
theorem Follows.stands (h : Follows p W code name A f) {f' : Frame} (hc : f'.code = f.code)
    {heap : List (List Reference)} {Q : Point} (hm : f'.Meets heap Q)
    (hl : A.Leads f'.next (some Q)) : Stands p W code name A heap f' := by
  obtain ⟨Q', hQ', hi⟩ := hl
  exact ⟨⟨hc ▸ h.method, hc ▸ h.certified⟩, Q', hQ', hm.weaken hi⟩

/-- The frame of a call holds its arguments as the function wants them. -/
theorem ofCall_meets {sig : Signature} (hs : p.signatures.find? name = some sig) (m : Method)
    {args : List Slot} (ha : args.map Slot.kind = sig.params.map fun q => q.2.kind)
    (heap : List (List Reference)) : (Frame.ofCall m args).Meets heap (p.entry name) := by
  refine ⟨rfl, fun b hb => ?_, nofun, trivial⟩
  simp only [Program.entry, hs, Option.map_some, Option.getD_some, ← ha, List.mem_mapIdx] at hb
  obtain ⟨n, hn, rfl⟩ := hb
  have hn : n < args.length := by simpa using hn
  simp only [Frame.load, Frame.ofCall, List.getElem?_append_left hn, List.getElem?_eq_getElem hn,
    Option.getD_some, List.getElem_map]

/-- A call starts the method at its entry, and the caller waits for it. -/
theorem exec_invoke_sound (hcode : Lowered p W code) (hg : W.Holds s.globals)
    (hw : Waiting p W code name callers) (hf : Follows p W code name A f) {P : Point}
    (hm : f.Meets s.heap P) {callee : String} {arity : Nat}
    (hi : f.code[f.next - 1]? = some (.invoke callee arity))
    (ha : P.Allows W (p.resultOf name) (fun Q => A.Leads f.next (some Q))
      (fun t Q => A.Leads t (some Q)) (.invoke callee arity)) :
    Yields (Tolerated (.invoke callee arity) f) (State.Sound p W code)
      (exec code s f callers (.invoke callee arity)) := by
  obtain ⟨sig, st, hs, harity, hst, hn⟩ := ha
  rw [hcode.functions] at hs
  obtain ⟨m, hfind⟩ := hcode.method callee sig hs
  obtain ⟨B, hB⟩ := hcode.certified callee m hfind
  have hresult : p.resultOf callee = sig.result := by
    simp only [Program.resultOf, hs, Option.map_some, Option.getD_some]
  have hlen : (argumentKinds sig).length = arity := by
    simp only [argumentKinds, List.length_reverse, List.length_map, harity]
  simp only [exec, hfind]
  refine (hlen ▸ Frame.popMany_yields (hm.stack.trans hst)).bind ?_
  rintro ⟨args, f'⟩ ⟨hk, hst', he⟩
  simp only at he
  rw [argumentKinds, List.reverse_reverse] at hk
  refine ⟨hg, fun _ _ h => ?_⟩
  cases h
  refine ⟨callee, B, ⟨name, A, P.having st, ?_, ⟨arity, ?_⟩, fun heap => ?_, ?_, hw⟩, ?_⟩
  · rw [he]
    exact ⟨hf.method, hf.certified⟩
  · rw [he]
    exact hi
  · exact hm.having heap hst' (by rw [he])
  · rw [he, hresult]
    exact hn
  · obtain ⟨Q, hQ, himp⟩ := hB.start
    exact ⟨⟨⟨m, hfind, rfl⟩, hB⟩, Q, hQ, (ofCall_meets hs m hk s.heap).weaken himp⟩

/-- A return gives the caller what it waits for. -/
theorem leave_sound (hg : W.Holds s.globals) (hw : Waiting p W code name callers)
    {result : Option Slot}
    (hr : (result.map Slot.kind).toList = returned (p.resultOf name) []) :
    State.Sound p W code (s.leave result callers) := by
  cases callers with
  | nil =>
    cases result with
    | none => exact ⟨hg, nofun⟩
    | some v => exact ⟨hg, nofun⟩
  | cons g callers =>
    obtain ⟨caller, B, P, hf, -, hm, hl, hw⟩ := hw
    have happend : ∀ st, returned (p.resultOf name) st = returned (p.resultOf name) [] ++ st := by
      intro st
      unfold returned
      split <;> rfl
    rw [happend, ← hr] at hl
    cases result with
    | none =>
      refine ⟨hg, fun _ _ h => ?_⟩
      cases h
      exact ⟨caller, B, hw, hf.stands rfl ((hm s.heap).having s.heap (hm s.heap).stack rfl) hl⟩
    | some v =>
      have hst : (g.push v).stack.map Slot.kind = v.kind :: P.stack := by
        simp only [Frame.push, List.map_cons, (hm s.heap).stack]
      have hmeets : (g.push v).Meets s.heap (P.having (v.kind :: P.stack)) :=
        (hm s.heap).having s.heap hst rfl
      have hstands : Stands p W code caller B s.heap (g.push v) :=
        hf.stands (show (g.push v).code = g.code from rfl) hmeets hl
      refine ⟨hg, fun _ _ h => ?_⟩
      cases h
      exact ⟨caller, B, hw, hstands⟩

/-- One step from a sound state stands at an instruction, and leads to a sound state or to a
fault that is tolerated at that instruction. -/
theorem step_sound (hcode : Lowered p W code) (hs : State.Sound p W code s)
    (hframes : s.frames = f :: callers) : ∃ i, f.code[f.next]? = some i ∧
      Yields (Tolerated i f) (State.Sound p W code) (step code s) := by
  obtain ⟨name, A, hw, hst⟩ := hs.frames f callers hframes
  obtain ⟨i, P, hi, hP, hm, ha⟩ := hst.allows
  refine ⟨i, hi, ?_⟩
  -- the frame that already points behind the instruction
  let f₁ : Frame := { f with next := f.next + 1 }
  have hm₁ : f₁.Meets s.heap P := hm.withNext _
  have hf₁ : Follows p W code name A f₁ := ⟨hst.follows.method, hst.follows.certified⟩
  have hstep : step code s = exec code s f₁ callers i := by simp only [step, hframes, hi, f₁]
  have htol : Tolerated i f₁ = Tolerated i f := by
    funext fault
    cases fault <;> rfl
  rw [hstep, ← htol]
  by_cases ht : Transfers i
  · cases i with
    | invoke callee arity => exact exec_invoke_sound hcode hs.globals hw hf₁ hm₁ hi ha
    | ret =>
      have hres : p.resultOf name = .void := ha
      refine leave_sound hs.globals hw ?_
      rw [returned, if_pos hres]
      rfl
    | retValue =>
      obtain ⟨hres, st, hst⟩ := ha
      refine (Frame.pop_yields (hm₁.stack.trans hst)).bind ?_
      rintro ⟨v, f'⟩ ⟨hk, -, -, -⟩
      refine leave_sound hs.globals hw ?_
      rw [returned, if_neg hres, Option.map_some, hk]
      rfl
    | _ => exact ht.elim
  · have hy : Yields (Tolerated i f₁) _ (exec code s f₁ callers i) :=
      exec_yields ht ha hm₁ hs.globals
    cases he : exec code s f₁ callers i with
    | error fault =>
      rw [he] at hy
      exact hy
    | ok s' =>
      rw [he] at hy
      obtain ⟨f', Q, hs', hc, hm', hg', hnext⟩ := hy
      refine ⟨hg', fun g cs h => ?_⟩
      rw [hs'] at h
      cases h
      refine ⟨name, A, hw, hf₁.stands hc hm' ?_⟩
      rcases hnext with ⟨hn, hl⟩ | hl
      · rw [hn]
        exact hl
      · exact hl

theorem tolerated_of_step (hcode : Lowered p W code) (hs : State.Sound p W code s)
    (hframes : s.frames = f :: callers) {fault : Fault} (h : step code s = .error fault) :
    ∃ i, f.code[f.next]? = some i ∧ Tolerated i f fault := by
  obtain ⟨i, hi, hy⟩ := step_sound hcode hs hframes
  rw [h] at hy
  exact ⟨i, hi, hy⟩

theorem initial_sound (hcode : Lowered p W code) {main : Method}
    (hm : code.methods.find? mainName = some main) (hmain : p.signatures.find? mainName = none) :
    State.Sound p W code (.initial main) := by
  obtain ⟨A, hA⟩ := hcode.certified _ _ hm
  obtain ⟨Q, hQ, himp⟩ := hA.start
  have hmeets : (Frame.ofCall main []).Meets [] (p.entry mainName) := by
    refine ⟨rfl, fun b hb => ?_, fun b hb => ?_, trivial⟩
    · simp only [Program.entry, hmain, Option.map_none, Option.getD_none] at hb
      cases hb
    · cases hb
  refine ⟨(fun x t v _ hv => by cases hv), fun f callers h => ?_⟩
  cases h
  exact ⟨mainName, A, rfl, ⟨⟨main, hm, rfl⟩, hA⟩, Q, hQ, hmeets.weaken himp⟩

theorem reachable_sound (hcode : Lowered p W code) (hmain : p.signatures.find? mainName = none)
    {s : State} (h : Reachable code s) : State.Sound p W code s := by
  induction h with
  | start hm => exact initial_sound hcode hm hmain
  | @step s s' hr hstep ih =>
    cases hf : s.frames with
    | nil =>
      simp only [step, hf] at hstep
      cases hstep
      exact ih
    | cons f callers =>
      obtain ⟨i, -, hy⟩ := step_sound hcode ih hf
      rw [hstep] at hy
      exact hy

/-! ## Lowered programs -/

/-- How a frame stands that runs above the callers: at an instruction of its method, with the
intended values on its stack, none at the boundary of a statement, and before the right kind of
return. -/
structure Intended (p : Program) (code : Code) (callers : List Frame) (f : Frame) : Prop where
  method : ∃ m, code.methods.find? (running callers) = some m ∧ f.code = m.code
  instruction : f.next < f.code.length
  stack : ∃ m, (p.plan (running callers))[f.next]? = some m ∧ f.stack.map Slot.kind = m.stack ∧
    (m.boundary = true → f.stack = [])
  ret : f.code[f.next]? = some .ret → p.resultOf (running callers) = .void
  retValue : f.code[f.next]? = some .retValue → p.resultOf (running callers) ≠ .void

/-- The code never leaves the stack that lowering intended, in any run: whatever state is
reached, its running frame stands as intended and the next step can only fail as is tolerated,
and no run fails in another way. -/
structure StackSafe (p : Program) (code : Code) : Prop where
  intended : ∀ s, Reachable code s → ∀ f callers, s.frames = f :: callers → Intended p code callers f
  faults : ∀ s, Reachable code s → ∀ f callers, s.frames = f :: callers →
    ∀ fault, step code s = .error fault → ∃ i, f.code[f.next]? = some i ∧ Tolerated i f fault
  runs : ∀ n fault, run n code = .error (.fault fault) → ∃ s f callers i, Reachable code s ∧
    s.frames = f :: callers ∧ f.code[f.next]? = some i ∧ step code s = .error fault ∧
      Tolerated i f fault

theorem State.Sound.intended (hedges : ∀ name, Mark.Edges (p.plan name))
    (hs : State.Sound p W code s) (hframes : s.frames = f :: callers) :
    Intended p code callers f := by
  obtain ⟨name, A, hw, hst⟩ := hs.frames f callers hframes
  obtain ⟨i, P, hi, hP, hm, ha⟩ := hst.allows
  obtain ⟨m, hmark, hstack⟩ := hst.follows.certified.mark _ P hP
  have hkinds : f.stack.map Slot.kind = m.stack := hm.stack.trans hstack
  refine ⟨?_, hst.follows.certified.bound _ P hP, ⟨m, ?_, hkinds, fun hb => ?_⟩, ?_, ?_⟩ <;>
    try rw [hw.running]
  · exact hst.follows.method
  · exact hmark
  · have hempty := hedges name m (List.mem_of_getElem? hmark) hb
    rw [hempty] at hkinds
    exact List.map_eq_nil_iff.1 hkinds
  · intro hret
    cases hi.symm.trans hret
    exact ha
  · intro hret
    cases hi.symm.trans hret
    exact ha.1

end StackMachine

namespace Program

open StackMachine

theorem lowered {fits : Ty → Ty → Prop} {p : Program} (ht : p.Typed fits) {main : List Instruction}
    {K : Layout} (hm : p.lowerMain = .ok (main, K)) :
    Lowered p (p.rules fits).world (p.codeOf main K) := by
  refine ⟨rfl, fun name s hs => ?_, fun name m h => certified ht hm h⟩
  obtain ⟨f, hf, he⟩ := List.mem_map.1 (Table.mem_of_find?_ofList hs)
  cases he
  exact ⟨_, find?_codeOf ht main K hf⟩

/-- A source without diagnostics is lowered to code that is stack safe. -/
theorem lower_stackSafe {source file : String}
    (hd : (parse source file).check.diagnostics = []) :
    ∃ code, (parse source file).check.lower = .ok code ∧
      StackSafe (parse source file).check code := by
  have ht := parse_typed hd
  obtain ⟨main, K, hm, -⟩ := lowerMain_total ht
  have hcode := lowered ht hm
  have hmain := find?_signatures_main ht
  refine ⟨_, lower_eq ht hd hm, fun s hr f callers hf => ?_, fun s hr f callers hf fault hfault => ?_,
    fun n fault h => ?_⟩
  · exact (reachable_sound hcode hmain hr).intended (plan_edges ht) hf
  · exact tolerated_of_step hcode (reachable_sound hcode hmain hr) hf hfault
  · obtain ⟨s, hr, hne, hfault⟩ := exists_step_of_run (find?_codeOf_main _ main K) h
    obtain ⟨f, callers, hf⟩ := List.exists_cons_of_ne_nil hne
    obtain ⟨i, hi, htol⟩ := tolerated_of_step hcode (reachable_sound hcode hmain hr) hf hfault
    exact ⟨s, f, callers, i, hr, hf, hi, hfault, htol⟩

/-- A program that stores an `object` under `int`, with a function, a loop and branches. -/
theorem lower_stackSafe_half :
    let source := "function half(n: int): int \x7b return n / 2 \x7d var o: object = 6 var n: int = o " ++
      "for (x in [n, 4]) \x7b if (x > 4) \x7b print(half(x)) \x7d else \x7b print(\"no\") \x7d \x7d"
    (parse source "half.cat").check.diagnostics = [] ∧
      ∃ code, (parse source "half.cat").check.lower = .ok code ∧
        StackSafe (parse source "half.cat").check code :=
  ⟨by decide +kernel, lower_stackSafe (by decide +kernel)⟩

end Program

end CatScript
