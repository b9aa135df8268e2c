import CatScript.Code.Assembler
import Mathlib.Data.List.Forall2
import Mathlib.Data.List.Range

/-!
# Labels

A method is written step by step, and the labels of its jumps become offsets when it is finished.
An open jump and a jump to an offset are the same instruction, so what a draft has to keep is which
of its instructions are open jumps. `Draft.Keeps` says what the draft is after some steps, and every
step keeps it. Finishing goes through the open jumps from the first to the last: those in front of
one have their offsets by then, and it still has its label.

A label stands for the place it was put to last, also where it is placed again behind a jump.
Numbers are given out in order and the count goes on from method to method, so no label is given out
twice.

Results:
* `Draft.Keeps.step`, `Draft.Keeps.run`: what a step and a sequence of steps make of a draft.
* `resolve_spec`: what resolving the open jumps makes of the code.
* `Assembler.labels_eq_range'`: the labels that are given out in any use of an assembler.
* `Draft.Keeps.resolve`, `Assembler.finish_run`: resolving and finishing what has been written.
* `Assembler.finish_resolves`: what finishing a method makes of the steps in which it was written.
-/
namespace CatScript.Code

/-! ## Steps of writing a method -/

/-- What is done between the start and the end of a method. -/
inductive Step where
  | write (line : Line)
  | newLabel
  deriving DecidableEq, Repr

def Assembler.step (a : Assembler) : Step → Assembler
  | .write line => a.write line
  | .newLabel => a.newLabel.2

def Assembler.run (a : Assembler) (steps : List Step) : Assembler := steps.foldl step a

/-- An instruction of a draft, or a jump to a label. -/
inductive Entry where
  | fixed (i : Instruction)
  | jump (j : Jump) (label : Nat)
  deriving DecidableEq, Repr

/-- The instruction that a draft keeps for it. -/
def Entry.kept : Entry → Instruction
  | fixed i => i
  | jump j label => .jump j label

def Step.entry? : Step → Option Entry
  | write (.instruction i) => some (.fixed i)
  | write (.jump j label) => some (.jump j label)
  | write (.place _) | newLabel => none

/-- The instructions that are written in the steps, in order. -/
def entries (steps : List Step) : List Entry := steps.filterMap Step.entry?

/-- The label is placed in the steps. -/
def Places (steps : List Step) (label : Nat) : Prop := .write (.place label) ∈ steps

/-- The offset is that at which the steps place the label last. -/
def PlacedLast (steps : List Step) (label offset : Nat) : Prop :=
  ∃ front back, steps = front ++ .write (.place label) :: back ∧ ¬ Places back label ∧
    offset = (entries front).length

theorem entries_concat (steps : List Step) (s : Step) :
    entries (steps ++ [s]) = entries steps ++ s.entry?.toList := by
  rw [entries, List.filterMap_append]
  cases h : s.entry? <;> simp [entries, h]

/-! ## Places of labels -/

section

variable {steps : List Step} {s : Step} {label offset : Nat}

theorem places_iff : Places steps label ↔ ∃ offset, PlacedLast steps label offset := by
  constructor
  · intro h
    -- the last place is the first one from behind
    obtain ⟨back, front, hsteps, hback⟩ := List.eq_append_cons_of_mem (List.mem_reverse.2 h)
    refine ⟨_, front.reverse, back.reverse, ?_, fun hmem => hback (List.mem_reverse.1 hmem), rfl⟩
    rw [← List.reverse_reverse steps, hsteps]
    simp
  · rintro ⟨offset, front, back, rfl, -, -⟩
    exact List.mem_append_right _ (List.mem_cons_self ..)

/-- A place behind all other steps is the last one. -/
theorem placedLast_concat_self : PlacedLast (steps ++ [.write (.place label)]) label offset ↔
    offset = (entries steps).length := by
  constructor
  · rintro ⟨front, back, hsteps, hback, rfl⟩
    rcases List.eq_nil_or_concat back with rfl | ⟨back, last, rfl⟩
    · rw [(List.append_inj' hsteps rfl).1]
    · rw [List.concat_eq_append, ← List.cons_append, ← List.append_assoc] at hsteps
      obtain ⟨-, hlast⟩ := List.append_inj' hsteps rfl
      cases hlast
      exact absurd (List.mem_append_right back (List.mem_singleton_self _))
        (List.concat_eq_append ▸ hback)
  · rintro rfl
    exact ⟨steps, [], rfl, List.not_mem_nil, rfl⟩

/-- No other step places the label. -/
theorem placedLast_concat_of_ne (hs : s ≠ .write (.place label)) :
    PlacedLast (steps ++ [s]) label offset ↔ PlacedLast steps label offset := by
  constructor
  · rintro ⟨front, back, hsteps, hback, rfl⟩
    rcases List.eq_nil_or_concat back with rfl | ⟨back, last, rfl⟩
    · obtain ⟨-, hlast⟩ := List.append_inj' hsteps rfl
      cases hlast
      exact absurd rfl hs
    · rw [List.concat_eq_append] at hsteps hback
      rw [← List.cons_append, ← List.append_assoc] at hsteps
      obtain ⟨hsteps, -⟩ := List.append_inj' hsteps rfl
      exact ⟨front, back, hsteps, fun h => hback (List.mem_append_left _ h), rfl⟩
  · rintro ⟨front, back, rfl, hback, rfl⟩
    refine ⟨front, back ++ [s], by simp, fun h => ?_, rfl⟩
    rcases List.mem_append.1 h with h | h
    · exact hback h
    · exact hs (List.mem_singleton.1 h).symm

end

/-! ## What a draft keeps -/

/-- The offsets of the jumps to labels, in code that starts at offset `n`. -/
def jumpsFrom (n : Nat) : List Entry → List Nat
  | [] => []
  | .fixed _ :: es => jumpsFrom (n + 1) es
  | .jump _ _ :: es => n :: jumpsFrom (n + 1) es

theorem jumpsFrom_append (n : Nat) (es fs : List Entry) :
    jumpsFrom n (es ++ fs) = jumpsFrom n es ++ jumpsFrom (n + es.length) fs := by
  induction es generalizing n with
  | nil => rfl
  | cons e es ih =>
    have hn : n + 1 + es.length = n + (e :: es).length := by
      rw [List.length_cons]
      omega
    cases e <;> simp only [List.cons_append, jumpsFrom, ih, hn]

/-- The draft after these steps. -/
structure Draft.Keeps (d : Draft) (steps : List Step) : Prop where
  code : d.code = (entries steps).map Entry.kept
  opened : d.opened = jumpsFrom 0 (entries steps)
  placed : ∀ label offset, d.placed.lookup label = some offset ↔ PlacedLast steps label offset

theorem Draft.start_keeps (name : String) (params : Nat) : (Draft.start name params).Keeps [] := by
  refine ⟨rfl, rfl, fun label offset => ⟨nofun, ?_⟩⟩
  rintro ⟨front, back, hsteps, -, -⟩
  cases front <;> cases hsteps

section

variable {d : Draft} {steps : List Step}

theorem Draft.Keeps.length_code (h : d.Keeps steps) : d.code.length = (entries steps).length := by
  rw [h.code, List.length_map]

theorem Draft.Keeps.write (h : d.Keeps steps) (line : Line) :
    (d.write line).Keeps (steps ++ [.write line]) := by
  cases line with
  | instruction i =>
    constructor
    case code => simp [Draft.write, entries_concat, Step.entry?, h.code, Entry.kept]
    case opened =>
      simp [Draft.write, entries_concat, Step.entry?, jumpsFrom_append, jumpsFrom, h.opened]
    case placed =>
      intro label offset
      rw [placedLast_concat_of_ne (by simp)]
      exact h.placed label offset
  | jump j target =>
    constructor
    case code => simp [Draft.write, entries_concat, Step.entry?, h.code, Entry.kept]
    case opened =>
      simp [Draft.write, entries_concat, Step.entry?, jumpsFrom_append, jumpsFrom, h.opened,
        h.length_code]
    case placed =>
      intro label offset
      rw [placedLast_concat_of_ne (by simp)]
      exact h.placed label offset
  | place target =>
    constructor
    case code => simp [Draft.write, entries_concat, Step.entry?, h.code]
    case opened => simp [Draft.write, entries_concat, Step.entry?, h.opened]
    case placed =>
      intro label offset
      by_cases hlabel : label = target
      · subst hlabel
        rw [placedLast_concat_self, ← h.length_code]
        simp [Draft.write, eq_comm]
      · rw [placedLast_concat_of_ne (by simpa using Ne.symm hlabel), ← h.placed label offset]
        have hne : (label == target) = false := beq_false_of_ne hlabel
        simp only [Draft.write, List.lookup_cons, hne]

/-- A step keeps what the draft is. -/
theorem Draft.Keeps.step {a : Assembler} (h : a.draft.Keeps steps) (s : Step) :
    (a.step s).draft.Keeps (steps ++ [s]) := by
  cases s with
  | write line => exact h.write line
  | newLabel =>
    have hentries : entries (steps ++ [.newLabel]) = entries steps := by
      simp [entries_concat, Step.entry?]
    refine ⟨?_, ?_, fun label offset => ?_⟩
    · rw [hentries]
      exact h.code
    · rw [hentries]
      exact h.opened
    · have hne : Step.newLabel ≠ .write (.place label) := nofun
      rw [placedLast_concat_of_ne hne]
      exact h.placed label offset

theorem Draft.Keeps.run {a : Assembler} (h : a.draft.Keeps steps) (more : List Step) :
    (a.run more).draft.Keeps (steps ++ more) := by
  induction more generalizing a steps with
  | nil =>
    rw [List.append_nil]
    exact h
  | cons s more ih =>
    have hmore := ih (h.step s)
    rwa [List.append_assoc, List.singleton_append] at hmore

end

/-- Steps leave the methods, the name and the number of parameters alone. -/
theorem Assembler.run_frame (a : Assembler) (steps : List Step) :
    (a.run steps).code = a.code ∧ (a.run steps).draft.name = a.draft.name ∧
      (a.run steps).draft.params = a.draft.params := by
  induction steps generalizing a with
  | nil => exact ⟨rfl, rfl, rfl⟩
  | cons s steps ih =>
    obtain ⟨hcode, hname, hparams⟩ := ih (a.step s)
    have hstep : (a.step s).code = a.code ∧ (a.step s).draft.name = a.draft.name ∧
        (a.step s).draft.params = a.draft.params := by
      cases s with
      | write line => cases line <;> exact ⟨rfl, rfl, rfl⟩
      | newLabel => exact ⟨rfl, rfl, rfl⟩
    exact ⟨hcode.trans hstep.1, hname.trans hstep.2.1, hparams.trans hstep.2.2⟩

/-! ## Resolving open jumps -/

/-- What becomes of an entry, where `place` says for which offset a label stands. -/
inductive Entry.Becomes (place : Nat → Nat → Prop) : Entry → Instruction → Prop
  | fixed (i : Instruction) : Becomes place (fixed i) i
  | jump (j : Jump) {label target : Nat} : place label target →
    Becomes place (jump j label) (.jump j target)

theorem Entry.Becomes.imp {P Q : Nat → Nat → Prop}
    (hPQ : ∀ label target, P label target → Q label target) {e : Entry} {i : Instruction}
    (h : e.Becomes P i) : e.Becomes Q i := by
  cases h with
  | fixed i => exact .fixed i
  | jump j hplace => exact .jump j (hPQ _ _ hplace)

theorem Entry.Becomes.placed {place : Nat → Nat → Prop} {es : List Entry} {code : List Instruction}
    (h : List.Forall₂ (Becomes place) es code) {j : Jump} {label : Nat}
    (hmem : .jump j label ∈ es) : ∃ target, place label target := by
  induction h with
  | nil => cases hmem
  | cons hi _ ih =>
    rcases List.mem_cons.1 hmem with rfl | hmem
    · cases hi with
      | jump _ hplace => exact ⟨_, hplace⟩
    · exact ih hmem

/-- The label of the first jump whose label has no place. -/
def FirstMissing (placed : Nat → Prop) (es : List Entry) (label : Nat) : Prop :=
  ∃ front j back, es = front ++ .jump j label :: back ∧ ¬ placed label ∧
    ∀ j' label', Entry.jump j' label' ∈ front → placed label'

theorem FirstMissing.cons {placed : Nat → Prop} {e : Entry} {es : List Entry} {label : Nat}
    (h : FirstMissing placed es label) (he : ∀ j l, e = .jump j l → placed l) :
    FirstMissing placed (e :: es) label := by
  obtain ⟨front, j, back, rfl, hnone, hall⟩ := h
  refine ⟨e :: front, j, back, rfl, hnone, fun j' l hmem => ?_⟩
  rcases List.mem_cons.1 hmem with hfirst | hmem
  · exact he j' l hfirst.symm
  · exact hall j' l hmem

/-- Resolving changes every open jump from its label to the place of the label, behind code that has
been resolved. It stops at the first label without a place. -/
theorem resolve_spec (placed : List (Nat × Nat)) (front : List Instruction) (es : List Entry) :
    (∃ code, List.Forall₂ (Entry.Becomes fun l t => placed.lookup l = some t) es code ∧
      resolve placed (jumpsFrom front.length es) (front ++ es.map Entry.kept) =
        .ok (front ++ code)) ∨
    ∃ label, FirstMissing (fun l => placed.lookup l ≠ none) es label ∧
      resolve placed (jumpsFrom front.length es) (front ++ es.map Entry.kept) =
        .error (.unplacedLabel label) := by
  induction es generalizing front with
  | nil => exact .inl ⟨[], .nil, rfl⟩
  | cons e es ih =>
    have hshift (i : Instruction) : front ++ i :: es.map Entry.kept =
        (front ++ [i]) ++ es.map Entry.kept := by simp
    have hlength (i : Instruction) : (front ++ [i]).length = front.length + 1 := by simp
    cases e with
    | fixed i =>
      specialize ih (front ++ [i])
      rw [hlength, ← hshift] at ih
      rcases ih with ⟨code, hcode, hok⟩ | ⟨label, hmissing, herror⟩
      · refine .inl ⟨i :: code, .cons (.fixed i) hcode, hok.trans ?_⟩
        rw [List.append_assoc, List.singleton_append]
      · exact .inr ⟨label, hmissing.cons nofun, herror⟩
    | jump j label =>
      -- only jumps in front of this one have been changed, so it still has its label
      have hget : (front ++ Instruction.jump j label :: es.map Entry.kept)[front.length]? =
          some (.jump j label) := by simp
      cases hplace : placed.lookup label with
      | none =>
        refine .inr ⟨label, ⟨[], j, es, rfl, fun h => h hplace, nofun⟩, ?_⟩
        simp only [List.map_cons, Entry.kept, jumpsFrom, resolve, hget, hplace]
      | some target =>
        have hset : (front ++ Instruction.jump j label :: es.map Entry.kept).set front.length
            (.jump j target) = (front ++ [.jump j target]) ++ es.map Entry.kept := by
          rw [← hshift, List.set_append_right _ _ (Nat.le_refl _), Nat.sub_self]
          rfl
        specialize ih (front ++ [.jump j target])
        rw [hlength] at ih
        have hresolve : resolve placed (jumpsFrom front.length (.jump j label :: es))
            (front ++ (Entry.jump j label :: es).map Entry.kept) =
            resolve placed (jumpsFrom (front.length + 1) es)
              ((front ++ [.jump j target]) ++ es.map Entry.kept) := by
          simp only [List.map_cons, Entry.kept, jumpsFrom, resolve, hget, hplace, hset]
        rw [hresolve]
        rcases ih with ⟨code, hcode, hok⟩ | ⟨l, hmissing, herror⟩
        · refine .inl ⟨.jump j target :: code, .cons (.jump j hplace) hcode, ?_⟩
          rw [hok, List.append_assoc, List.singleton_append]
        · refine .inr ⟨l, hmissing.cons fun j' l' he => ?_, herror⟩
          cases he
          rw [hplace]
          exact Option.some_ne_none target

/-! ## Numbers of labels -/

/-- What can be done with an assembler. -/
inductive Call where
  | start (name : String) (params : Nat)
  | step (s : Step)
  | finish (locals : Nat)
  deriving DecidableEq, Repr

def Assembler.call (a : Assembler) : Call → Assembler
  | .start name params => a.start name params
  | .step s => a.step s
  | .finish locals => (a.finish locals).2

/-- The labels that are given out in the calls. -/
def Assembler.labels (a : Assembler) : List Call → List Nat
  | [] => []
  | .step .newLabel :: calls => a.newLabel.1 :: labels a.newLabel.2 calls
  | c :: calls => labels (a.call c) calls

theorem Assembler.nextLabel_call (a : Assembler) (c : Call) (hc : c ≠ .step .newLabel) :
    (a.call c).nextLabel = a.nextLabel := by
  cases c with
  | start => rfl
  | step s =>
    cases s with
    | write => rfl
    | newLabel => exact absurd rfl hc
  | finish locals =>
    unfold call finish
    dsimp only
    split <;> rfl

/-- Labels are numbered one after the other, whatever is done in between. -/
theorem Assembler.labels_eq_range' (a : Assembler) (calls : List Call) :
    a.labels calls = List.range' a.nextLabel (calls.count (.step .newLabel)) := by
  induction calls generalizing a with
  | nil => rfl
  | cons c calls ih =>
    by_cases hc : c = .step .newLabel
    · subst hc
      rw [labels, ih, List.count_cons_self, List.range'_succ]
      rfl
    · rw [labels, ih, nextLabel_call a c hc, List.count_cons_of_ne hc]
      exact hc

/-! ## Methods that are finished -/

/-- A label has a place in the draft if and only if the steps place it. -/
theorem Draft.Keeps.lookup_ne_none {d : Draft} {steps : List Step} (h : d.Keeps steps)
    (label : Nat) : d.placed.lookup label ≠ none ↔ Places steps label := by
  rw [places_iff, Option.ne_none_iff_exists']
  exact exists_congr fun offset => h.placed label offset

/-- Resolving a draft gives each jump to a label the offset at which the steps place the label last,
or names the label of the first jump that has none. -/
theorem Draft.Keeps.resolve {d : Draft} {steps : List Step} (h : d.Keeps steps) :
    (∃ code, List.Forall₂ (Entry.Becomes (PlacedLast steps)) (entries steps) code ∧
      Code.resolve d.placed d.opened d.code = .ok code) ∨
    ∃ label, FirstMissing (Places steps) (entries steps) label ∧
      Code.resolve d.placed d.opened d.code = .error (.unplacedLabel label) := by
  have hresolve := resolve_spec d.placed [] (entries steps)
  simp only [List.length_nil, List.nil_append, ← h.code, ← h.opened] at hresolve
  refine hresolve.imp ?_ ?_
  · rintro ⟨code, hbecomes, hok⟩
    exact ⟨code, hbecomes.imp fun e i he => he.imp fun label target => (h.placed label target).1,
      hok⟩
  · rintro ⟨label, ⟨front, j, back, hsteps, hnone, hall⟩, herror⟩
    refine ⟨label, ⟨front, j, back, hsteps, ?_, fun j' l' hmem => ?_⟩, herror⟩
    · rwa [← h.lookup_ne_none]
    · exact (h.lookup_ne_none l').1 (hall j' l' hmem)

/-- Finishing a method turns its jumps to labels into jumps to offsets and adds it, or names the label
of the first jump that has none and adds nothing. -/
theorem Assembler.finish_run (a : Assembler) (name : String) (params locals : Nat)
    (steps : List Step) :
    (∃ code, List.Forall₂ (Entry.Becomes (PlacedLast steps)) (entries steps) code ∧
      ((a.start name params).run steps).finish locals =
        (.ok (), { (a.start name params).run steps with
          code := a.code.add ⟨name, params, locals, code⟩
          draft := blank })) ∨
    ∃ label, FirstMissing (Places steps) (entries steps) label ∧
      ((a.start name params).run steps).finish locals =
        (.error (.unplacedLabel label), { (a.start name params).run steps with
          code := a.code
          draft := blank }) := by
  have hkeeps : ((a.start name params).run steps).draft.Keeps steps :=
    (Draft.start_keeps name params).run (a := a.start name params) steps
  obtain ⟨hcode, hname, hparams⟩ := (a.start name params).run_frame steps
  generalize (a.start name params).run steps = b at *
  change b.code = a.code at hcode
  change b.draft.name = name at hname
  change b.draft.params = params at hparams
  refine hkeeps.resolve.imp ?_ ?_
  · rintro ⟨code, hbecomes, hok⟩
    exact ⟨code, hbecomes, by simp only [finish, hok, hcode, hname, hparams]⟩
  · rintro ⟨label, hmissing, herror⟩
    exact ⟨label, hmissing, by simp only [finish, herror, hcode]⟩

/-- A method that is written in any steps and finished has an instruction for each one that was
written, in the same order. Those that were no jumps to labels are the same, and each jump to a
label goes to the offset at which the steps place the label last. If there are jumps to labels that
are not placed, the first of them is named instead and no method is added. In all that is done with
an assembler, no label is given out twice. -/
theorem Assembler.finish_resolves (a : Assembler) (name : String) (params locals : Nat)
    (steps : List Step) (calls : List Call) :
    (((∀ j label, .jump j label ∈ entries steps → Places steps label) ∧
        ∃ code, List.Forall₂ (Entry.Becomes (PlacedLast steps)) (entries steps) code ∧
          ((a.start name params).run steps).finish locals =
            (.ok (), { (a.start name params).run steps with
              code := a.code.add ⟨name, params, locals, code⟩
              draft := blank })) ∨
      ∃ label, FirstMissing (Places steps) (entries steps) label ∧
        ((a.start name params).run steps).finish locals =
          (.error (.unplacedLabel label), { (a.start name params).run steps with
            code := a.code
            draft := blank })) ∧
    (a.labels calls).Nodup := by
  refine ⟨(a.finish_run name params locals steps).imp_left ?_,
    a.labels_eq_range' calls ▸ List.nodup_range'⟩
  rintro ⟨code, hbecomes, hok⟩
  refine ⟨fun j label hmem => ?_, code, hbecomes, hok⟩
  obtain ⟨target, hplace⟩ := Entry.Becomes.placed hbecomes hmem
  exact places_iff.2 ⟨target, hplace⟩

/-- A jump to label 0, which is placed at offset 2 at last, and a jump to offset 0. -/
example :
    let steps : List Step := [.newLabel, .write (.place 0), .write (.jump .always 0),
      .write (.instruction (.jump .always 0)), .write (.place 0), .write (.instruction .ret)]
    let a := (((Assembler.empty.start "f" 0).run steps).finish 0).2
    (a.code.methods.find? "f").map Method.code = some [.jump .always 2, .jump .always 0, .ret] := by
  decide

end CatScript.Code
