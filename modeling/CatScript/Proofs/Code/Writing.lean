import CatScript.Code.Writer
import CatScript.Proofs.Code.Labels
import CatScript.Proofs.Code.Lowering

/-!
# Writing gives the lowered code

Writing a part of a program takes steps of an assembler. Where these start, some labels may wait for
their place: those of the conditionals and loops around the part. The part leaves them waiting. The
labels that it gives out itself are placed in it, each once, and every jump goes to a label of the
method (`Account`, `Completes`).

So in a whole method all labels that are given out have one place, and finishing it turns each jump
into one to an offset. These are the offsets that lowering computes ahead: with every label standing
for its place, what has been written is the lowered code.

Results:
* `Completes.finish`: what a method becomes that has been written.
* `Stmt.write_lower`: writing a statement gives its lowered code, or fails as lowering does.
* `Program.write_eq`: writing a program gives the code of `Program.lower`.
-/
namespace CatScript

namespace Code

/-! ## Two ways to the same result -/

/-- Both give results that are related, or both fail for the same reason. -/
inductive Together {α β : Type} (R : α → β → Prop) : Except Fault α → Except Fault β → Prop
  | ok {x : α} {y : β} : R x y → Together R (.ok x) (.ok y)
  | error (f : Fault) : Together R (.error f) (.error f)

namespace Together

theorem same {α : Type} (x : Except Fault α) : Together Eq x x := by
  cases x with
  | ok x => exact .ok rfl
  | error f => exact .error f

theorem bind {α β γ δ : Type} {R : α → β → Prop} {S : γ → δ → Prop} {x : Except Fault α}
    {y : Except Fault β} {f : α → Except Fault γ} {g : β → Except Fault δ} (h : Together R x y)
    (hfg : ∀ a b, R a b → Together S (f a) (g b)) : Together S (x >>= f) (y >>= g) := by
  cases h with
  | ok h => exact hfg _ _ h
  | error f => exact .error f

/-- One side goes on behind its result, and that does not fail. -/
theorem bind_ok {α β δ : Type} {R : α → β → Prop} {S : α → δ → Prop} {x : Except Fault α}
    {y : Except Fault β} {g : β → δ} (h : Together R x y) (hg : ∀ a b, R a b → S a (g b)) :
    Together S x (y >>= fun b => .ok (g b)) := by
  cases h with
  | ok h => exact .ok (hg _ _ h)
  | error f => exact .error f

theorem and {α β : Type} {R : α → β → Prop} {T : β → Prop} {x : Except Fault α}
    {y : Except Fault β} (h : Together R x y) (hy : ∀ b, y = .ok b → T b) :
    Together (fun a b => R a b ∧ T b) x y := by
  cases h with
  | ok h => exact .ok ⟨h, hy _ rfl⟩
  | error f => exact .error f

theorem eq {α : Type} {x y : Except Fault α} (h : Together Eq x y) : x = y := by
  cases h with
  | ok h => rw [h]
  | error f => rfl

end Together

/-! ## What steps leave behind -/

/-- The label that a step places. -/
def Step.placed? : Step → Option Nat
  | write (.place label) => some label
  | write (.instruction _) | write (.jump _ _) | newLabel => none

/-- The labels that are placed in the steps, in order. -/
def placements (steps : List Step) : List Nat := steps.filterMap Step.placed?

theorem mem_placements {steps : List Step} {label : Nat} :
    label ∈ placements steps ↔ Places steps label := by
  rw [placements, List.mem_filterMap]
  constructor
  · rintro ⟨s, hs, hlabel⟩
    unfold Step.placed? at hlabel
    split at hlabel <;> cases hlabel
    exact hs
  · exact fun h => ⟨_, h, rfl⟩

/-- The instruction that an entry becomes. -/
def Entry.target (place : Nat → Nat) : Entry → Instruction
  | fixed i => i
  | jump j label => .jump j (place label)

namespace Assembler

variable {place : Nat → Nat} {a : Assembler}

/-- The offset of the next instruction. -/
def offset (a : Assembler) : Nat := a.draft.code.length

/-- Labels stand for the offsets at which they have been placed. -/
def Fits (place : Nat → Nat) (a : Assembler) : Prop := ∀ p ∈ a.draft.placed, place p.1 = p.2

theorem run_append (a : Assembler) (steps more : List Step) :
    a.run (steps ++ more) = (a.run steps).run more := List.foldl_append

theorem run_lines (a : Assembler) (lines : List Line) :
    a.run (lines.map .write) = a.writeAll lines := List.foldl_map

theorem nextLabel_run (a : Assembler) (steps : List Step) :
    (a.run steps).nextLabel = a.nextLabel + steps.count .newLabel := by
  induction steps generalizing a with
  | nil => rfl
  | cons s steps ih =>
    refine (ih (a.step s)).trans ?_
    cases s with
    | write line =>
      rw [List.count_cons_of_ne (by simp)]
      rfl
    | newLabel =>
      rw [List.count_cons_self]
      change a.nextLabel + 1 + _ = _
      omega

theorem offset_run (a : Assembler) (steps : List Step) :
    (a.run steps).offset = a.offset + (entries steps).length := by
  induction steps generalizing a with
  | nil => rfl
  | cons s steps ih =>
    refine (ih (a.step s)).trans ?_
    rcases s with ⟨_ | _ | _⟩ | _ <;>
      simp [step, write, Draft.write, newLabel, offset, entries, List.filterMap_cons,
        Step.entry?, Nat.add_comm, Nat.add_left_comm]

theorem placed_run (a : Assembler) (steps : List Step) :
    ∃ ps, (a.run steps).draft.placed = ps ++ a.draft.placed ∧
      ps.map Prod.fst = (placements steps).reverse := by
  induction steps generalizing a with
  | nil => exact ⟨[], rfl, rfl⟩
  | cons s steps ih =>
    obtain ⟨ps, hps, hkeys⟩ := ih (a.step s)
    rcases s with ⟨_ | _ | label⟩ | _
    case write.place =>
      refine ⟨ps ++ [(label, a.offset)], hps.trans ?_, ?_⟩
      · rw [List.append_assoc]
        rfl
      · simp [hkeys, placements, Step.placed?]
    all_goals exact ⟨ps, hps, hkeys⟩

theorem Fits.of_run {steps : List Step} (h : (a.run steps).Fits place) : a.Fits place := by
  obtain ⟨ps, hps, -⟩ := a.placed_run steps
  exact fun p hp => h p (hps ▸ List.mem_append_right ps hp)

section

variable {i : Instruction} {j : Jump} {label : Nat} {line : Line} {lines : List Line}

@[simp] theorem fits_instruction :
    (a.write (.instruction i)).Fits place ↔ a.Fits place := Iff.rfl

@[simp] theorem fits_jump : (a.write (.jump j label)).Fits place ↔ a.Fits place := Iff.rfl

@[simp] theorem fits_place :
    (a.write (.place label)).Fits place ↔ place label = a.offset ∧ a.Fits place :=
  List.forall_mem_cons

@[simp] theorem offset_instruction : (a.write (.instruction i)).offset = a.offset + 1 := by
  simp [offset, write, Draft.write]

@[simp] theorem offset_jump : (a.write (.jump j label)).offset = a.offset + 1 := by
  simp [offset, write, Draft.write]

@[simp] theorem offset_place : (a.write (.place label)).offset = a.offset := rfl

@[simp] theorem offset_newLabel : a.newLabel.2.offset = a.offset := rfl

@[simp] theorem fits_newLabel : a.newLabel.2.Fits place ↔ a.Fits place := Iff.rfl

@[simp] theorem fst_newLabel : a.newLabel.1 = a.nextLabel := rfl

@[simp] theorem nextLabel_newLabel : a.newLabel.2.nextLabel = a.nextLabel + 1 := rfl

@[simp] theorem writeAll_nil : a.writeAll [] = a := rfl

@[simp] theorem writeAll_cons : a.writeAll (line :: lines) = (a.write line).writeAll lines := rfl

end

end Assembler

/-! ## Writing -/

/-- What steps from `a` on write, where the labels of the method are counted from `first` on and stand
for the offsets that `place` says. At first the labels `P` wait for their place, and then the labels
`Q`. -/
structure Account (place : Nat → Nat) (first : Nat) (a : Assembler) (P : List Nat)
    (steps : List Step) (Q : List Nat) (code : List Instruction) : Prop where
  waiting : (placements steps ++ Q).Perm
    (P ++ List.range' a.nextLabel (steps.count .newLabel))
  jumps : ∀ j label, .jump j label ∈ entries steps →
    first ≤ label ∧ label < (a.run steps).nextLabel
  length : code.length = (entries steps).length
  code : (a.run steps).Fits place → (entries steps).map (Entry.target place) = code

/-- The code is written between two assemblers, in some steps. -/
def Writes (place : Nat → Nat) (first : Nat) (a : Assembler) (P : List Nat) (b : Assembler)
    (Q : List Nat) (code : List Instruction) : Prop :=
  ∃ steps, b = a.run steps ∧ Account place first a P steps Q code

namespace Writes

variable {place : Nat → Nat} {first : Nat} {a b d : Assembler} {P Q R : List Nat}
  {code more : List Instruction}

theorem refl : Writes place first a P a P [] :=
  ⟨[], rfl, by simp [placements], by simp [entries], rfl, fun _ => rfl⟩

theorem trans (h : Writes place first a P b Q code) (h' : Writes place first b Q d R more) :
    Writes place first a P d R (code ++ more) := by
  obtain ⟨s, rfl, hs⟩ := h
  obtain ⟨t, rfl, ht⟩ := h'
  have hentries : entries (s ++ t) = entries s ++ entries t := List.filterMap_append
  refine ⟨s ++ t, (a.run_append s t).symm, ?_⟩
  constructor
  case waiting =>
    have hwaiting := ht.waiting
    rw [Assembler.nextLabel_run] at hwaiting
    rw [placements, List.filterMap_append, List.append_assoc, List.count_append,
      ← List.range'_append_1, ← List.append_assoc P]
    refine (hwaiting.append_left _).trans ?_
    rw [← List.append_assoc]
    exact hs.waiting.append_right _
  case jumps =>
    intro j label hmem
    rw [Assembler.run_append, Assembler.nextLabel_run (a.run s)]
    rw [hentries, List.mem_append] at hmem
    rcases hmem with hmem | hmem
    · obtain ⟨hle, hlt⟩ := hs.jumps j label hmem
      exact ⟨hle, by omega⟩
    · have hjump := ht.jumps j label hmem
      rwa [Assembler.nextLabel_run (a.run s)] at hjump
  case length => rw [hentries, List.length_append, List.length_append, hs.length, ht.length]
  case code =>
    intro hfits
    rw [Assembler.run_append] at hfits
    rw [hentries, List.map_append, hs.code hfits.of_run, ht.code hfits]

/-- The code as it is once labels have their places. -/
theorem congr (h : Writes place first a P b Q code) (hlength : code.length = more.length)
    (hcode : b.Fits place → code = more) : Writes place first a P b Q more := by
  obtain ⟨steps, rfl, h⟩ := h
  exact ⟨steps, rfl, h.waiting, h.jumps, hlength ▸ h.length,
    fun hfits => (h.code hfits).trans (hcode hfits)⟩

theorem fits (h : Writes place first a P b Q code) (hb : b.Fits place) : a.Fits place := by
  obtain ⟨steps, rfl, -⟩ := h
  exact hb.of_run

theorem offset (h : Writes place first a P b Q code) : b.offset = a.offset + code.length := by
  obtain ⟨steps, rfl, h⟩ := h
  rw [Assembler.offset_run, h.length]

theorem nextLabel_le (h : Writes place first a P b Q code) : a.nextLabel ≤ b.nextLabel := by
  obtain ⟨steps, rfl, -⟩ := h
  rw [Assembler.nextLabel_run]
  exact Nat.le_add_right ..

/-- A label that is given out waits for its place. -/
theorem newLabel : Writes place first a P a.newLabel.2 (a.nextLabel :: P) [] :=
  ⟨[.newLabel], rfl, (List.perm_append_singleton a.nextLabel P).symm,
    by simp [entries, Step.entry?], rfl, fun _ => rfl⟩

/-- Two labels, of which the second waits in front of the first. -/
theorem newLabels : Writes place first a P a.newLabel.2.newLabel.2
    ((a.nextLabel + 1) :: a.nextLabel :: P) [] := newLabel.trans newLabel

/-- The lines may place labels that wait, and jump to labels of the method. -/
theorem lines (lines : List Line)
    (hwaiting : P.Perm (placements (lines.map .write) ++ Q))
    (hjumps : ∀ j label, .jump j label ∈ lines → first ≤ label ∧ label < a.nextLabel) :
    Writes place first a P (a.writeAll lines) Q
      ((entries (lines.map .write)).map (Entry.target place)) := by
  have hcount : (lines.map Step.write).count .newLabel = 0 := List.count_eq_zero.2 (by simp)
  refine ⟨lines.map .write, (a.run_lines lines).symm, ?_, fun j label hmem => ?_, by simp,
    fun _ => rfl⟩
  · rw [hcount, List.range'_zero, List.append_nil]
    exact hwaiting.symm
  · rw [Assembler.nextLabel_run, hcount]
    obtain ⟨s, hs, hentry⟩ := List.mem_filterMap.1 hmem
    obtain ⟨line, hline, rfl⟩ := List.mem_map.1 hs
    cases line <;> cases hentry
    exact hjumps j label hline

end Writes

/-- The code is written between two assemblers. All labels that are given out are placed, whatever
other labels wait. -/
def Completes (a b : Assembler) (code : List Instruction) : Prop :=
  ∀ place first P, first ≤ a.nextLabel → Writes place first a P b P code

namespace Completes

variable {a b d : Assembler} {code more : List Instruction}

theorem refl (a : Assembler) : Completes a a [] := fun _ _ _ _ => .refl

theorem trans (h : Completes a b code) (h' : Completes b d more) :
    Completes a d (code ++ more) := by
  intro place first P hfirst
  have hw := h place first P hfirst
  exact hw.trans (h' place first P (Nat.le_trans hfirst hw.nextLabel_le))

theorem offset (h : Completes a b code) : b.offset = a.offset + code.length :=
  (h (fun _ => 0) 0 [] (Nat.zero_le _)).offset

theorem emit (a : Assembler) (is : List Instruction) : Completes a (a.emit is) is := by
  intro place first P _
  have hcode : (entries ((is.map Line.instruction).map .write)).map (Entry.target place) = is := by
    simp [entries, Step.entry?, Function.comp_def, Entry.target]
  have hplacements : placements ((is.map Line.instruction).map .write) = [] := by
    simp [placements, Step.placed?, Function.comp_def]
  have hlines : Writes place first a P (a.emit is) P _ :=
    .lines (is.map .instruction) (by rw [hplacements, List.nil_append]) (by simp)
  rwa [hcode] at hlines

/-- Both labels of a truth value are placed behind the jumps to them. -/
theorem truth (a : Assembler) (j : Jump) : Completes a (a.truth j) (Code.truth j a.offset) := by
  intro place first P hfirst
  have hlines : Writes place first a.newLabel.2.newLabel.2
      ((a.nextLabel + 1) :: a.nextLabel :: P) (a.truth j) P
      [.jump j (place a.nextLabel), .pushInt 0, .jump .always (place (a.nextLabel + 1)),
        .pushInt 1] := by
    refine .lines _ (List.Perm.swap ..) fun k label hmem => ?_
    have hlabel : label = a.nextLabel ∨ label = a.nextLabel + 1 := by
      simp only [List.mem_cons, Line.jump.injEq, reduceCtorEq, List.not_mem_nil] at hmem
      tauto
    rw [Assembler.nextLabel_newLabel, Assembler.nextLabel_newLabel]
    omega
  refine (Writes.newLabels.trans hlines).congr rfl fun hfits => ?_
  obtain ⟨hstop, hyes, -⟩ : place (a.nextLabel + 1) = a.offset + 4 ∧
      place a.nextLabel = a.offset + 3 ∧ a.Fits place := by
    simpa [Assembler.truth, Nat.add_assoc] using hfits
  simp [Code.truth, hstop, hyes]

theorem finishScheme (a : Assembler) (s : Scheme) :
    Completes a (a.finishScheme s) (s.finish a.offset) := by
  cases s with
  | numbers i => exact emit a [i]
  | comparison j => exact truth a j
  | equality j =>
    have h := (emit a [.equals]).trans (truth _ j)
    rwa [(emit a [.equals]).offset] at h
  | joining => exact emit a [.concat]

end Completes

/-! ## Loops and conditionals -/

/-- The test of a loop, behind labels for it and for what follows the loop. -/
def Assembler.loopHead (a : Assembler) (slot : Nat) : Assembler :=
  a.newLabel.2.newLabel.2.writeAll [.place a.nextLabel, .instruction (.loadLocal slot),
    .instruction .hasNext, .jump .ifFalse (a.nextLabel + 1)]

theorem Assembler.offset_loopHead (a : Assembler) (slot : Nat) :
    (a.loopHead slot).offset = a.offset + 3 := by
  simp [loopHead]

namespace Completes

variable {a b d f : Assembler}

/-- The label of the test is placed in front of the body, and that behind the loop at its end. -/
theorem loop {slot : Nat} {code : List Instruction} (h : Completes (a.loopHead slot) b code) :
    Completes a (b.writeAll [.jump .always a.nextLabel, .place (a.nextLabel + 1)])
      ([.loadLocal slot, .hasNext, .jump .ifFalse (a.offset + 3 + code.length + 1)] ++ code ++
        [.jump .always a.offset]) := by
  intro place first P hfirst
  have hhead : Writes place first a.newLabel.2.newLabel.2
      ((a.nextLabel + 1) :: a.nextLabel :: P) (a.loopHead slot) ((a.nextLabel + 1) :: P)
      [.loadLocal slot, .hasNext, .jump .ifFalse (place (a.nextLabel + 1))] := by
    refine .lines _ (List.Perm.swap ..) fun j label hmem => ?_
    obtain ⟨-, rfl⟩ : j = .ifFalse ∧ label = a.nextLabel + 1 := by simpa using hmem
    exact ⟨Nat.le_succ_of_le hfirst, Nat.lt_succ_self _⟩
  have hnext : (a.loopHead slot).nextLabel = a.nextLabel + 2 := rfl
  have hbody := h place first ((a.nextLabel + 1) :: P) (by omega)
  have hend : Writes place first b ((a.nextLabel + 1) :: P)
      (b.writeAll [.jump .always a.nextLabel, .place (a.nextLabel + 1)]) P
      [.jump .always (place a.nextLabel)] := by
    refine .lines _ (.refl _) fun j label hmem => ?_
    obtain ⟨-, rfl⟩ : j = .always ∧ label = a.nextLabel := by simpa using hmem
    have hle := hbody.nextLabel_le
    exact ⟨hfirst, by omega⟩
  refine (((Writes.newLabels.trans hhead).trans hbody).trans hend).congr (by simp)
    fun hfits => ?_
  obtain ⟨hstop, hb⟩ : place (a.nextLabel + 1) = b.offset + 1 ∧ b.Fits place := by
    simpa using hfits
  obtain ⟨htop, -⟩ : place a.nextLabel = a.offset ∧ a.Fits place := by
    simpa [Assembler.loopHead] using hbody.fits hb
  simp [hstop, htop, h.offset, a.offset_loopHead]

/-- The other part of a conditional starts where its label is placed, behind the jump to its
end. -/
theorem branch {test yes no : List Instruction}
    (htest : Completes a.newLabel.2.newLabel.2 b test)
    (hyes : Completes (b.write (.jump .ifFalse a.nextLabel)) d yes)
    (hno : Completes (d.writeAll [.jump .always (a.nextLabel + 1), .place a.nextLabel]) f no) :
    Completes a (f.write (.place (a.nextLabel + 1)))
      (test ++ [.jump .ifFalse (a.offset + test.length + 1 + yes.length + 1)] ++ yes ++
        [.jump .always (a.offset + test.length + 1 + yes.length + 1 + no.length)] ++ no) := by
  intro place first P hfirst
  have htest' := htest place first ((a.nextLabel + 1) :: a.nextLabel :: P)
    (Nat.le_trans hfirst (Nat.le_add_right _ 2))
  have hb : a.nextLabel + 2 ≤ b.nextLabel := htest'.nextLabel_le
  have hother : Writes place first b ((a.nextLabel + 1) :: a.nextLabel :: P)
      (b.write (.jump .ifFalse a.nextLabel)) ((a.nextLabel + 1) :: a.nextLabel :: P)
      [.jump .ifFalse (place a.nextLabel)] := by
    refine .lines [_] (.refl _) fun j label hmem => ?_
    cases List.mem_singleton.1 hmem
    exact ⟨hfirst, by omega⟩
  have hyes' := hyes place first ((a.nextLabel + 1) :: a.nextLabel :: P)
    (show first ≤ b.nextLabel by omega)
  have hd : b.nextLabel ≤ d.nextLabel := hyes'.nextLabel_le
  have hstop : Writes place first d ((a.nextLabel + 1) :: a.nextLabel :: P)
      (d.writeAll [.jump .always (a.nextLabel + 1), .place a.nextLabel]) ((a.nextLabel + 1) :: P)
      [.jump .always (place (a.nextLabel + 1))] := by
    refine .lines _ (List.Perm.swap ..) fun j label hmem => ?_
    obtain ⟨-, rfl⟩ : j = .always ∧ label = a.nextLabel + 1 := by simpa using hmem
    exact ⟨by omega, by omega⟩
  have hno' := hno place first ((a.nextLabel + 1) :: P) (show first ≤ d.nextLabel by omega)
  have hend : Writes place first f ((a.nextLabel + 1) :: P) (f.write (.place (a.nextLabel + 1))) P
      [] := .lines [_] (.refl _) (by simp)
  refine ((((((Writes.newLabels.trans htest').trans hother).trans hyes').trans hstop).trans
    hno').trans hend).congr (by simp) fun hfits => ?_
  obtain ⟨hstopAt, hf⟩ := Assembler.fits_place.1 hfits
  obtain ⟨hotherAt, -⟩ : place a.nextLabel = d.offset + 1 ∧ d.Fits place := by
    simpa using hno'.fits hf
  have htestAt : b.offset = a.offset + test.length := htest.offset
  have hyesAt : d.offset = a.offset + test.length + 1 + yes.length := by
    simpa [htestAt] using hyes.offset
  have hnoAt : f.offset = a.offset + test.length + 1 + yes.length + 1 + no.length := by
    simpa [hyesAt] using hno.offset
  simp [hstopAt, hotherAt, hyesAt, hnoAt]

end Completes

/-- The code is written, and the layout behind it is the same. -/
def CompletesWith (a : Assembler) (x : Assembler × Layout) (y : List Instruction × Layout) : Prop :=
  Completes a x.1 y.1 ∧ x.2 = y.2

end Code

open Code

/-! ## Expressions -/

namespace Expr

mutual

/-- Writing an expression gives its lowered code, or fails as lowering does. -/
theorem write_lower (L : Layout) : (e : Expr) → ∀ a : Assembler,
    Together (Completes a) (e.write L a) (e.lower L a.offset)
  | int _ _, a | str _ _, a | bool _ _, a | null _, a => .ok (.emit a _)
  | var _ x, a => by
    refine (Together.same (L.find x)).bind ?_
    rintro v _ rfl
    exact .ok (.emit a _)
  | unary _ op e, a => by
    refine (write_lower L e a).bind fun b code h => ?_
    cases op with
    | negate => exact .ok (h.trans (.emit b _))
    | not =>
      dsimp only
      rw [← h.offset]
      exact .ok (h.trans (.truth b _))
  | binary n op l r, a => by
    refine (write_lower L l a).bind fun b left hl => ?_
    have hl := hl.trans (.emit b ((scheme op (n.ty.getD .object) l.ty r.ty).boxing l.ty))
    dsimp only
    rw [← hl.offset]
    refine (write_lower L r _).bind fun d right hr => ?_
    have hboth := (hl.trans hr).trans
      (.emit d ((scheme op (n.ty.getD .object) l.ty r.ty).boxing r.ty))
    rw [← hboth.offset]
    exact .ok (hboth.trans (.finishScheme _ _))
  | paren _ e, a => write_lower L e a
  | list _ es, a => by
    refine (writeItems_lower L es a).bind fun b code h => ?_
    exact .ok (h.trans (.emit b _))
  | call _ f es symbol, a => by
    refine (Together.same (L.findFunction (symbol.getD f))).bind ?_
    rintro s _ rfl
    refine (writeArgs_lower L s.params es a).bind fun b code h => ?_
    exact .ok (h.trans (.emit b _))

theorem writeItems_lower (L : Layout) : (es : List Expr) → ∀ a : Assembler,
    Together (Completes a) (writeItems L a es) (lowerItems L a.offset es)
  | [], a => .ok (.refl a)
  | e :: es, a => by
    refine (write_lower L e a).bind fun b code h => ?_
    have h := h.trans (.emit b (boxing e.ty))
    dsimp only
    rw [← h.offset]
    refine Together.bind_ok (writeItems_lower L es _) fun d more hmore => ?_
    exact h.trans hmore

theorem writeArgs_lower (L : Layout) : (ps : List (String × Ty)) → (es : List Expr) →
    ∀ a : Assembler, Together (Completes a) (writeArgs L a ps es) (lowerArgs L a.offset ps es)
  | p :: ps, e :: es, a => by
    refine (write_lower L e a).bind fun b code h => ?_
    have h := h.trans (.emit b (coercion e.ty p.2))
    dsimp only
    rw [← h.offset]
    refine Together.bind_ok (writeArgs_lower L ps es _) fun d more hmore => ?_
    exact h.trans hmore
  | [], [], a | [], _ :: _, a | _ :: _, [], a => .ok (.refl a)

end

end Expr

/-! ## Statements -/

namespace Stmt

mutual

/-- Writing a statement gives its lowered code, or fails as lowering does. -/
theorem write_lower : (s : Stmt) → ∀ (L : Layout) (a : Assembler),
    Together (CompletesWith a) (s.write L a) (s.lower L a.offset)
  | print _ e, L, a => by
    refine (e.write_lower L a).bind fun b code h => .ok ⟨?_, rfl⟩
    rw [List.append_assoc]
    exact h.trans (.emit b _)
  | forEach _ x e body, L, a => by
    refine (e.write_lower L a).bind fun b source h => ?_
    have h := h.trans (.emit b [.getIterator, .storeLocal L.nextSlot])
    dsimp only [Layout.allocate]
    rw [← h.offset]
    generalize b.emit [.getIterator, .storeLocal L.nextSlot] = c at h ⊢
    generalize hitem : [Instruction.loadLocal L.nextSlot, .next] ++ _ ++ [_] = item
    have hbodyAt : ((c.loopHead L.nextSlot).emit item).offset = c.offset + 3 + item.length := by
      rw [(Completes.emit _ item).offset, c.offset_loopHead]
    rw [← hbodyAt]
    refine (writeAll_lower body _ _).bind ?_
    rintro ⟨d, K⟩ ⟨inner, _⟩ ⟨hbody, rfl⟩
    refine .ok ⟨?_, rfl⟩
    have hloop := h.trans (Completes.loop ((Completes.emit _ item).trans hbody))
    simpa [hbodyAt, Nat.add_assoc] using hloop
  | cond _ e yes none, L, a => by
    refine (e.write_lower L a.newLabel.2.newLabel.2).bind fun b test htest => ?_
    have hyesAt : (b.write (.jump .ifFalse a.nextLabel)).offset = a.offset + test.length + 1 := by
      rw [Assembler.offset_jump, htest.offset]
      rfl
    dsimp only
    rw [← hyesAt]
    refine (writeAll_lower yes L.push _).bind ?_
    rintro ⟨d, K⟩ ⟨code, _⟩ ⟨hyes, rfl⟩
    refine .ok ⟨?_, rfl⟩
    have hbranch := htest.branch hyes (.refl _)
    rw [hyesAt]
    simpa using hbranch
  | cond _ e yes (some no), L, a => by
    refine (e.write_lower L a.newLabel.2.newLabel.2).bind fun b test htest => ?_
    have hyesAt : (b.write (.jump .ifFalse a.nextLabel)).offset = a.offset + test.length + 1 := by
      rw [Assembler.offset_jump, htest.offset]
      rfl
    dsimp only
    rw [← hyesAt]
    refine (writeAll_lower yes L.push _).bind ?_
    rintro ⟨d, K⟩ ⟨code, _⟩ ⟨hyes, rfl⟩
    have hnoAt : (d.writeAll [.jump .always (a.nextLabel + 1), .place a.nextLabel]).offset =
        a.offset + test.length + 1 + code.length + 1 := by
      simp [hyes.offset, hyesAt]
    dsimp only
    rw [hyesAt, ← hnoAt]
    refine (writeAll_lower no K.pop.push _).bind ?_
    rintro ⟨f, M⟩ ⟨other, _⟩ ⟨hno, rfl⟩
    refine .ok ⟨?_, rfl⟩
    have hbranch := htest.branch hyes hno
    rw [hnoAt]
    simpa using hbranch
  | declare _ x t e, L, a => by
    refine (e.write_lower L a).bind fun b code h => .ok ⟨?_, rfl⟩
    rw [List.append_assoc]
    exact h.trans (.emit b _)
  | assign _ x e, L, a => by
    refine (Together.same (L.find x)).bind ?_
    rintro v _ rfl
    refine (e.write_lower L a).bind fun b code h => .ok ⟨?_, rfl⟩
    rw [List.append_assoc]
    exact h.trans (.emit b _)
  | call _ e, L, a => by
    refine (e.write_lower L a).bind fun b code h => .ok ⟨?_, rfl⟩
    exact h.trans (.emit b _)
  | define _ _ _, L, a | invalid _ _, L, a => .ok ⟨.refl a, rfl⟩
  | ret _ none, L, a => .ok ⟨.emit a _, rfl⟩
  | ret _ (some e), L, a => by
    refine (e.write_lower L a).bind fun b code h => .ok ⟨?_, rfl⟩
    rw [List.append_assoc]
    exact h.trans (.emit b _)

theorem writeAll_lower : (ss : List Stmt) → ∀ (L : Layout) (a : Assembler),
    Together (CompletesWith a) (writeAll L a ss) (lowerAll L a.offset ss)
  | [], L, a => .ok ⟨.refl a, rfl⟩
  | s :: ss, L, a => by
    refine (write_lower s L a).bind ?_
    rintro ⟨b, K⟩ ⟨code, _⟩ ⟨h, rfl⟩
    dsimp only
    rw [← h.offset]
    refine Together.bind_ok (writeAll_lower ss K b) ?_
    rintro ⟨d, M⟩ ⟨more, _⟩ ⟨hmore, rfl⟩
    exact ⟨h.trans hmore, rfl⟩

end

end Stmt

/-! ## Methods -/

namespace Code

theorem lookup_of_mem {ps : List (Nat × Nat)} (hkeys : (ps.map Prod.fst).Nodup) {p : Nat × Nat}
    (hp : p ∈ ps) : ps.lookup p.1 = some p.2 := by
  induction ps with
  | nil => cases hp
  | cons q ps ih =>
    obtain ⟨hq, hps⟩ := List.nodup_cons.1 hkeys
    rcases List.mem_cons.1 hp with rfl | hp
    · exact List.lookup_cons_self
    · have hne : (p.1 == q.1) = false := beq_false_of_ne fun he =>
        hq (he ▸ List.mem_map_of_mem hp)
      rw [List.lookup_cons, hne]
      exact ih hps hp

/-- The offset at which a label has been placed last. -/
def Assembler.placeOf (a : Assembler) (label : Nat) : Nat :=
  (a.draft.placed.lookup label).getD 0

theorem Assembler.fits_placeOf {a : Assembler} (hkeys : (a.draft.placed.map Prod.fst).Nodup) :
    a.Fits a.placeOf := by
  intro p hp
  rw [placeOf, lookup_of_mem hkeys hp]
  rfl

theorem Entry.Becomes.eq_target {P : Nat → Nat → Prop} {place : Nat → Nat}
    (hplace : ∀ label target, P label target → place label = target) {es : List Entry}
    {code : List Instruction} (h : List.Forall₂ (Becomes P) es code) :
    es.map (target place) = code := by
  induction h with
  | nil => rfl
  | cons hi _ ih =>
    rw [List.map_cons, ih]
    cases hi with
    | fixed i => rfl
    | jump j hlabel => rw [target, hplace _ _ hlabel]

/-- A method that has been written can be finished, and has the code that it was written for. -/
theorem Completes.finish {a b : Assembler} {name : String} {params : Nat} {code : List Instruction}
    (h : Completes (a.start name params) b code) (locals : Nat) :
    b.finish locals = (.ok (), { b with
      code := a.code.add ⟨name, params, locals, code⟩
      draft := Assembler.blank }) := by
  obtain ⟨steps, rfl, haccount⟩ := h b.placeOf a.nextLabel [] (Nat.le_refl _)
  have hlabels : (placements steps).Perm
      (List.range' a.nextLabel (steps.count .newLabel)) := by
    have := haccount.waiting
    rwa [List.append_nil, List.nil_append] at this
  rcases a.finish_run name params locals steps with ⟨made, hbecomes, hok⟩ |
    ⟨label, ⟨front, j, back, hentries, hnone, -⟩, -⟩
  · have hkeeps : ((a.start name params).run steps).draft.Keeps steps :=
      (Draft.start_keeps name params).run (a := a.start name params) steps
    have hmade : (entries steps).map
        (Entry.target ((a.start name params).run steps).placeOf) = made := by
      refine Entry.Becomes.eq_target (fun label target hlast => ?_) hbecomes
      rw [Assembler.placeOf, (hkeeps.placed label target).2 hlast]
      rfl
    -- labels are placed once, so each stands for every place that the draft has for it
    obtain ⟨ps, hps, hkeys⟩ := (a.start name params).placed_run steps
    have hnodup : (((a.start name params).run steps).draft.placed.map Prod.fst).Nodup := by
      rw [hps, List.map_append, hkeys]
      change ((placements steps).reverse ++ []).Nodup
      rw [List.append_nil, ((placements steps).reverse_perm.trans hlabels).nodup_iff]
      exact List.nodup_range'
    rw [hok, ← hmade, haccount.code (Assembler.fits_placeOf hnodup)]
  · -- every label that is jumped to was given out in the method, and so it is placed
    refine absurd (mem_placements.1 (hlabels.mem_iff.2 (List.mem_range'_1.2 ?_))) hnone
    have hjump := haccount.jumps j label
      (hentries ▸ List.mem_append_right front (List.mem_cons_self ..))
    rwa [Assembler.nextLabel_run] at hjump

theorem Completes.close {a b : Assembler} {name : String} {params : Nat} {code : List Instruction}
    (h : Completes (a.start name params) b code) (locals : Nat) :
    ∃ d, b.close locals = .ok d ∧ d.code = a.code.add ⟨name, params, locals, code ++ [.ret]⟩ := by
  have hfinish := (h.trans (.emit b [.ret])).finish locals
  exact ⟨_, by rw [Assembler.close, hfinish], rfl⟩

end Code

/-! ## Functions -/

namespace Code.Layout

variable {L K : Layout} {functions : Table Signature} {globals : Table Variable}

/-- The layout holds the functions and, in its outermost scope, the globals of a program. -/
structure Knows (L : Layout) (functions : Table Signature) (globals : Table Variable) : Prop where
  functions : L.functions = functions
  globals : L.scopes.getLast? = some globals

theorem Knows.enter (h : L.Knows functions globals) (header : Header) :
    L.enter header = .function functions globals header := by
  rw [Layout.enter, h.globals, h.functions]
  rfl

theorem declareAll_grows (hL : L.scopes ≠ []) (ps : List Param) :
    Grows L (ps.foldl (fun L p => (L.declare p.name p.ty).2) L) := by
  induction ps generalizing L with
  | nil => exact .refl L
  | cons p ps ih =>
    have hp := declare_grows hL p.name p.ty
    exact hp.trans (ih (hp.ne_nil hL))

/-- A function leaves the globals as they are. -/
theorem Grows.knows {header : Header} (h : Grows (function functions globals header) K) :
    K.pop.Knows functions globals := by
  have hparams := declareAll_grows (L := ⟨functions, [[], globals], true, 0, header.resultTy⟩)
    (List.cons_ne_nil _ _) header.params
  have hK : Grows (push ⟨functions, [globals], true, 0, header.resultTy⟩) K := hparams.trans h
  refine ⟨(hK.pop (List.cons_ne_nil _ _)).functions, ?_⟩
  rw [hK.scopes_pop (List.cons_ne_nil _ _)]
  rfl

end Code.Layout

namespace Function

variable {L : Layout} {functions : Table Signature} {globals : Table Variable}

/-- Writing a function adds its lowered method, or fails as lowering does. -/
theorem write_lower (h : L.Knows functions globals) (a : Assembler) (f : Function) :
    Together (fun x m => x.1.code = a.code.add m ∧ x.2.Knows functions globals) (f.write L a)
      (f.lower functions globals) := by
  rw [write, lower, h.enter]
  have hne : (Layout.function functions globals f.header).scopes ≠ [] :=
    (Layout.declareAll_grows (List.cons_ne_nil _ _) f.header.params).ne_nil (List.cons_ne_nil _ _)
  have hbody := (Stmt.writeAll_lower f.body (.function functions globals f.header)
    (a.start f.header.symbol f.header.params.length)).and
      (T := fun y => Layout.Grows (.function functions globals f.header) y.2)
      fun y hy => Stmt.lowerAll_grows f.body hne hy
  refine hbody.bind ?_
  rintro ⟨b, K⟩ ⟨code, _⟩ ⟨⟨hcode, rfl⟩, hgrows⟩
  obtain ⟨d, hclose, hd⟩ := hcode.close K.nextSlot
  dsimp only
  rw [hclose]
  exact .ok ⟨hd, hgrows.knows⟩

theorem writeAll_lower (h : L.Knows functions globals) (a : Assembler) (fs : List Function) :
    Together (fun b code => b.code = code) (writeAll L a fs)
      (lowerAll functions globals a.code fs) := by
  induction fs generalizing L a with
  | nil => exact .ok rfl
  | cons f fs ih =>
    refine (write_lower h a f).bind ?_
    rintro ⟨b, K⟩ m ⟨hb, hK⟩
    rw [← hb]
    exact ih hK b

end Function

/-! ## Programs -/

namespace Program

/-- The layout behind the main method has the globals in its outermost scope. -/
theorem lowerMain_knows {p : Program} {main : List Instruction × Layout}
    (h : p.lowerMain = .ok main) :
    main.2.Knows p.signatures (main.2.scopes.getLast?.getD []) := by
  have hgrows : Layout.Grows (.main p.signatures) main.2 := by
    obtain ⟨body, span⟩ := p
    cases body with
    | expression e =>
      simp only [lowerMain, bind_eq_ok] at h
      obtain ⟨code, -, hmain⟩ := h
      cases hmain
      exact .refl _
    | statements ss => exact Stmt.lowerAll_grows ss (List.cons_ne_nil _ _) h
  refine ⟨hgrows.functions, ?_⟩
  rw [List.getLast?_eq_some_getLast (hgrows.ne_nil (List.cons_ne_nil _ _))]
  rfl

theorem writeMain_lower (p : Program) :
    Together (CompletesWith (Assembler.empty.start mainName 0)) p.writeMain p.lowerMain := by
  obtain ⟨body, span⟩ := p
  cases body with
  | expression e =>
    refine (e.write_lower _ _).bind fun b code h => .ok ⟨?_, rfl⟩
    rw [List.append_assoc]
    exact h.trans (.emit b _)
  | statements ss => exact Stmt.writeAll_lower ss _ _

/-- Writing a program with labels gives the code of `lower`, or fails as lowering does. -/
theorem write_eq (p : Program) : p.write = p.lower := by
  unfold write lower
  cases p.diagnostics.length with
  | succ n => rfl
  | zero =>
    refine Together.eq ((p.writeMain_lower.and fun y hy => lowerMain_knows hy).bind ?_)
    rintro ⟨a, L⟩ ⟨code, _⟩ ⟨⟨hcode, rfl⟩, hknows⟩
    obtain ⟨b, hclose, hb⟩ := hcode.close L.nextSlot
    have hfunctions := Function.writeAll_lower hknows b p.functions
    rw [hb] at hfunctions
    dsimp only
    rw [hclose, ← bind_pure (Function.lowerAll ..)]
    change Together Eq (Function.writeAll L b p.functions >>= fun c => .ok c.code) _
    exact hfunctions.bind fun c made h => .ok h

end Program

end CatScript
