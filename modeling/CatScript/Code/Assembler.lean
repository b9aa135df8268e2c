import CatScript.Code.Instruction

/-!
# Code with labels (specification §4.4)

Methods can be written instruction by instruction, with jumps to labels. A label may be placed
before or after the jumps to it; of several placements the last one counts. Finishing a method
turns each jump to a label into a jump to the offset where the label stands, and leaves every
other instruction as it is, jumps to offsets included. A jump whose label was never placed
stops that, and the first such jump is named. Labels are numbered through all methods.

A jump to a label is kept as a jump whose target is the number of the label, so that it takes its
place in the code at once. What tells it from a jump to an offset is the list of the jumps that are
still open.
-/
namespace CatScript.Code

/-- An instruction, a jump to a label, or the place of a label. -/
inductive Line where
  | instruction (i : Instruction)
  | jump (j : Jump) (label : Nat)
  | place (label : Nat)
  deriving DecidableEq, Repr

/-- A method under construction. -/
structure Draft where
  name : String
  params : Nat
  code : List Instruction
  placed : List (Nat × Nat)  -- labels and the offsets at which they were placed, the last one first
  opened : List Nat          -- offsets of the jumps whose target is still a label
  deriving DecidableEq, Repr

/-- A method of which nothing has been written. -/
def Draft.start (name : String) (params : Nat) : Draft := ⟨name, params, [], [], []⟩

/-- Writes one line. Only instructions and jumps take a place in the code. -/
def Draft.write (d : Draft) : Line → Draft
  | .instruction i => { d with code := d.code ++ [i] }
  | .jump j label =>
    { d with code := d.code ++ [.jump j label], opened := d.opened ++ [d.code.length] }
  | .place label => { d with placed := (label, d.code.length) :: d.placed }

/-- Gives the jumps at the given offsets the places of their labels for targets, one by one. -/
def resolve (placed : List (Nat × Nat)) :
    List Nat → List Instruction → Except Fault (List Instruction)
  | [], code => .ok code
  | n :: opened, code =>
    match code[n]? with
    | some (.jump j label) =>
      match placed.lookup label with
      | none => .error (.unplacedLabel label)
      | some target => resolve placed opened (code.set n (.jump j target))
    | _ => resolve placed opened code

/-- The methods that are finished, the one under construction, and the next label. -/
structure Assembler where
  code : Code
  draft : Draft
  nextLabel : Nat
  deriving DecidableEq, Repr

namespace Assembler

/-- The draft that stands in while no method has been begun. -/
def blank : Draft := .start "" 0

def empty : Assembler := ⟨.empty, blank, 0⟩

/-- Begins a method. An unfinished one is dropped. -/
def start (a : Assembler) (name : String) (params : Nat) : Assembler :=
  { a with draft := .start name params }

def write (a : Assembler) (line : Line) : Assembler := { a with draft := a.draft.write line }

/-- A label that has not been given out before. -/
def newLabel (a : Assembler) : Nat × Assembler :=
  (a.nextLabel, { a with nextLabel := a.nextLabel + 1 })

/-- Finishes the method with the given number of locals. The draft is gone afterwards, and so
it is if a label is missing. -/
def finish (a : Assembler) (locals : Nat) : Except Fault Unit × Assembler :=
  match resolve a.draft.placed a.draft.opened a.draft.code with
  | .error f => (.error f, { a with draft := blank })
  | .ok code =>
    (.ok (), { a with
      code := a.code.add ⟨a.draft.name, a.draft.params, locals, code⟩
      draft := blank })

end Assembler

end CatScript.Code
