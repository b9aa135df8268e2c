import CatScript.JavaScript.Emit
import Mathlib.Data.List.Basic

/-!
# Blocks of a text

The blocks of a text can be read off its lines alone. A line that ends in an opening brace opens a
block, and a line that starts with a closing one closes the innermost block first; behind a closing
brace a line may open the next block. Reading keeps what stands in front of each open block
(`Nesting`), and fails at a line that has no block to close or is not indented by four spaces for
each block around it.

So whatever can be read to its end is balanced: no prefix closes more blocks than it opens, the
whole closes all of them, and the indentation of each line is the number of blocks open at it.

Results:
* `Nesting.readAll_depth`: how many blocks are open after some lines.
* `readBlocks_balanced`: lines that can be read are balanced.
* `Nesting.Reads.block`: a body between a line that opens a block and one that closes it is read as
  that block.
-/
namespace CatScript.JavaScript

/-! ## Lines -/

/-- The number of spaces in front of a line. -/
def indentation (line : String) : Nat := (line.toList.takeWhile (· = ' ')).length

/-- The line without the spaces in front of it. -/
def content (line : String) : String := String.ofList (line.toList.dropWhile (· = ' '))

def opens (line : String) : Bool := line.toList.getLast? = some '\x7b'

def closes (line : String) : Bool := (content line).toList.head? = some '\x7d'

/-- Each line is indented by four spaces for each block that is open at it, those that it closes
left out and those that it opens not yet counted, and all blocks are closed at the end. -/
structure Balanced (ls : List String) : Prop where
  indented : ∀ before l after, ls = before ++ l :: after →
    (before ++ [l]).countP closes ≤ before.countP opens ∧
      indentation l = 4 * (before.countP opens - (before ++ [l]).countP closes)
  closed : ls.countP opens = ls.countP closes

/-! ## Reading blocks -/

/-- A line, or a block with the line that opens it. What closes it is not kept. -/
inductive Block where
  | line (text : String)
  | block (opening : String) (body : List Block)
  deriving Repr

/-- What has been read: in front of each open block, with the line that opened it, the innermost one
first, and in the innermost block. -/
structure Nesting where
  outer : List (List Block × String)
  inner : List Block

namespace Nesting

def depth (n : Nesting) : Nat := n.outer.length

def add (n : Nesting) (bs : List Block) : Nesting := { n with inner := n.inner ++ bs }

def opened (n : Nesting) (opening : String) : Nesting := ⟨(n.inner, opening) :: n.outer, []⟩

def close? (n : Nesting) : Option Nesting :=
  match n.outer with
  | [] => none
  | (before, opening) :: outer => some ⟨outer, before ++ [.block opening n.inner]⟩

/-- The rest of a line that stands as deep as it is indented. -/
def enter (n : Nesting) (line : String) : Nesting :=
  if opens line then n.opened (content line)
  else if content line = "\x7d" then n
  else n.add [.line (content line)]

def read? (n : Nesting) (line : String) : Option Nesting :=
  (if closes line then n.close? else some n).bind fun m =>
    if indentation line = 4 * m.depth then some (m.enter line) else none

def readAll (n : Nesting) (ls : List String) : Option Nesting := ls.foldlM read? n

end Nesting

/-- The blocks of a text, if all of them are closed. -/
def readBlocks (ls : List String) : Option (List Block) :=
  match Nesting.readAll ⟨[], []⟩ ls with
  | some ⟨[], bs⟩ => some bs
  | _ => none

/-! ## Counting -/

namespace Nesting

theorem readAll_append (n : Nesting) (ls ms : List String) :
    n.readAll (ls ++ ms) = (n.readAll ls).bind fun m => m.readAll ms := List.foldlM_append

theorem depth_enter {n : Nesting} {line : String} :
    (n.enter line).depth = n.depth + (opens line).toNat := by
  unfold enter
  split
  · next h => rw [h]; rfl
  · next h =>
    rw [Bool.eq_false_iff.2 h]
    split <;> rfl

theorem depth_close? {n m : Nesting} (h : n.close? = some m) : n.depth = m.depth + 1 := by
  unfold close? at h
  split at h
  · cases h
  · next ho =>
    cases h
    rw [depth, ho]
    rfl

/-- What a line that can be read does to the number of open blocks, and where it stands. -/
theorem read?_depth {n m : Nesting} {line : String} (h : n.read? line = some m) :
    (closes line).toNat ≤ n.depth ∧ indentation line = 4 * (n.depth - (closes line).toNat) ∧
      m.depth + (closes line).toNat = n.depth + (opens line).toNat := by
  obtain ⟨k, hk, h⟩ := Option.bind_eq_some_iff.1 h
  split at h
  · next hindent =>
    cases h
    rw [depth_enter, hindent]
    split at hk
    · next hclose =>
      rw [hclose, depth_close? hk]
      simp only [Bool.toNat_true]
      omega
    · next hclose =>
      cases hk
      rw [Bool.eq_false_iff.2 hclose]
      simp only [Bool.toNat_false]
      omega
  · cases h

theorem readAll_depth {ls : List String} {n m : Nesting} (h : n.readAll ls = some m) :
    m.depth + ls.countP closes = n.depth + ls.countP opens := by
  induction ls generalizing n with
  | nil =>
    cases h
    rw [List.countP_nil, List.countP_nil]
  | cons l ls ih =>
    obtain ⟨k, hk, h⟩ := Option.bind_eq_some_iff.1 h
    obtain ⟨-, -, hstep⟩ := read?_depth hk
    have hrest := ih h
    rw [List.countP_cons, List.countP_cons]
    have hcloses : (closes l).toNat = if closes l then 1 else 0 := by cases closes l <;> rfl
    have hopens : (opens l).toNat = if opens l then 1 else 0 := by cases opens l <;> rfl
    omega

end Nesting

theorem readBlocks_eq_some {ls : List String} {bs : List Block} :
    readBlocks ls = some bs ↔ Nesting.readAll ⟨[], []⟩ ls = some ⟨[], bs⟩ := by
  unfold readBlocks
  split
  · next h => simp [h]
  · next h => simpa using h bs

theorem readBlocks_balanced {ls : List String} {bs : List Block} (h : readBlocks ls = some bs) :
    Balanced ls := by
  have hall := readBlocks_eq_some.1 h
  constructor
  case closed =>
    have hdepth := Nesting.readAll_depth hall
    simpa [Nesting.depth] using hdepth.symm
  case indented =>
    rintro before l after rfl
    rw [Nesting.readAll_append] at hall
    obtain ⟨n, hbefore, hl⟩ := Option.bind_eq_some_iff.1 hall
    obtain ⟨m, hm, -⟩ := Option.bind_eq_some_iff.1 hl
    have hdepth : n.depth + before.countP closes = before.countP opens := by
      simpa [Nesting.depth] using Nesting.readAll_depth hbefore
    obtain ⟨hle, hindent, -⟩ := Nesting.read?_depth hm
    have hcount : (before ++ [l]).countP closes = before.countP closes + (closes l).toNat := by
      rw [List.countP_append, List.countP_singleton]
      cases closes l <;> rfl
    rw [hcount, hindent]
    omega

/-! ## Lines of a known depth -/

/-- The line without its end. -/
def Line.indented (l : Line) : String := String.ofList (List.replicate (4 * l.depth) ' ') ++ l.text

/-- A text that is one line. -/
def OneLine (text : String) : Prop := '\n' ∉ text.toList

instance (text : String) : Decidable (OneLine text) :=
  inferInstanceAs (Decidable ('\n' ∉ text.toList))

theorem OneLine.append {s t : String} (hs : OneLine s) (ht : OneLine t) : OneLine (s ++ t) := by
  rw [OneLine, String.toList_append, List.mem_append]
  exact not_or.2 ⟨hs, ht⟩

/-- A text on one line that starts with neither a space nor a closing brace. -/
structure Inline (text : String) : Prop where
  first : ∃ c, text.toList.head? = some c ∧ c ≠ ' ' ∧ c ≠ '\x7d'
  oneLine : OneLine text

theorem inline_iff {text : String} : Inline text ↔
    text.toList.head?.any (fun c => c ≠ ' ' ∧ c ≠ '\x7d') = true ∧ OneLine text := by
  simp only [Option.any_eq_true, decide_eq_true_eq]
  exact ⟨fun h => ⟨h.first, h.oneLine⟩, fun h => ⟨h.1, h.2⟩⟩

instance (text : String) : Decidable (Inline text) := decidable_of_iff _ inline_iff.symm

theorem Inline.append {s t : String} (hs : Inline s) (ht : OneLine t) : Inline (s ++ t) := by
  obtain ⟨c, hc, hne⟩ := hs.first
  refine ⟨⟨c, ?_, hne⟩, hs.oneLine.append ht⟩
  rw [String.toList_append, List.head?_append, hc]
  rfl

namespace Line

theorem oneLine_indented {l : Line} (h : OneLine l.text) : OneLine l.indented := by
  refine OneLine.append ?_ h
  rw [OneLine, String.toList_ofList]
  intro hmem
  exact absurd (List.eq_of_mem_replicate hmem) (by decide)

section

variable {depth : Nat} {text : String} {c : Char} (h : text.toList.head? = some c) (hc : c ≠ ' ')
include h hc

theorem indentation_indented : indentation (indented ⟨depth, text⟩) = 4 * depth := by
  obtain ⟨cs, hcs⟩ := List.head?_eq_some_iff.1 h
  rw [indentation, indented, String.toList_append, String.toList_ofList, hcs,
    List.takeWhile_append_of_pos (by simp), List.takeWhile_cons_of_neg (by simpa using hc)]
  simp

theorem content_indented : content (indented ⟨depth, text⟩) = text := by
  obtain ⟨cs, hcs⟩ := List.head?_eq_some_iff.1 h
  rw [content, indented, String.toList_append, String.toList_ofList, hcs,
    List.dropWhile_append_of_pos (by simp), List.dropWhile_cons_of_neg (by simpa using hc), ← hcs,
    String.ofList_toList]

theorem closes_indented : closes (indented ⟨depth, text⟩) = (c = '\x7d') := by
  rw [closes, content_indented h hc, h]
  simp

omit hc in
theorem opens_indented : opens (indented ⟨depth, text⟩) = (text.toList.getLast? = some '\x7b') := by
  obtain ⟨cs, hcs⟩ := List.head?_eq_some_iff.1 h
  rw [opens, indented, String.toList_append, hcs, List.getLast?_append_of_ne_nil]
  · simp
  · exact List.cons_ne_nil _ _

end

end Line

/-! ## Reading lines of a known depth -/

namespace Nesting

/-- The lines can be read, and lead from one state to the other. -/
structure Reads (n : Nesting) (ls : List Line) (m : Nesting) : Prop where
  oneLine : ∀ l ∈ ls, OneLine l.text
  read : n.readAll (ls.map Line.indented) = some m

variable {n m k : Nesting} {ls : List Line}

@[simp] theorem add_nil (n : Nesting) : n.add [] = n := by simp [add]

@[simp] theorem add_add (n : Nesting) (bs cs : List Block) :
    (n.add bs).add cs = n.add (bs ++ cs) := by
  simp [add]

theorem Reads.refl (n : Nesting) : n.Reads [] n := ⟨nofun, rfl⟩

theorem Reads.append {ms : List Line} (h : n.Reads ls m) (h' : m.Reads ms k) :
    n.Reads (ls ++ ms) k := by
  refine ⟨List.forall_mem_append.2 ⟨h.oneLine, h'.oneLine⟩, ?_⟩
  rw [List.map_append, readAll_append, h.read]
  exact h'.read

/-- A line as deep as what is left open once it has closed what it closes. -/
theorem read?_indented {text : String} {c : Char} (h : text.toList.head? = some c) (hc : c ≠ ' ')
    (hm : (if c = '\x7d' then n.close? else some n) = some m) :
    n.read? (Line.indented ⟨m.depth, text⟩) =
      some (if text.toList.getLast? = some '\x7b' then m.opened text
        else if text = "\x7d" then m else m.add [.line text]) := by
  simp only [read?, enter, Line.indentation_indented h hc, Line.content_indented h hc,
    Line.closes_indented h hc, Line.opens_indented h, hm, Option.bind_some, if_true]

theorem Reads.of_read? {l : Line} (hl : OneLine l.text) (h : n.read? l.indented = some m) :
    n.Reads [l] m := by
  refine ⟨List.forall_mem_singleton.2 hl, ?_⟩
  rw [readAll, List.map_singleton, List.foldlM_cons, h]
  rfl

theorem Reads.line {text : String} (ht : Inline text)
    (hlast : text.toList.getLast? ≠ some '\x7b') :
    n.Reads [⟨n.depth, text⟩] (n.add [.line text]) := by
  obtain ⟨c, hc, hspace, hbrace⟩ := ht.first
  have hne : text ≠ "\x7d" := by
    rintro rfl
    exact hbrace (Option.some.inj hc).symm
  have hread := read?_indented (n := n) hc hspace (if_neg hbrace)
  rw [if_neg hlast, if_neg hne] at hread
  exact .of_read? ht.oneLine hread

theorem Reads.opening {text : String} (ht : Inline text)
    (hlast : text.toList.getLast? = some '\x7b') :
    n.Reads [⟨n.depth, text⟩] (n.opened text) := by
  obtain ⟨c, hc, hspace, hbrace⟩ := ht.first
  have hread := read?_indented (n := n) hc hspace (if_neg hbrace)
  rw [if_pos hlast] at hread
  exact .of_read? ht.oneLine hread

/-- A line that closes a block and opens the next one. -/
theorem Reads.reopening (hm : n.close? = some m) {text : String} (ht : OneLine text)
    (hfirst : text.toList.head? = some '\x7d') (hlast : text.toList.getLast? = some '\x7b') :
    n.Reads [⟨m.depth, text⟩] (m.opened text) := by
  have hread := read?_indented hfirst (by decide) ((if_pos rfl).trans hm)
  rw [if_pos hlast] at hread
  exact .of_read? ht hread

theorem Reads.closing (hm : n.close? = some m) : n.Reads [⟨m.depth, "\x7d"⟩] m :=
  .of_read? (l := ⟨m.depth, "\x7d"⟩) (show OneLine "\x7d" by decide)
    (read?_indented (c := '\x7d') rfl (by decide) ((if_pos rfl).trans hm))

/-- A body between the line that opens its block and the brace that closes it. The line may close a
block before. -/
theorem Reads.block {text : String} {bs : List Block}
    (hopen : k.Reads [⟨n.depth, text⟩] (n.opened text))
    (hbody : (n.opened text).Reads ls ((n.opened text).add bs)) :
    k.Reads (⟨n.depth, text⟩ :: ls ++ [⟨n.depth, "\x7d"⟩]) (n.add [.block text bs]) :=
  (hopen.append hbody).append (.closing (m := n.add [.block text bs]) rfl)

/-- A body with more blocks behind it, of which the first one closes it. -/
theorem Reads.chain {ms : List Line} {text : String} {bs cs : List Block}
    (hopen : k.Reads [⟨n.depth, text⟩] (n.opened text))
    (hbody : (n.opened text).Reads ls ((n.opened text).add bs))
    (hrest : ((n.opened text).add bs).Reads ms ((n.add [.block text bs]).add cs)) :
    k.Reads (⟨n.depth, text⟩ :: ls ++ ms) (n.add (.block text bs :: cs)) := by
  rw [add_add] at hrest
  exact (hopen.append hbody).append hrest

end Nesting

end CatScript.JavaScript
