import CatScript.Diagnostic.Excerpt
import CatScript.Proofs.Grammar.Facing
import CatScript.Proofs.Text.Lines
import CatScript.Proofs.Typing.Anchors

/-!
# The caret of an excerpt

An excerpt ends in a line with a caret, below the line of the source that the diagnostic belongs to.
The caret has one dash in front of it for each byte of that line between its leading spaces and the
offset. So it stands below the character at the offset if every character in front of that takes a
single byte. Otherwise it stands too far to the right, by the bytes that the others take beyond
their first.

A diagnostic of a program stands between two characters of the source, since tokens do.

Results:
* `Cut.seek_boundary`: looking up an offset between two characters ends at what stands in front of
  it in its line.
* `Token.scan_seated`: tokens start and stop between characters, and so do the halves of a `>=`.
* `Diagnostic.excerpt_lines`: the last two lines of an excerpt.
* `Program.caret_pointsAt_iff`: where the caret of a program's diagnostic stands.
-/
namespace CatScript

namespace Text

/-! ## Between characters -/

/-- The offset is that of a character of the text, or of its end. -/
def Boundary (cs : List Char) (offset : Nat) : Prop :=
  ∃ before after, cs = before ++ after ∧ bytes before = offset

theorem boundary_zero (cs : List Char) : Boundary cs 0 := ⟨[], cs, rfl, rfl⟩

/-- The characters that start in front of an offset. -/
def upTo (offset : Nat) : List Char → List Char
  | [] => []
  | c :: cs => if offset = 0 then [] else c :: upTo (offset - c.utf8Size) cs

theorem upTo_bytes (before after : List Char) : upTo (bytes before) (before ++ after) = before := by
  induction before with
  | nil => cases after <;> rfl
  | cons c before ih =>
    have hpos := c.utf8Size_pos
    rw [List.cons_append, upTo, bytes_cons, if_neg (by omega), Nat.add_sub_cancel_left, ih]

theorem bytes_eq_length_iff (cs : List Char) :
    bytes cs = cs.length ↔ ∀ c ∈ cs, isAscii c = true := by
  induction cs with
  | nil => simp
  | cons c cs ih =>
    have hpos := c.utf8Size_pos
    have hle := length_le_bytes cs
    rw [List.forall_mem_cons, ← ih, bytes_cons, List.length_cons, isAscii, decide_eq_true_iff]
    omega

/-! ## The last line -/

/-- What stands behind the last newline of a text. -/
def lastLine (cs : List Char) : List Char := (cs.reverse.takeWhile (· ≠ '\n')).reverse

/-- What stands in front of the last newline of a text. -/
def formerLines (cs : List Char) : List Char := (cs.reverse.dropWhile (· ≠ '\n')).tail.reverse

variable {w : List Char}

theorem forall_reverse_ne (hw : '\n' ∉ w) : ∀ c ∈ w.reverse, (c ≠ '\n' : Bool) = true := by
  intro c hc
  rw [List.mem_reverse] at hc
  simpa using fun he : c = '\n' => hw (he ▸ hc)

theorem lastLine_of_not_mem (hw : '\n' ∉ w) : lastLine w = w := by
  have hall : (w.reverse ++ []).takeWhile (· ≠ '\n') = w.reverse ++ [] :=
    List.takeWhile_append_of_pos (forall_reverse_ne hw)
  rw [List.append_nil] at hall
  rw [lastLine, hall, List.reverse_reverse]

theorem lastLine_append_newline (a b : List Char) : lastLine (a ++ '\n' :: b) = lastLine b := by
  rw [lastLine, List.reverse_append, List.reverse_cons, List.append_assoc, List.takeWhile_append]
  split
  · next hall =>
    have hself := (List.takeWhile_prefix _).eq_of_length hall
    rw [lastLine, hself]
    simp
  · rfl

theorem formerLines_append (hw : '\n' ∉ w) (a : List Char) : formerLines (a ++ '\n' :: w) = a := by
  rw [formerLines, List.reverse_append, List.reverse_cons, List.append_assoc,
    List.dropWhile_append_of_pos (forall_reverse_ne hw)]
  simp

/-! ## Looking a boundary up -/

/-- An offset between two characters belongs to a line that starts with what stands behind the last
newline in front of it. -/
theorem Cut.seek_boundary {cs : List Char} {ls : List (List Char)} (h : Cut cs ls)
    {before after : List Char} (hcs : cs = before ++ after) (number : Nat) :
    ∃ n line, Text.seek ls number (bytes before) = ⟨n, line, bytes (lastLine before)⟩ ∧ line ∈ ls ∧
      lastLine before <+: line := by
  induction h generalizing before number with
  | @last w hw =>
    have hnone : '\n' ∉ before := fun hmem => hw (hcs ▸ List.mem_append_left after hmem)
    rw [lastLine_of_not_mem hnone]
    exact ⟨number, w, rfl, List.mem_singleton_self w, ⟨after, hcs.symm⟩⟩
  | @line w cs ls hw hcut ih =>
    have hline : bytes (w ++ ['\n']) = bytes w + 1 := by rw [bytes_append]; rfl
    obtain ⟨m, ms, rfl⟩ := List.exists_cons_of_ne_nil hcut.ne_nil
    -- the offset lies in front of the newline, or the line is passed
    have hplace : (∃ mid, w = before ++ mid) ∨
        ∃ mid, before = w ++ '\n' :: mid ∧ cs = mid ++ after := by
      rcases List.append_eq_append_iff.1 hcs with ⟨mid, hbefore, hrest⟩ | ⟨mid, hmid, -⟩
      · cases mid with
        | nil => exact .inl ⟨[], by simpa using hbefore.symm⟩
        | cons c mid =>
          rw [List.cons_append, List.cons.injEq] at hrest
          obtain ⟨rfl, hrest⟩ := hrest
          exact .inr ⟨mid, hbefore, hrest⟩
      · exact .inl ⟨mid, hmid⟩
    rcases hplace with ⟨mid, rfl⟩ | ⟨mid, rfl, hrest⟩
    · have hnone : '\n' ∉ before := fun hmem => hw (List.mem_append_left mid hmem)
      have hlt : bytes before < bytes (before ++ mid ++ ['\n']) := by
        rw [hline, bytes_append]
        omega
      rw [Text.seek, if_pos hlt, lastLine_of_not_mem hnone]
      · exact ⟨number, _, rfl, List.mem_cons_self .., ⟨mid ++ ['\n'], by simp⟩⟩
      · exact List.cons_ne_nil m ms
    · have hsum : bytes (w ++ '\n' :: mid) = bytes (w ++ ['\n']) + bytes mid := by
        simp [Nat.add_assoc]
      obtain ⟨n, line, hseek, hmem, hprefix⟩ := ih hrest (number + 1)
      rw [Text.seek, if_neg (by omega), hsum, Nat.add_sub_cancel_left, lastLine_append_newline]
      · exact ⟨n, line, hseek, List.mem_cons_of_mem _ hmem, hprefix⟩
      · exact List.cons_ne_nil m ms

/-- A line has no newline but the one at its end. -/
theorem Cut.newline_of_mem {cs l : List Char} {ls : List (List Char)} (h : Cut cs ls)
    (hl : l ∈ ls) : ∃ w, '\n' ∉ w ∧ (l = w ∨ l = w ++ ['\n']) := by
  induction h with
  | last hw => exact ⟨_, hw, .inl (List.mem_singleton.1 hl)⟩
  | line hw _ ih =>
    rcases List.mem_cons.1 hl with rfl | hmem
    · exact ⟨_, hw, .inr rfl⟩
    · exact ih hmem

theorem mem_of_mem_trimEnd {c : Char} {cs : List Char} (h : c ∈ trimEnd cs) : c ∈ cs :=
  List.mem_reverse.1 ((List.dropWhile_suffix _).subset (List.mem_reverse.1 h))

/-- It has none without the white space at its end. -/
theorem newline_not_mem_trimEnd {cs l : List Char} (hl : l ∈ lines cs) :
    '\n' ∉ trimEnd (l.dropWhile (· = ' ')) := by
  intro hmem
  obtain ⟨w, hw, rfl | rfl⟩ := (lines_cut cs).newline_of_mem hl
  · exact hw ((List.dropWhile_suffix _).subset (mem_of_mem_trimEnd hmem))
  · have hdrop : (w ++ ['\n']).dropWhile (· = ' ') = w.dropWhile (· = ' ') ++ ['\n'] := by
      rw [List.dropWhile_append]
      split
      · next hnil => rw [List.isEmpty_iff.1 hnil]; rfl
      · rfl
    rw [hdrop, trimEnd_append_blanks _ _ (List.forall_mem_singleton.2 rfl)] at hmem
    exact hw ((List.dropWhile_suffix _).subset (mem_of_mem_trimEnd hmem))

/-- Leading spaces are bytes of the text in front of an offset, as far as there are any. -/
theorem bytes_dropWhile_space {front line : List Char} (h : front <+: line) :
    bytes front - (line.takeWhile (· = ' ')).length = bytes (front.dropWhile (· = ' ')) ∧
      front.dropWhile (· = ' ') <+: line.dropWhile (· = ' ') := by
  induction front generalizing line with
  | nil => exact ⟨Nat.zero_sub _, List.nil_prefix⟩
  | cons c front ih =>
    obtain ⟨rest, rfl⟩ := h
    obtain ⟨hbytes, hprefix⟩ := ih (List.prefix_append front rest)
    by_cases hc : c = ' '
    · subst hc
      have hsize : (' ' : Char).utf8Size = 1 := rfl
      refine ⟨?_, hprefix⟩
      rw [List.dropWhile_cons_of_pos rfl, ← hbytes, List.cons_append,
        List.takeWhile_cons_of_pos rfl, bytes_cons, List.length_cons, hsize]
      omega
    · simp [hc]

/-- The part of an offset's line in front of it, as it is shown: without leading spaces. -/
def shownBefore (source : List Char) (offset : Nat) : List Char :=
  (lastLine (upTo offset source)).dropWhile (· = ' ')

end Text

open Text

/-! ## Tokens -/

/-- Tokens start and stop between characters of the source. -/
theorem Token.scan_seated (source file : String) :
    ∀ t ∈ scan source file, t.Seated (Boundary source.toList) := by
  have hlossless := scan_lossless source file
  intro t ht
  obtain ⟨-, -, text, after, before, hcs, hstart, hstop⟩ := hlossless.inBounds t ht
  refine ⟨⟨before, text ++ after, by simpa using hcs, hstart⟩,
    ⟨before ++ text, after, hcs, by rw [bytes_append, hstart, hstop]⟩, fun hk => ?_⟩
  obtain ⟨ts, e, hscan, he, hlexical⟩ := scanFrom_lexical file 0 source.toList
  have hvalue : t.value = ">=" := by
    have hmem : t ∈ ts ++ [e] := hscan ▸ ht
    rcases List.mem_append.1 hmem with hmem | hmem
    · exact (hlexical t hmem).greaterEqual hk
    · rw [List.mem_singleton.1 hmem, he] at hk
      cases hk
  obtain ⟨after, before, hcs, hstart, -⟩ :=
    hlossless.verbatim t ht (by rw [hk]; decide) (by rw [hk]; decide)
  refine ⟨before ++ ['>'], '=' :: after, ?_, ?_⟩
  · rw [hcs, hvalue]
    simp
  · rw [bytes_append, hstart]
    rfl

theorem Program.offset_boundary {source file : String} {d : Diagnostic}
    (hd : d ∈ (parse source file).check.diagnostics) : Boundary source.toList d.offset :=
  check_reportedAt (boundary_zero _) (Token.scan_seated source file) d hd

/-! ## Excerpts -/

namespace Diagnostic

/-- What stands behind the bar of a line and one more character. -/
def behindBar (line : List Char) : List Char := (line.dropWhile (· ≠ '|')).drop 2

/-- The source line that an excerpt shows, in its last line but one. -/
def shownLine (excerpt : String) : List Char :=
  behindBar (lastLine (formerLines (formerLines excerpt.toList)))

/-- How many characters stand between the bar and the caret in the last line of an excerpt. -/
def caretColumn (excerpt : String) : Nat :=
  ((behindBar (lastLine (formerLines excerpt.toList))).takeWhile (· ≠ '^')).length

/-- The line with its number, as an excerpt shows it. -/
def sourceRow (number : Nat) (line : List Char) : List Char :=
  number.repr.toList ++ ' ' :: '|' :: ' ' :: trimEnd (line.dropWhile (· = ' '))

/-- The line with the caret below it. -/
def caretRow (number column : Nat) : List Char :=
  List.replicate (number.repr.length + 1) ' ' ++ '|' :: ' ' :: (List.replicate column '-' ++ ['^'])

theorem excerpt_rows (d : Diagnostic) (source : String) {n column : Nat} {line : List Char}
    (hplace : placeAt source.toList d.offset = ⟨n, line, column⟩) :
    ∃ front, (d.excerpt source).toList = front ++ '\n' :: sourceRow n line ++
      '\n' :: caretRow n (column - (line.takeWhile (· = ' ')).length) ++ ['\n'] := by
  refine ⟨(d.headline ++ "\n" ++ "-> " ++ d.file ++ "\n" ++ bar n.repr.length).toList, ?_⟩
  simp [excerpt, hplace, unindented, bar, caret, sourceRow, caretRow]

/-- A number has digits only. -/
theorem not_mem_repr {c : Char} (hc : c.isDigit = false) (n : Nat) : c ∉ n.repr.toList := by
  intro h
  rw [Nat.toList_repr] at h
  rw [Nat.isDigit_of_mem_toDigits (by decide) (by decide) h] at hc
  cases hc

theorem behindBar_append {gutter : List Char} (h : '|' ∉ gutter) (c : Char) (rest : List Char) :
    behindBar (gutter ++ '|' :: c :: rest) = rest := by
  have hall : ∀ d ∈ gutter, (d ≠ '|' : Bool) = true := by
    intro d hd
    simpa using fun he : d = '|' => h (he ▸ hd)
  rw [behindBar, List.dropWhile_append_of_pos hall]
  rfl

theorem behindBar_sourceRow (n : Nat) (line : List Char) :
    behindBar (sourceRow n line) = trimEnd (line.dropWhile (· = ' ')) := by
  have hgutter : '|' ∉ n.repr.toList ++ [' '] := by
    rw [List.mem_append, not_or]
    exact ⟨not_mem_repr rfl n, by decide⟩
  have hrow : sourceRow n line =
      (n.repr.toList ++ [' ']) ++ '|' :: ' ' :: trimEnd (line.dropWhile (· = ' ')) := by
    simp only [sourceRow, List.append_assoc, List.singleton_append]
  rw [hrow, behindBar_append hgutter]

theorem behindBar_caretRow (n column : Nat) :
    behindBar (caretRow n column) = List.replicate column '-' ++ ['^'] :=
  behindBar_append (by simp) ' ' _

theorem newline_not_mem_sourceRow {cs line : List Char} (n : Nat) (hline : line ∈ lines cs) :
    '\n' ∉ sourceRow n line := by
  have hnumber : '\n' ∉ n.repr.toList := not_mem_repr rfl n
  have hshown := newline_not_mem_trimEnd hline
  rw [sourceRow, List.mem_append, not_or]
  exact ⟨hnumber, by simpa using hshown⟩

theorem newline_not_mem_caretRow (n column : Nat) : '\n' ∉ caretRow n column := by
  simp [caretRow]

/-- The last two lines of an excerpt, for the line and the column that are looked up. -/
theorem excerpt_lines (d : Diagnostic) (source : String) {n column : Nat} {line : List Char}
    (hplace : placeAt source.toList d.offset = ⟨n, line, column⟩)
    (hline : line ∈ lines source.toList) :
    shownLine (d.excerpt source) = trimEnd (line.dropWhile (· = ' ')) ∧
      caretColumn (d.excerpt source) = column - (line.takeWhile (· = ' ')).length := by
  obtain ⟨front, hexcerpt⟩ := d.excerpt_rows source hplace
  have hsource := newline_not_mem_sourceRow n hline
  have hcaret := newline_not_mem_caretRow n (column - (line.takeWhile (· = ' ')).length)
  constructor
  · rw [shownLine, hexcerpt, formerLines_append List.not_mem_nil, formerLines_append hcaret,
      lastLine_append_newline, lastLine_of_not_mem hsource, behindBar_sourceRow]
  · rw [caretColumn, hexcerpt, formerLines_append List.not_mem_nil, lastLine_append_newline,
      lastLine_of_not_mem hcaret, behindBar_caretRow, List.takeWhile_append_of_pos (by simp)]
    simp

/-- The caret stands below the character at the offset: it has as many characters in front of it as
there are in front of the offset in the line that is shown. -/
def PointsAt (d : Diagnostic) (source : String) : Prop :=
  caretColumn (d.excerpt source) = (shownBefore source.toList d.offset).length

instance (d : Diagnostic) (source : String) : Decidable (d.PointsAt source) :=
  inferInstanceAs (Decidable (_ = _))

end Diagnostic

namespace Program

open Diagnostic

/-- The caret of a program's diagnostic has one character in front of it for each byte in front of
the offset, in the line that is shown. So it stands below the character at the offset exactly if all
characters in front of that are of a single byte. -/
theorem caret_pointsAt_iff {source file : String} {d : Diagnostic}
    (hd : d ∈ (parse source file).check.diagnostics) :
    let front := shownBefore source.toList d.offset
    (∃ line ∈ lines source.toList, front <+: line.dropWhile (· = ' ') ∧
      shownLine (d.excerpt source) = trimEnd (line.dropWhile (· = ' '))) ∧
    caretColumn (d.excerpt source) = bytes front ∧
    (d.PointsAt source ↔ ∀ c ∈ front, isAscii c = true) := by
  intro front
  obtain ⟨before, after, hcs, hoffset⟩ := offset_boundary hd
  have hfront : front = (lastLine before).dropWhile (· = ' ') := by
    simp only [front, shownBefore]
    rw [hcs, ← hoffset, upTo_bytes]
  have hmin : min d.offset (bytes source.toList) = bytes before := by
    rw [hcs, bytes_append, hoffset]
    omega
  obtain ⟨n, line, hseek, hmem, hprefix⟩ := (lines_cut source.toList).seek_boundary hcs 1
  have hplace : placeAt source.toList d.offset = ⟨n, line, bytes (lastLine before)⟩ := by
    rw [placeAt, hmin, hseek]
  obtain ⟨hshown, hcaret⟩ := excerpt_lines d source hplace hmem
  obtain ⟨hbytes, hdrop⟩ := bytes_dropWhile_space hprefix
  rw [hbytes, ← hfront] at hcaret
  refine ⟨⟨line, hmem, hfront ▸ hdrop, hshown⟩, hcaret, ?_⟩
  rw [← bytes_eq_length_iff, PointsAt, hcaret]

/-- In the second line, which is indented. -/
theorem caret_pointsAt_indented :
    let source := "if (true) \x7b\n    print(y)\n\x7d"
    let d : Diagnostic := ⟨.unresolvedSymbol "y", "indented.cat", 22⟩
    d ∈ (parse source "indented.cat").check.diagnostics ∧ d.PointsAt source := by
  intro source d
  have hd : d ∈ (parse source "indented.cat").check.diagnostics := by decide +kernel
  exact ⟨hd, (caret_pointsAt_iff hd).2.2.2 (List.all_eq_true.1 (by decide +kernel))⟩

/-- A character of two bytes in front of the offset moves the caret behind the character at it. -/
theorem caret_misses_accent :
    let source := "print(\"é\" + y)"
    let d : Diagnostic := ⟨.unresolvedSymbol "y", "accent.cat", 13⟩
    d ∈ (parse source "accent.cat").check.diagnostics ∧ ¬ d.PointsAt source ∧
      (shownBefore source.toList d.offset).length = 12 ∧ caretColumn (d.excerpt source) = 13 := by
  decide +kernel

end Program

end CatScript
