import CatScript.Proofs.Token.Lossless
import CatScript.Text.Line
import Mathlib.Algebra.GroupWithZero.Nat

/-!
# Where an offset stands

An offset counts bytes, and a line is a list of characters, so the two are compared in the UTF-8
encoding. No byte of a longer character is a newline byte: a newline byte is a newline.

The line of an offset is found from the lengths of the lines in front of it. It is also given by the
newlines in front of the offset, since every line but the last ends in its only newline: each line in
front of that of the offset has one, and what stands in front of the offset in its own line has none.

Results:
* `lines_cut`, `Cut.eq_lines`: a text is cut into lines behind its newlines, and in no other way.
* `Cut.seek`: the line at which looking up an offset ends.
* `placeAt_exact`: the line and the column of any offset, also at the end of the text and behind it.
-/
namespace CatScript.Text

/-! ## Lines -/

/-- The text is cut behind each of its newlines. What stands behind the last of them is a line too,
also if that is nothing. -/
inductive Cut : List Char → List (List Char) → Prop where
  | last {w : List Char} : '\n' ∉ w → Cut w [w]
  | line {w cs : List Char} {ls : List (List Char)} : '\n' ∉ w → Cut cs ls →
    Cut (w ++ '\n' :: cs) ((w ++ ['\n']) :: ls)

theorem lines_of_not_mem {w : List Char} (hw : '\n' ∉ w) : lines w = [w] := by
  induction w with
  | nil => rfl
  | cons c w ih =>
    rw [List.mem_cons, not_or] at hw
    rw [lines, if_neg (Ne.symm hw.1), ih hw.2]

theorem lines_append_newline {w : List Char} (hw : '\n' ∉ w) (cs : List Char) :
    lines (w ++ '\n' :: cs) = (w ++ ['\n']) :: lines cs := by
  induction w with
  | nil => rw [List.nil_append, lines, if_pos rfl, List.nil_append]
  | cons c w ih =>
    rw [List.mem_cons, not_or] at hw
    rw [List.cons_append, lines, if_neg (Ne.symm hw.1), ih hw.2, List.cons_append]

/-- There is one way to cut a text into lines. -/
theorem Cut.eq_lines {cs : List Char} {ls : List (List Char)} (h : Cut cs ls) : ls = lines cs := by
  induction h with
  | last hw => rw [lines_of_not_mem hw]
  | line hw _ ih => rw [lines_append_newline hw, ih]

theorem lines_cut (cs : List Char) : Cut cs (lines cs) := by
  by_cases hcs : '\n' ∈ cs
  · obtain ⟨w, rest, rfl, hw⟩ := List.eq_append_cons_of_mem hcs
    rw [lines_append_newline hw]
    exact .line hw (lines_cut rest)
  · rw [lines_of_not_mem hcs]
    exact .last hcs
termination_by cs.length

theorem Cut.ne_nil {cs : List Char} {ls : List (List Char)} (h : Cut cs ls) : ls ≠ [] := by
  cases h <;> simp

/-! ## Bytes -/

/-- The UTF-8 encoding of a text. -/
def utf8 (cs : List Char) : List UInt8 := cs.flatMap String.utf8EncodeChar

theorem utf8_append (a b : List Char) : utf8 (a ++ b) = utf8 a ++ utf8 b := List.flatMap_append

theorem length_utf8 (cs : List Char) : (utf8 cs).length = bytes cs := by
  induction cs with
  | nil => rfl
  | cons c cs ih =>
    have hcons : utf8 (c :: cs) = String.utf8EncodeChar c ++ utf8 cs := List.flatMap_cons
    rw [hcons, List.length_append, String.length_utf8EncodeChar, ih, bytes_cons]

/-- The bytes of a string are the encoding of its characters. -/
theorem toList_toByteArray (s : String) : s.toByteArray.data.toList = utf8 s.toList := by
  have h : (String.ofList s.toList).toByteArray.data.toList = utf8 s.toList := by
    rw [String.toByteArray_ofList]
    exact List.toList_data_toByteArray
  rwa [String.ofList_toList] at h

/-- The byte of a newline belongs to no other character. -/
theorem newline_not_mem_encode {c : Char} (h : c ≠ '\n') : 10 ∉ String.utf8EncodeChar c := by
  have hcode : c.val.toNat ≠ 10 := fun he => h (Char.ext (UInt32.toNat_inj.1 he))
  have hbyte (n : Nat) (hn : n % 256 ≠ 10) : (10 : UInt8) ≠ UInt8.ofNat n := by
    intro he
    have hnat := congrArg UInt8.toNat he
    rw [UInt8.toNat_ofNat'] at hnat
    exact hn hnat.symm
  unfold String.utf8EncodeChar
  dsimp only
  split
  · simp only [List.mem_singleton]
    exact hbyte _ (by omega)
  split
  · simp only [List.mem_cons, List.not_mem_nil, or_false, not_or]
    exact ⟨hbyte _ (by omega), hbyte _ (by omega)⟩
  split
  · simp only [List.mem_cons, List.not_mem_nil, or_false, not_or]
    exact ⟨hbyte _ (by omega), hbyte _ (by omega), hbyte _ (by omega)⟩
  · simp only [List.mem_cons, List.not_mem_nil, or_false, not_or]
    exact ⟨hbyte _ (by omega), hbyte _ (by omega), hbyte _ (by omega), hbyte _ (by omega)⟩

theorem newline_not_mem_utf8 {w : List Char} (hw : '\n' ∉ w) : 10 ∉ utf8 w := by
  intro h
  obtain ⟨c, hc, hmem⟩ := List.mem_flatMap.1 h
  exact newline_not_mem_encode (fun he => hw (he ▸ hc)) hmem

/-- Newline bytes among the first `p` bytes of a text. -/
def newlinesBefore (p : Nat) (cs : List Char) : Nat := ((utf8 cs).take p).count 10

/-- There is none in front of the first newline. -/
theorem newlinesBefore_eq_zero {w : List Char} (hw : '\n' ∉ w) {p : Nat} (hp : p ≤ bytes w)
    (rest : List Char) : newlinesBefore p (w ++ rest) = 0 := by
  rw [newlinesBefore, utf8_append, List.take_append_of_le_length (by rwa [length_utf8])]
  exact List.count_eq_zero.2 fun h => newline_not_mem_utf8 hw (List.mem_of_mem_take h)

/-- A line that is passed has one. -/
theorem newlinesBefore_line {w : List Char} (hw : '\n' ∉ w) {p : Nat}
    (hp : bytes (w ++ ['\n']) ≤ p) (cs : List Char) :
    newlinesBefore p (w ++ '\n' :: cs) = 1 + newlinesBefore (p - bytes (w ++ ['\n'])) cs := by
  have hline : (utf8 (w ++ ['\n'])).count 10 = 1 := by
    rw [utf8_append, List.count_append, List.count_eq_zero.2 (newline_not_mem_utf8 hw)]
    rfl
  have hsplit : w ++ '\n' :: cs = (w ++ ['\n']) ++ cs := by simp
  rw [newlinesBefore, hsplit, utf8_append, List.take_append, length_utf8,
    List.take_of_length_le (by rwa [length_utf8]), List.count_append, hline]
  rfl

/-! ## Looking an offset up -/

/-- The `k`-th of the lines, from the line of the given number on, and how far `p` bytes reach into
it. -/
structure Reaches (ls : List (List Char)) (number p k : Nat) (place : Place) : Prop where
  number : place.number = number + k
  text : ls[k]? = some place.text
  column : ((ls.take k).map bytes).sum + place.column = p

theorem Reaches.later {ls : List (List Char)} {number p k : Nat} {place : Place} {l : List Char}
    (h : Reaches ls (number + 1) (p - bytes l) k place) (hp : bytes l ≤ p) :
    Reaches (l :: ls) number p (k + 1) place where
  number := by
    have := h.number
    omega
  text := by
    rw [List.getElem?_cons_succ]
    exact h.text
  column := by
    have := h.column
    rw [List.take_succ_cons, List.map_cons, List.sum_cons]
    omega

/-- As many lines are passed as there are newlines in front of the offset. -/
theorem Cut.seek {cs : List Char} {ls : List (List Char)} (h : Cut cs ls) (number : Nat) {p : Nat}
    (hp : p ≤ bytes cs) : Reaches ls number p (newlinesBefore p cs) (seek ls number p) := by
  induction h generalizing number p with
  | @last w hw =>
    have hnone := newlinesBefore_eq_zero hw hp []
    rw [List.append_nil] at hnone
    rw [hnone]
    exact ⟨rfl, rfl, Nat.zero_add p⟩
  | @line w cs ls hw hcut ih =>
    obtain ⟨m, ms, rfl⟩ := List.exists_cons_of_ne_nil hcut.ne_nil
    have hlength : bytes (w ++ '\n' :: cs) = bytes (w ++ ['\n']) + bytes cs := by simp; omega
    have hline : bytes (w ++ ['\n']) = bytes w + 1 := by rw [bytes_append]; rfl
    rw [Text.seek]
    split
    · next hin =>
      rw [newlinesBefore_eq_zero hw (by omega)]
      exact ⟨rfl, rfl, Nat.zero_add p⟩
    · next hbehind =>
      have hpass : bytes (w ++ ['\n']) ≤ p := by omega
      rw [newlinesBefore_line hw hpass, Nat.add_comm 1]
      exact (ih (number + 1) (by omega)).later hpass
    · exact List.cons_ne_nil m ms

/-- The place of an offset, which counts as the length of the text if it is behind that. The number
is one more than there are newline bytes in front, the lines of lower numbers and the column make up
the offset, and the text is the line of that number, with its newline if it has one. -/
theorem placeAt_exact (source : String) (offset : Nat) :
    ∃ number text column, placeAt source.toList offset = ⟨number, text, column⟩ ∧
      number =
        1 + (source.toByteArray.data.toList.take (min offset source.utf8ByteSize)).count 10 ∧
      Cut source.toList (lines source.toList) ∧
      (((lines source.toList).take (number - 1)).map bytes).sum + column =
        min offset source.utf8ByteSize ∧
      (lines source.toList)[number - 1]? = some text := by
  have hcut := lines_cut source.toList
  have hbytes : bytes source.toList = source.utf8ByteSize := Token.bytes_toList source
  have hplace : placeAt source.toList offset =
      seek (lines source.toList) 1 (min offset source.utf8ByteSize) := by
    rw [placeAt, hbytes]
  have hreach := hcut.seek 1 (p := min offset source.utf8ByteSize)
    (by rw [hbytes]; exact Nat.min_le_right ..)
  rw [← hplace] at hreach
  generalize placeAt source.toList offset = place at hreach ⊢
  obtain ⟨number, text, column⟩ := place
  have hnumber : number - 1 = newlinesBefore (min offset source.utf8ByteSize) source.toList := by
    have : number = 1 + newlinesBefore _ _ := hreach.number
    omega
  refine ⟨number, text, column, rfl, ?_, hcut, ?_, ?_⟩
  · rw [toList_toByteArray]
    exact hreach.number
  · rw [hnumber]
    exact hreach.column
  · rw [hnumber]
    exact hreach.text

/-- On a newline, behind the last one, and behind the end. -/
example : [2, 3, 5, 9].map (placeAt "a¢\n\nb\n".toList) =
    [⟨1, "a¢\n".toList, 2⟩, ⟨1, "a¢\n".toList, 3⟩, ⟨3, "b\n".toList, 0⟩, ⟨4, [], 0⟩] := by decide

end CatScript.Text
