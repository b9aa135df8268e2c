import Mathlib.Data.String.Basic
import CatScript.Proofs.Grammar.Places
import CatScript.Proofs.Grammar.Precedence
import CatScript.Proofs.Token.Recognised

/-!
# Layout does not matter

The texts of a source's tokens can be laid out anew: with any white space in front, behind and
between, where two tokens may stay together only if they touched before (`Spacing`). Comments are
gone then. If the source has no error token, the new text has the same tokens at other places, and
it is read as the same program.

Without white space between them two tokens may well run together, as the halves of `>=` or of a
comment do. They do not if they touched before: each token is recognised by the next character, and
that one is still there.

Results:
* `Divided.lay`: the tokens laid out anew are scanned again.
* `respaced_reads_alike`: tokens and program of the new text are those of the source, except for
  offsets.
-/
namespace CatScript

open Text (bytes isBlank)

/-- The part of a text under a span. -/
def Span.textIn (source : String) (s : Span) : String :=
  String.Pos.Raw.extract source ⟨s.start⟩ ⟨s.stop⟩

theorem Span.textIn_eq {source file : String} {before text after : List Char}
    (h : source.toList = before ++ text ++ after) :
    textIn source ⟨file, bytes before, bytes before + bytes text⟩ = String.ofList text := by
  have hbytes (cs : List Char) : String.utf8Len cs = bytes cs := by
    induction cs with
    | nil => rfl
    | cons c cs ih => rw [String.utf8Len_cons, Text.bytes_cons, ih, Nat.add_comm]
  have hextract := String.extract_of_valid before text after
  rwa [← h, String.ofList_toList, hbytes, hbytes] at hextract

namespace Token

/-! ## Spacings -/

/-- White space to lay out tokens with. It is empty only between tokens that touch. -/
structure Spacing where
  lead : List Char
  between : Token → Token → List Char
  trail : List Char
  blank_lead : ∀ c ∈ lead, isBlank c = true
  blank_between : ∀ t u, ∀ c ∈ between t u, isBlank c = true
  blank_trail : ∀ c ∈ trail, isBlank c = true
  touching : ∀ t u, between t u = [] → t.span.stop = u.span.start

namespace Spacing

/-- A space between any two tokens. -/
def single : Spacing where
  lead := []
  between _ _ := [' ']
  trail := []
  blank_lead _ hc := by cases hc
  blank_between _ _ _ hc := by rw [List.mem_singleton.1 hc]; decide
  blank_trail _ hc := by cases hc
  touching _ _ h := by cases h

/-- A space where there was a gap. -/
def squeezed : Spacing where
  lead := []
  between t u := if t.span.stop = u.span.start then [] else [' ']
  trail := []
  blank_lead _ hc := by cases hc
  blank_between t u c hc := by
    split at hc
    · cases hc
    · rw [List.mem_singleton.1 hc]
      decide
  blank_trail _ hc := by cases hc
  touching t u h := by
    by_contra hne
    rw [if_neg hne] at h
    cases h

variable (s : Spacing)

/-- The white space behind a token. -/
def behind (t : Token) : List Token → List Char
  | [] => []
  | u :: _ => s.between t u

/-- The texts of the tokens in a source, laid out anew. -/
def lay (source : String) : List Token → List Char
  | [] => s.trail
  | t :: ts => (t.span.textIn source).toList ++ (s.behind t ts ++ lay source ts)

/-- The text with its tokens laid out anew. -/
def respace (source file : String) : String :=
  String.ofList (s.lead ++ s.lay source ((scan source file).filter fun t => t.kind ≠ .eof))

theorem blank_behind (t : Token) (ts : List Token) : ∀ c ∈ s.behind t ts, isBlank c = true := by
  cases ts with
  | nil => nofun
  | cons u us => exact s.blank_between t u

/-- A space between any two tokens joins their texts. -/
theorem respace_single (source file : String) : single.respace source file =
    " ".intercalate (((scan source file).filter fun t => t.kind ≠ .eof).map
      fun t => t.span.textIn source) := by
  have hlay (ts : List Token) : single.lay source ts =
      [' '].intercalate (ts.map fun t => (t.span.textIn source).toList) := by
    induction ts with
    | nil => rfl
    | cons t ts ih =>
      cases ts with
      | nil => simp [lay, behind, single]
      | cons u us =>
        rw [lay, ih]
        simp only [List.map_cons, List.intercalate_cons_cons, List.append_assoc]
        rfl
  apply String.toList_injective
  rw [respace, String.toList_ofList, hlay, String.toList_intercalate, List.map_map]
  rfl

end Spacing

/-! ## Scanning again -/

theorem Recognised.text_ne_nil {kind : Kind} {value : String} {text rest : List Char}
    (h : Recognised kind value text rest) : text ≠ [] := by
  obtain ⟨c, cs, rfl, -⟩ := h.firstPiece
  exact List.cons_ne_nil c cs

/-- What is laid out behind a token starts with white space, or as the text behind it did. -/
theorem Divided.resumes {file source : String} {offset : Nat} {before cs : List Char}
    {ts : List Token} (h : Divided file offset cs ts) (s : Spacing) (t : Token)
    (hstop : t.span.stop = offset) (hsource : source.toList = before ++ cs)
    (hbefore : bytes before = offset) :
    Resumes cs (s.behind t ts ++ s.lay source ts) := by
  cases h with
  | done hgap => exact .inr fun c hc => s.blank_trail c (List.mem_of_mem_head? hc)
  | @token _ start stop kind value gap text after us hgap hread hstart hstop' =>
    have hblank := s.blank_behind t (⟨kind, value, ⟨file, start, stop⟩⟩ :: us)
    cases hb : s.behind t (⟨kind, value, ⟨file, start, stop⟩⟩ :: us) with
    | cons c _ =>
      rw [hb] at hblank
      exact .inr fun d hd => hblank d (by simp_all)
    | nil =>
      have htouch : t.span.stop = start := s.touching _ _ hb
      have hempty : gap = [] := by
        have := Text.length_le_bytes gap
        exact List.length_eq_zero_iff.1 (by omega)
      subst hempty hstart hstop'
      have htext : Span.textIn source ⟨file, bytes before, bytes before + bytes text⟩ =
          String.ofList text := Span.textIn_eq (by simpa using hsource)
      obtain ⟨c, cs, rfl⟩ := List.exists_cons_of_ne_nil hread.text_ne_nil
      rw [hbefore] at htext
      rw [List.nil_append, Spacing.lay, htext, String.toList_ofList]
      exact .inl rfl

/-- The tokens laid out anew are scanned again. -/
theorem Divided.lay {file source : String} {offset : Nat} {before cs : List Char}
    {ts : List Token} (h : Divided file offset cs ts) (s : Spacing)
    (hsource : source.toList = before ++ cs) (hbefore : bytes before = offset) (offset' : Nat) :
    (scanFrom file offset' (s.lay source ts)).map (·.relocate fun _ => 0) =
      ts.map (·.relocate fun _ => 0) ++ [.endAt ⟨file, 0, 0⟩] := by
  induction h generalizing before offset' with
  | done hgap =>
    have hblank := scanFrom_blanks s.blank_trail file offset' []
    rw [List.append_nil] at hblank
    rw [Spacing.lay, hblank, scanFrom]
    rfl
  | @token offset start stop kind value gap text after ts hgap hread hstart hstop hrest ih =>
    subst hstart hstop
    have hsource' : source.toList = (before ++ gap) ++ text ++ after := by simpa using hsource
    have hplace : bytes (before ++ gap) = offset + bytes gap := by rw [Text.bytes_append, hbefore]
    have hplace' : bytes (before ++ gap ++ text) = offset + bytes gap + bytes text := by
      rw [Text.bytes_append, hplace]
    have htext : Span.textIn source ⟨file, offset + bytes gap, offset + bytes gap + bytes text⟩ =
        String.ofList text := hplace ▸ Span.textIn_eq hsource'
    let t : Token := ⟨kind, value, ⟨file, offset + bytes gap, offset + bytes gap + bytes text⟩⟩
    have hresumes := hrest.resumes s t rfl hsource' hplace'
    rw [Spacing.lay, htext, String.toList_ofList, (hread.resumes hresumes).scanFrom,
      scanFrom_blanks (s.blank_behind _ ts), List.map_cons, ih hsource' hplace', List.map_cons,
      List.cons_append]
    rfl

/-- A text without error tokens has the same tokens when they are laid out anew. -/
theorem scan_respace {source file : String} (h : ∀ t ∈ scan source file, t.kind ≠ .error)
    (s : Spacing) : (scan (s.respace source file) file).map (·.relocate fun _ => 0) =
      (scan source file).map (·.relocate fun _ => 0) := by
  obtain ⟨ts, hts, hdivided⟩ := divided_of_scanFrom file 0 source.toList h
  have hscan : scan source file =
      ts ++ [.endAt ⟨file, 0 + bytes source.toList, 0 + bytes source.toList⟩] := hts
  have hfilter : (scan source file).filter (fun t => t.kind ≠ .eof) = ts := by
    obtain ⟨us, e, hus, he, hall⟩ := scanFrom_lexical file 0 source.toList
    obtain ⟨rfl, hlast⟩ := List.append_inj' (hus.symm.trans hts) rfl
    rw [hscan, List.filter_append,
      List.filter_eq_self.2 fun t ht => decide_eq_true (hall t ht).more]
    simp [endAt]
  have hlaid : (scanFrom file (0 + bytes s.lead) (s.lay source ts)).map (·.relocate fun _ => 0) =
      ts.map (·.relocate fun _ => 0) ++ [.endAt ⟨file, 0, 0⟩] :=
    hdivided.lay s (List.nil_append source.toList).symm rfl _
  rw [Spacing.respace, hfilter, scan, String.toList_ofList, scanFrom_blanks s.blank_lead, hlaid,
    hscan, List.map_append]
  rfl

end Token

/-- The two texts have the same tokens and are read as the same program, except for offsets. -/
structure DifferInPlaces (file a b : String) : Prop where
  tokens : (Token.scan a file).map Token.lexeme = (Token.scan b file).map Token.lexeme
  program : (Program.parse a file).relocate (fun _ => 0) =
    (Program.parse b file).relocate (fun _ => 0)

/-- A text without error tokens differs in places only from the texts of its tokens joined with
single spaces, and from any other layout of them. -/
theorem respaced_reads_alike (source file : String)
    (h : ∀ t ∈ Token.scan source file, t.kind ≠ .error) :
    DifferInPlaces file (" ".intercalate
      (((Token.scan source file).filter (·.kind ≠ .eof)).map (·.span.textIn source))) source ∧
    ∀ s : Token.Spacing, DifferInPlaces file (s.respace source file) source := by
  have hspaced (s : Token.Spacing) : DifferInPlaces file (s.respace source file) source := by
    have htokens := Token.scan_respace h s
    constructor
    · have hlexemes := congrArg (List.map Token.lexeme) htokens
      rwa [List.map_map, List.map_map] at hlexemes
    · exact Program.read_alike .forgotten
        (Cursor.ofTokens_alike (Token.scan_ended _ _) htokens)
  refine ⟨?_, hspaced⟩
  rw [← Token.Spacing.respace_single]
  exact hspaced .single

/-- A comment goes, the glued `>=` and `//` in a literal stay. -/
theorem commented_source_respaced :
    Token.Spacing.squeezed.respace "var x:list<int>=[1] // one\n\n  print(\"//\\\"\"+x/2)" "a.cat" =
        "var x:list<int>=[1] print(\"//\\\"\"+x/2)" ∧
      DifferInPlaces "a.cat"
        (Token.Spacing.squeezed.respace "var x:list<int>=[1] // one\n\n  print(\"//\\\"\"+x/2)" "a.cat")
        "var x:list<int>=[1] // one\n\n  print(\"//\\\"\"+x/2)" :=
  ⟨by decide +kernel,
    (respaced_reads_alike "var x:list<int>=[1] // one\n\n  print(\"//\\\"\"+x/2)" "a.cat"
      (by decide +kernel)).2 .squeezed⟩

end CatScript
