import CatScript.Token.Scan

/-!
# Scanning loses nothing

A source text is the texts of its tokens with gaps between them:

* a gap is a sequence of white space and of comments, each of which reaches to the end of its
  line;
* a token's value is the text it was read from, except for a string literal, which is read
  from the text between an opening quote and the first quote behind it that is not escaped;
* a quote is escaped by an odd number of backslashes in front of it.

Offsets count bytes, and `StandsAt` says that a piece of the text lies between two of them.
Since it splits the text at characters, both offsets are character boundaries.

Results:
* `scanFrom_laid`: the tokens of a text are laid out along it, gap by gap and token by token.
* `Laid.place`: where a token of such a layout stands, and what stands in front of it.
* `scan_lossless`: the spans of a source's tokens are in bounds and in order, only white space
  and comments lie between them, and each token's value comes from the text under its span.
-/
namespace CatScript.Token
open Text (bytes)

/-! ## Places, gaps and literals -/

/-- `text` stands in `cs` from byte `start` up to byte `stop`, and `after` follows it. -/
def StandsAt (cs : List Char) (start stop : Nat) (text after : List Char) : Prop :=
  ∃ before, cs = before ++ text ++ after ∧ bytes before = start ∧ start + bytes text = stop

/-- White space and comments in front of `after`. A comment goes on until a newline or the
end of the text. -/
inductive Gap (after : List Char) : List Char → Prop
  | nil : Gap after []
  | blank {c : Char} {cs : List Char} : Text.isBlank c = true → Gap after cs → Gap after (c :: cs)
  | comment {body cs : List Char} : '\n' ∉ body → (∀ c ∈ (cs ++ after).head?, c = '\n') →
      Gap after cs → Gap after ('/' :: '/' :: (body ++ cs))

/-- The number of backslashes at the end of a text. -/
def backslashes (cs : List Char) : Nat := (cs.reverse.takeWhile (· = '\\')).length

/-- A quote behind `cs` is not escaped. -/
def Unescaped (cs : List Char) : Prop := backslashes cs % 2 = 0

/-- A literal may stand around `inside`: of the quotes behind the opening one, the closing one
is the first that is not escaped. -/
structure Enclosed (inside : List Char) : Prop where
  closed : Unescaped inside
  first : ∀ front back, inside = front ++ '"' :: back → ¬ Unescaped front

/-- A token of this kind and value may be read from `text`. -/
inductive Reads : Kind → String → List Char → Prop
  | verbatim {kind : Kind} {c : Char} {cs : List Char} : kind ≠ .eof → kind ≠ .string →
      Reads kind (String.ofList (c :: cs)) (c :: cs)
  | literal {inside : List Char} : Enclosed inside →
      Reads .string (String.ofList (unescape inside)) ('"' :: (inside ++ ['"']))

theorem Reads.kind_ne_eof {kind : Kind} {value : String} {text : List Char}
    (h : Reads kind value text) : kind ≠ .eof := by
  cases h with
  | verbatim heof _ => exact heof
  | literal _ => decide

theorem Reads.bytes_pos {kind : Kind} {value : String} {text : List Char}
    (h : Reads kind value text) : 0 < bytes text := by
  cases h with
  | verbatim => exact Nat.add_pos_left (Char.utf8Size_pos _) _
  | literal => exact Nat.add_pos_left (Char.utf8Size_pos _) _

theorem Reads.toList_eq {kind : Kind} {value : String} {text : List Char}
    (h : Reads kind value text) (hkind : kind ≠ .string) : value.toList = text := by
  cases h with
  | verbatim => exact String.toList_ofList
  | literal => exact absurd rfl hkind

theorem Reads.enclosed {value : String} {text : List Char} (h : Reads .string value text) :
    ∃ inside, text = '"' :: (inside ++ ['"']) ∧ Enclosed inside ∧
      value = String.ofList (unescape inside) := by
  cases h with
  | verbatim _ hkind => exact absurd rfl hkind
  | literal hin => exact ⟨_, rfl, hin, rfl⟩

/-- The tokens of a text that starts at byte `offset`, each with a gap in front. -/
inductive Laid (file : String) : Nat → List Char → List Token → Prop
  | done {offset : Nat} {gap : List Char} : Gap [] gap →
      Laid file offset gap [.endAt ⟨file, offset + bytes gap, offset + bytes gap⟩]
  | token {offset start stop : Nat} {kind : Kind} {value : String} {gap text after : List Char}
      {tokens : List Token} : Gap (text ++ after) gap → Reads kind value text →
      start = offset + bytes gap → stop = start + bytes text → Laid file stop after tokens →
      Laid file offset (gap ++ (text ++ after)) (⟨kind, value, ⟨file, start, stop⟩⟩ :: tokens)

/-! ## Literals -/

theorem backslashes_le_length (cs : List Char) : backslashes cs ≤ cs.length := by
  have h := (List.takeWhile_prefix (l := cs.reverse) (· = '\\')).length_le
  simpa [backslashes] using h

theorem backslashes_cons (c : Char) (cs : List Char) :
    backslashes (c :: cs) =
      if backslashes cs = cs.length ∧ c = '\\' then cs.length + 1 else backslashes cs := by
  simp only [backslashes, List.reverse_cons, List.takeWhile_append, List.length_reverse]
  by_cases hall : (cs.reverse.takeWhile (· = '\\')).length = cs.length
  · by_cases hc : c = '\\' <;> simp [hall, hc]
  · simp [hall]

theorem unescaped_cons {c : Char} (hc : c ≠ '\\') (cs : List Char) :
    Unescaped (c :: cs) ↔ Unescaped cs := by
  simp [Unescaped, backslashes_cons, hc]

/-- A backslash and the character it escapes do not bear on what follows them. -/
theorem unescaped_escape (c : Char) (cs : List Char) :
    Unescaped ('\\' :: c :: cs) ↔ Unescaped cs := by
  have hle := backslashes_le_length cs
  simp only [Unescaped, backslashes_cons, List.length_cons, and_true]
  by_cases hall : backslashes cs = cs.length
  · by_cases hc : c = '\\'
    · simp only [hall, hc, and_self, if_true]
      omega
    · simp only [hall, hc, and_false, if_false]
      rw [if_neg (by omega)]
  · simp only [hall, false_and, if_false]
    rw [if_neg (by omega)]

theorem Enclosed.nil : Enclosed [] := ⟨rfl, by simp⟩

theorem Enclosed.cons {c : Char} {inside : List Char} (hquote : c ≠ '"') (hslash : c ≠ '\\')
    (h : Enclosed inside) : Enclosed (c :: inside) := by
  refine ⟨(unescaped_cons hslash inside).2 h.closed, ?_⟩
  intro front back hsplit
  match front with
  | [] =>
    rw [List.nil_append, List.cons.injEq] at hsplit
    exact absurd hsplit.1 hquote
  | d :: front =>
    rw [List.cons_append, List.cons.injEq] at hsplit
    obtain ⟨rfl, hsplit⟩ := hsplit
    rw [unescaped_cons hslash]
    exact h.first front back hsplit

theorem Enclosed.escape (c : Char) {inside : List Char} (h : Enclosed inside) :
    Enclosed ('\\' :: c :: inside) := by
  refine ⟨(unescaped_escape c inside).2 h.closed, ?_⟩
  intro front back hsplit
  -- a quote is the escaped character itself, or it stands behind it
  match front with
  | [] => simp at hsplit
  | [d] =>
    simp only [List.cons_append, List.nil_append, List.cons.injEq] at hsplit
    obtain ⟨rfl, -, -⟩ := hsplit
    simp [Unescaped, backslashes]
  | d :: e :: front =>
    simp only [List.cons_append, List.cons.injEq] at hsplit
    obtain ⟨rfl, rfl, hsplit⟩ := hsplit
    rw [unescaped_escape]
    exact h.first front back hsplit

theorem closeLiteral?_enclosed {cs body after : List Char}
    (h : closeLiteral? cs = some (body, after)) :
    ∃ inside, body = inside ++ ['"'] ∧ Enclosed inside := by
  fun_induction closeLiteral? cs generalizing body after with
  | case1 => cases h
  | case2 rest =>
    cases h
    exact ⟨[], rfl, .nil⟩
  | case3 => cases h
  | case4 c rest _ ih =>
    obtain ⟨⟨b, a⟩, hr, he⟩ := Option.map_eq_some_iff.1 h
    cases he
    obtain ⟨inside, rfl, hi⟩ := ih hr
    exact ⟨'\\' :: c :: inside, rfl, hi.escape c⟩
  | case5 => cases h
  | case6 c rest hquote hslash hlast ih =>
    obtain ⟨⟨b, a⟩, hr, he⟩ := Option.map_eq_some_iff.1 h
    cases he
    obtain ⟨inside, rfl, hi⟩ := ih hr
    have hbs : c ≠ '\\' := by
      rintro rfl
      cases rest with
      | nil => exact hlast rfl rfl
      | cons d ds => exact hslash d ds rfl rfl
    exact ⟨c :: inside, rfl, hi.cons hquote hbs⟩

/-! ## Pieces -/

theorem Gap.append {after a b : List Char} (ha : Gap (b ++ after) a) (hb : Gap after b) :
    Gap after (a ++ b) := by
  induction ha with
  | nil => exact hb
  | blank hc _ ih => exact .blank hc ih
  | @comment body cs hbody hend _ ih =>
    rw [List.cons_append, List.cons_append, List.append_assoc]
    exact .comment hbody (by simpa using hend) ih

theorem gap_blanks {after cs : List Char} (h : ∀ c ∈ cs, Text.isBlank c = true) :
    Gap after cs := by
  induction cs with
  | nil => exact .nil
  | cons c cs ih =>
    rw [List.forall_mem_cons] at h
    exact .blank h.1 (ih h.2)

/-- A skipped piece is a gap in front of the rest, and a token may be read from any other. -/
def Piece.Sound (p : Piece) : Prop :=
  match p.token with
  | none => Gap p.rest p.taken
  | some (kind, value) => Reads kind value p.taken

/-- The kinds of tokens whose value is their own text. -/
def Kind.IsVerbatim (kind : Kind) : Prop := kind ≠ .eof ∧ kind ≠ .string

instance (kind : Kind) : Decidable kind.IsVerbatim := inferInstanceAs (Decidable (_ ∧ _))

theorem Piece.verbatim_sound {kind : Kind} (h : kind.IsVerbatim) (c : Char)
    (cs rest : List Char) : (Piece.verbatim kind (c :: cs) rest).Sound := .verbatim h.1 h.2

theorem isVerbatim_ofWord (word : String) : (Kind.ofWord word).IsVerbatim := by
  unfold Kind.ofWord
  split <;> decide

theorem isVerbatim_mark (c : Char) : ((markKind? c).getD .error).IsVerbatim := by
  unfold markKind?
  split <;> decide

theorem isVerbatim_pair {c d : Char} {kind : Kind} (h : pairKind? c d = some kind) :
    kind.IsVerbatim := by
  unfold pairKind? at h
  split at h <;> cases h <;> decide

theorem markPiece_sound (c : Char) (cs : List Char) : (markPiece c cs).Sound := by
  unfold markPiece
  split
  · exact Piece.verbatim_sound (isVerbatim_mark c) c [] []
  · next d ds =>
    split
    · next hpair => exact Piece.verbatim_sound (isVerbatim_pair hpair) c [d] ds
    · exact Piece.verbatim_sound (isVerbatim_mark c) c [] (d :: ds)

/-- A comment runs up to a newline, which it leaves to the next piece. -/
theorem gap_comment {cs : List Char} (h : cs.head? = some '/') :
    Gap (cs.dropWhile (· ≠ '\n')) ('/' :: cs.takeWhile (· ≠ '\n')) := by
  obtain ⟨ds, rfl⟩ : ∃ ds, cs = '/' :: ds := by
    cases cs with
    | nil => cases h
    | cons d ds => exact ⟨ds, by simpa using h⟩
  have hbody : '\n' ∉ ds.takeWhile (· ≠ '\n') := by
    intro hmem
    simpa using List.all_eq_true.1 List.all_takeWhile '\n' hmem
  have hend : ∀ c ∈ (ds.dropWhile (· ≠ '\n')).head?, c = '\n' := by
    intro c hc
    have hstop := List.head?_dropWhile_not (· ≠ '\n') ds
    rw [Option.mem_def.1 hc] at hstop
    simpa using hstop
  simpa using Gap.comment hbody (by simpa using hend) .nil

theorem firstPiece_sound (c : Char) (cs : List Char) : (firstPiece c cs).Sound := by
  unfold firstPiece
  split
  · exact Piece.verbatim_sound (isVerbatim_ofWord _) c _ _
  split
  · exact Piece.verbatim_sound (by decide) c _ _
  split
  · next hblank => exact .blank hblank (gap_blanks (List.all_eq_true.1 List.all_takeWhile))
  split
  · next hquote =>
    subst hquote
    split
    · next body after hclose =>
      obtain ⟨inside, rfl, hin⟩ := closeLiteral?_enclosed hclose
      simpa [Piece.Sound] using Reads.literal hin
    · exact Piece.verbatim_sound (by decide) '"' [] cs
  split
  · next hslash =>
    obtain ⟨rfl, hnext⟩ := hslash
    exact gap_comment hnext
  · exact markPiece_sound c cs

/-! ## Layout -/

theorem Laid.skip {file : String} {offset : Nat} {skipped cs : List Char} {tokens : List Token}
    (hgap : Gap cs skipped) (h : Laid file (offset + bytes skipped) cs tokens) :
    Laid file offset (skipped ++ cs) tokens := by
  cases h with
  | done hdone =>
    rw [Nat.add_assoc, ← Text.bytes_append]
    exact .done (.append (by simpa using hgap) hdone)
  | token hg hr hstart hstop hrest =>
    rw [← List.append_assoc]
    exact .token (.append hgap hg) hr (by simp [hstart, Nat.add_assoc]) hstop hrest

theorem scanFrom_laid (file : String) (offset : Nat) (cs : List Char) :
    Laid file offset cs (scanFrom file offset cs) := by
  fun_induction scanFrom file offset cs with
  | case1 offset => exact .done .nil
  | case2 offset c cs piece next kind value htoken ih =>
    have hsound := firstPiece_sound c cs
    rw [Piece.Sound, show (firstPiece c cs).token = some (kind, value) from htoken] at hsound
    rw [← taken_append_rest c cs]
    exact .token .nil hsound rfl rfl ih
  | case3 offset c cs piece next htoken ih =>
    have hsound := firstPiece_sound c cs
    rw [Piece.Sound, show (firstPiece c cs).token = none from htoken] at hsound
    rw [← taken_append_rest c cs]
    exact ih.skip hsound

/-- The offset at which the last of the tokens stops, `offset` if there is none. -/
def reached (offset : Nat) : List Token → Nat
  | [] => offset
  | t :: tokens => reached t.span.stop tokens

/-- The token that comes next when `offset` is reached: a gap leads up to its text, which
stands under its span. The end of the stream is read from no text at all. -/
def NextAt (cs : List Char) (offset : Nat) (t : Token) : Prop :=
  ∃ gap text after, StandsAt cs offset t.span.start gap (text ++ after) ∧
    Gap (text ++ after) gap ∧ StandsAt cs t.span.start t.span.stop text after ∧
    (t.kind = .eof ∧ text = [] ∨ Reads t.kind t.value text)

theorem Laid.place {file : String} {offset : Nat} {cs before : List Char}
    {front back : List Token} {t : Token} (hbefore : bytes before = offset)
    (h : Laid file offset cs (front ++ t :: back)) :
    NextAt (before ++ cs) (reached offset front) t ∧ t.span.file = file := by
  induction front generalizing offset cs before with
  | nil =>
    cases h with
    | done hg =>
      exact ⟨⟨cs, [], [], ⟨before, by simp, hbefore, rfl⟩, hg,
        ⟨before ++ cs, by simp, by simp [hbefore, endAt], rfl⟩, .inl ⟨rfl, rfl⟩⟩, rfl⟩
    | @token _ _ _ _ _ gap text after _ hg hr hstart hstop _ =>
      subst hstart hstop
      exact ⟨⟨gap, text, after, ⟨before, by simp, hbefore, rfl⟩, hg,
        ⟨before ++ gap, by simp, by simp [hbefore], rfl⟩, .inr hr⟩, rfl⟩
  | cons u front ih =>
    generalize hall : u :: front ++ t :: back = tokens at h
    cases h with
    | done => simp at hall
    | @token _ _ stop _ _ gap text after _ hg hr hstart hstop hrest =>
      rw [List.cons_append, List.cons.injEq] at hall
      obtain ⟨rfl, rfl⟩ := hall
      have hnext : bytes (before ++ (gap ++ text)) = stop := by
        simp only [Text.bytes_append]
        omega
      simpa [reached] using ih hnext hrest

/-- The text under a token's span is the one it was read from. -/
theorem Laid.stands {file : String} {cs : List Char} {tokens : List Token}
    (h : Laid file 0 cs tokens) (t : Token) (ht : t ∈ tokens) :
    t.span.file = file ∧ ∃ text after, StandsAt cs t.span.start t.span.stop text after ∧
      (t.kind = .eof ∧ text = [] ∨ Reads t.kind t.value text) := by
  obtain ⟨front, back, rfl⟩ := List.append_of_mem ht
  obtain ⟨⟨gap, text, after, _, _, hstands, hreads⟩, hfile⟩ := h.place Text.bytes_nil
  exact ⟨hfile, text, after, hstands, hreads⟩

theorem Laid.ends {file : String} {offset : Nat} {cs : List Char} {tokens : List Token}
    (h : Laid file offset cs tokens) :
    ∃ body, tokens = body ++ [.endAt ⟨file, offset + bytes cs, offset + bytes cs⟩] ∧
      ∀ t ∈ body, t.kind ≠ .eof ∧ t.span.start < t.span.stop := by
  induction h with
  | done hg => exact ⟨[], rfl, by simp⟩
  | @token offset start stop kind value gap text after tokens hg hr hstart hstop _ ih =>
    obtain ⟨body, rfl, hbody⟩ := ih
    refine ⟨⟨kind, value, ⟨file, start, stop⟩⟩ :: body, ?_, ?_⟩
    · simp [hstop, hstart, Nat.add_assoc]
    · rw [List.forall_mem_cons]
      refine ⟨⟨hr.kind_ne_eof, ?_⟩, hbody⟩
      have := hr.bytes_pos
      simp only
      omega

/-- No token of a layout starts before the layout does. -/
theorem Laid.le_start {file : String} {offset : Nat} {cs : List Char} {tokens : List Token}
    (h : Laid file offset cs tokens) : ∀ t ∈ tokens, offset ≤ t.span.start := by
  induction h with
  | done hg =>
    intro t ht
    rw [List.mem_singleton.1 ht]
    exact Nat.le_add_right _ _
  | token hg hr hstart hstop _ ih =>
    rw [List.forall_mem_cons]
    refine ⟨by simp only; omega, ?_⟩
    intro t ht
    have := ih t ht
    omega

theorem Laid.ordered {file : String} {offset : Nat} {cs : List Char} {tokens : List Token}
    (h : Laid file offset cs tokens) :
    tokens.Pairwise fun a b => a.span.start < b.span.start ∧ a.span.stop ≤ b.span.start := by
  induction h with
  | done hg => exact List.pairwise_singleton _ _
  | token hg hr hstart hstop hrest ih =>
    refine List.pairwise_cons.2 ⟨?_, ih⟩
    intro t ht
    have := hr.bytes_pos
    have := hrest.le_start t ht
    simp only
    omega

/-! ## Losslessness -/

/-- What the tokens of a source file are to its text. -/
structure Lossless (source file : String) (tokens : List Token) : Prop where
  /-- The last token, and no other, is the end of the stream, at the end of the text. Every
  other token takes some text. -/
  ends : ∃ body, tokens = body ++ [.endAt ⟨file, source.utf8ByteSize, source.utf8ByteSize⟩] ∧
    ∀ t ∈ body, t.kind ≠ .eof ∧ t.span.start < t.span.stop
  /-- Spans are in the file, and between two of its character boundaries. -/
  inBounds : ∀ t ∈ tokens, t.span.file = file ∧ t.span.stop ≤ source.utf8ByteSize ∧
    ∃ text after, StandsAt source.toList t.span.start t.span.stop text after
  /-- Every token starts behind the one in front of it. -/
  ordered : tokens.Pairwise fun a b => a.span.start < b.span.start ∧ a.span.stop ≤ b.span.start
  /-- White space and comments lead from one token to the next. -/
  gaps : ∀ front t back, tokens = front ++ t :: back → ∃ gap after,
    StandsAt source.toList (reached 0 front) t.span.start gap after ∧ Gap after gap
  /-- A token's value is the text under its span. -/
  verbatim : ∀ t ∈ tokens, t.kind ≠ .string → t.kind ≠ .eof → ∃ after,
    StandsAt source.toList t.span.start t.span.stop t.value.toList after
  /-- A literal's value is what stands for the text between its two quotes. -/
  quoted : ∀ t ∈ tokens, t.kind = .string → ∃ inside after,
    StandsAt source.toList t.span.start t.span.stop ('"' :: (inside ++ ['"'])) after ∧
      Enclosed inside ∧ t.value = String.ofList (unescape inside)

theorem bytes_toList (s : String) : bytes s.toList = s.utf8ByteSize := by
  have h (cs : List Char) : bytes cs = (String.ofList cs).utf8ByteSize := by
    induction cs with
    | nil => rfl
    | cons c cs ih => simp [String.ofList_cons, ih]
  simpa using h s.toList

theorem StandsAt.stop_le {cs text after : List Char} {start stop : Nat}
    (h : StandsAt cs start stop text after) : stop ≤ bytes cs := by
  obtain ⟨before, rfl, hstart, hstop⟩ := h
  simp only [Text.bytes_append]
  omega

/-- Scanning is lossless, whatever the source and the name of its file are. -/
theorem scan_lossless (source file : String) : Lossless source file (scan source file) := by
  have hlaid : Laid file 0 source.toList (scan source file) := scanFrom_laid file 0 source.toList
  constructor
  case ends => simpa [bytes_toList] using hlaid.ends
  case inBounds =>
    intro t ht
    obtain ⟨hfile, text, after, hstands, _⟩ := hlaid.stands t ht
    exact ⟨hfile, bytes_toList source ▸ hstands.stop_le, text, after, hstands⟩
  case ordered => exact hlaid.ordered
  case gaps =>
    intro front t back hsplit
    rw [hsplit] at hlaid
    obtain ⟨⟨gap, text, after, hstands, hgap, _⟩, _⟩ := hlaid.place Text.bytes_nil
    exact ⟨gap, text ++ after, hstands, hgap⟩
  case verbatim =>
    intro t ht hstring heof
    obtain ⟨_, text, after, hstands, ⟨hkind, _⟩ | hreads⟩ := hlaid.stands t ht
    · exact absurd hkind heof
    · rw [hreads.toList_eq hstring]
      exact ⟨after, hstands⟩
  case quoted =>
    intro t ht hstring
    obtain ⟨_, text, after, hstands, ⟨hkind, _⟩ | hreads⟩ := hlaid.stands t ht
    · rw [hstring] at hkind
      cases hkind
    · rw [hstring] at hreads
      obtain ⟨inside, rfl, hin, hvalue⟩ := hreads.enclosed
      exact ⟨inside, after, hstands, hin, hvalue⟩

end CatScript.Token
