import CatScript.Proofs.Grammar.Movement

/-!
# Reading makes progress

A stream ends in an `eof` token, and may hold others on the way. Reading moves the cursor by
passing tokens and by splitting `>=` (`Leads`), and what both moves keep is `Secured`: an `eof`
token still lies ahead, every `>=` ahead can be split behind its first byte, and no split has
gone wrong so far. So a token that is not the end always has one behind it, and passing it stays
in the stream.

Splitting lengthens the stream. What shrinks is the number of tokens that remain with every `>=`
counted as the two it can be split into.

Results:
* `Leads.secured`: whatever reading comes to from a secured cursor is secured.
* `Leads.remaining_le`, `Leads.mark_le`: it is not behind it, and no more remains.
* `stmt_progress`: a statement that is not read at the end moves on and leaves less.
* `progresses_of_splittable`: all of this for every list of tokens whose `>=` can be split, and
  the statements of a stream are read up to an `eof` token.
-/
namespace CatScript

open Token (Kind)

/-- A `>=` token's value begins with a character of a single byte. -/
def Token.Splittable (t : Token) : Prop :=
  t.kind = .greaterEqual → t.value.toList.head?.any Text.isAscii = true

instance (t : Token) : Decidable t.Splittable := inferInstanceAs (Decidable (_ → _))

/-- How many tokens one of this kind can become. -/
def Token.Kind.parts (k : Kind) : Nat := if k = .greaterEqual then 2 else 1

theorem Token.Kind.parts_pos (k : Kind) : 0 < k.parts := by
  unfold parts
  split <;> omega

namespace Cursor

/-- The number of tokens from the current one on, with every `>=` counted as two. -/
def remaining (c : Cursor) : Nat :=
  ((c.current :: c.ahead).map (·.kind.parts)).foldr (· + ·) 0

/-- What every move keeps. -/
structure Secured (c : Cursor) : Prop where
  ends : (c.current :: c.ahead).getLast?.map (·.kind) = some .eof
  splittable : ∀ t ∈ c.current :: c.ahead, t.Splittable
  whole : c.torn = false

/-! ## Where reading starts -/

theorem terminated_ends (tokens : List Token) :
    (terminated tokens).getLast?.map (·.kind) = some .eof := by
  unfold terminated
  split
  · rfl
  · next last hlast =>
    split
    · next heof => simp [hlast, heof]
    · simp [Token.endAt]

theorem terminated_splittable {tokens : List Token} (h : ∀ t ∈ tokens, t.Splittable) :
    ∀ t ∈ terminated tokens, t.Splittable := by
  have hend (span : Span) : (Token.endAt span).Splittable := by
    intro hk
    cases hk
  unfold terminated
  split
  · intro t ht
    rw [List.mem_singleton.1 ht]
    exact hend _
  · split
    · exact h
    · intro t ht
      rcases List.mem_append.1 ht with ht | ht
      · exact h t ht
      · rw [List.mem_singleton.1 ht]
        exact hend _

theorem ofTokens_secured {tokens : List Token} (h : ∀ t ∈ tokens, t.Splittable) :
    (ofTokens tokens).Secured := by
  have hends := terminated_ends tokens
  have hsplit := terminated_splittable h
  unfold ofTokens
  split
  · next hnil => simp [hnil] at hends
  · next t ts hcons =>
    rw [hcons] at hends hsplit
    exact ⟨hends, hsplit, rfl⟩

/-! ## Moves -/

namespace Secured

variable {c : Cursor}

/-- A token that is not the end has one behind it. -/
theorem ahead_ne_nil (h : c.Secured) (hk : c.kind ≠ .eof) : ∃ t ts, c.ahead = t :: ts := by
  cases ha : c.ahead with
  | cons t ts => exact ⟨t, ts, rfl⟩
  | nil =>
    have hends := h.ends
    rw [ha, List.getLast?_singleton, Option.map_some, Option.some.injEq] at hends
    exact absurd hends hk

theorem advance (h : c.Secured) : c.advance.Secured := by
  by_cases hk : c.kind = .eof
  · rw [Cursor.advance, if_pos hk]
    exact h
  · obtain ⟨t, ts, ha⟩ := h.ahead_ne_nil hk
    obtain ⟨hends, hsplit, hwhole⟩ := h
    rw [ha, List.getLast?_cons_cons] at hends
    rw [ha, List.forall_mem_cons] at hsplit
    simp only [Cursor.advance, if_neg hk, ha]
    exact ⟨hends, hsplit.2, hwhole⟩

theorem split (h : c.Secured) (hk : c.kind = .greaterEqual) :
    (c.split .greater .equal).Secured := by
  obtain ⟨t, ts, ha⟩ := h.ahead_ne_nil (by rw [hk]; decide)
  have hascii := h.splittable c.current List.mem_cons_self hk
  unfold Cursor.split
  split
  · exact h
  · next a as hvalue =>
    rw [hvalue] at hascii
    split
    · next hbad => simp [hbad] at hascii
    split
    · exact h
    · obtain ⟨hends, hsplit, hwhole⟩ := h
      -- the last token is neither half, since a token stood behind the one that was split
      refine ⟨?_, ?_, hwhole⟩
      · rw [ha, List.getLast?_cons_cons] at hends ⊢
        rw [List.getLast?_cons_cons]
        exact hends
      · rw [List.forall_mem_cons] at hsplit
        simp only [List.forall_mem_cons]
        exact ⟨(fun hg => by cases hg), (fun he => by cases he), hsplit.2⟩

end Secured

theorem remaining_advance_lt {c : Cursor} (h : c.Secured) (hk : c.kind ≠ .eof) :
    c.advance.remaining < c.remaining := by
  obtain ⟨t, ts, ha⟩ := h.ahead_ne_nil hk
  have := c.current.kind.parts_pos
  simp only [remaining, advance, if_neg hk, ha, List.map_cons, List.foldr_cons]
  omega

theorem remaining_advance_le {c : Cursor} (h : c.Secured) : c.advance.remaining ≤ c.remaining := by
  by_cases hk : c.kind = .eof
  · simp [advance, hk]
  · exact Nat.le_of_lt (remaining_advance_lt h hk)

theorem remaining_split (c : Cursor) (hk : c.kind = .greaterEqual) :
    (c.split .greater .equal).remaining = c.remaining := by
  unfold split
  split
  · rfl
  split
  · rfl
  split
  · rfl
  · simp only [kind] at hk
    simp only [remaining, List.map_cons, List.foldr_cons, hk, Token.Kind.parts]
    simp only [reduceCtorEq, if_false, if_true]
    omega

theorem mark_advance {c : Cursor} (hk : c.kind ≠ .eof) : c.advance.mark = c.mark + 1 := by
  rw [advance, if_neg hk]
  split <;> rfl

theorem mark_split (c : Cursor) (first second : Kind) : (c.split first second).mark = c.mark := by
  unfold split
  split
  · rfl
  split
  · rfl
  split <;> rfl

/-! ## Runs of moves -/

namespace Leads

variable {c d : Cursor}

theorem secured (h : c.Leads d) (hc : c.Secured) : d.Secured := by
  induction h with
  | refl => exact hc
  | advance _ ih => exact ih.advance
  | split _ hk ih => exact ih.split hk

theorem remaining_le (h : c.Leads d) (hc : c.Secured) : d.remaining ≤ c.remaining := by
  induction h with
  | refl => exact Nat.le_refl _
  | advance h ih => exact Nat.le_trans (remaining_advance_le (h.secured hc)) ih
  | @split d _ hk ih =>
    rw [remaining_split d hk]
    exact ih

theorem mark_le (h : c.Leads d) : c.mark ≤ d.mark := by
  induction h with
  | refl => exact Nat.le_refl _
  | @advance d _ ih =>
    by_cases hk : d.kind = .eof
    · rw [Cursor.advance, if_pos hk]
      exact ih
    · rw [mark_advance hk]
      omega
  | split _ _ ih =>
    rw [mark_split]
    exact ih

end Leads

end Cursor

namespace Grammar

open Cursor

theorem stmt_progress (inFunction : Bool) {c : Cursor} (h : c.Secured) (hk : c.kind ≠ .eof) :
    c.mark < (stmt inFunction c).2.mark ∧ (stmt inFunction c).2.remaining < c.remaining := by
  have hleads := stmt_leads inFunction c
  have hmark := hleads.mark_le
  have hremaining := hleads.remaining_le h.advance
  have hless := remaining_advance_lt h hk
  rw [mark_advance hk] at hmark
  omega

theorem statements_end (c : Cursor) : (statements c).2.kind = .eof := by
  fun_induction statements c with
  | case1 c h => exact h
  | case2 c h s more ih => exact ih

theorem read_end (c : Cursor) : (Program.read c).2.kind = .eof := by
  unfold Program.read
  split
  · split
    · exact statements_end c
    · next hmore => simpa [hasMore] using hmore
  · exact statements_end c

/-- Reading a list of tokens has come to the cursor `d`, or could have by the same moves. -/
def Visits (tokens : List Token) (d : Cursor) : Prop := (Cursor.ofTokens tokens).Leads d

/-- How a list of tokens is read, from the first cursor to the last. -/
structure Progresses (tokens : List Token) : Prop where
  /-- The token behind one that is not the end is a token of the stream. -/
  inBounds : ∀ d, Visits tokens d → d.kind ≠ .eof → d.mark + 1 < d.tokens.length
  /-- No token is split inside a character. -/
  whole : ∀ d, Visits tokens d → d.torn = false
  /-- Every expression, type, header, statement and body is read without another move. -/
  moves : ∀ d, Visits tokens d → Visits tokens (expr d).rest ∧ Visits tokens (typeName d).2 ∧
    Visits tokens (header d).rest ∧ ∀ inFunction, Visits tokens (stmt inFunction d).2 ∧
      Visits tokens (body inFunction d).rest ∧ Visits tokens (block inFunction d).2
  /-- Every statement, in a function or not, is read forward, and less remains. -/
  forward : ∀ d, Visits tokens d → d.kind ≠ .eof → ∀ inFunction,
    d.mark < (stmt inFunction d).2.mark ∧ (stmt inFunction d).2.remaining < d.remaining
  /-- The statements are read up to an `eof` token. -/
  ends : Visits tokens (statements (.ofTokens tokens)).2 ∧
    (statements (.ofTokens tokens)).2.kind = .eof
  /-- So is the program, if it is statements or a single expression. -/
  finishes : Visits tokens (Program.read (.ofTokens tokens)).2 ∧
    (Program.read (.ofTokens tokens)).2.kind = .eof

/-- Reading makes progress on every list of tokens whose `>=` can be split, with or without `eof`
tokens on the way. -/
theorem progresses_of_splittable {tokens : List Token} (h : ∀ t ∈ tokens, t.Splittable) :
    Progresses tokens := by
  have hstart := ofTokens_secured h
  constructor
  case inBounds =>
    intro d hd hk
    obtain ⟨t, ts, ha⟩ := (Leads.secured hd hstart).ahead_ne_nil hk
    simp only [mark, Cursor.tokens, List.length_append, List.length_reverse, ha, List.length_cons]
    omega
  case whole =>
    intro d hd
    exact (Leads.secured hd hstart).whole
  case moves =>
    intro d hd
    refine ⟨hd.trans (expr_leads d), hd.trans (typeName_leads d), hd.trans (header_leads d), ?_⟩
    intro inFunction
    exact ⟨hd.advance.trans (stmt_leads inFunction d), hd.trans (body_leads inFunction d),
      hd.trans (block_leads inFunction d)⟩
  case forward =>
    intro d hd hk inFunction
    exact stmt_progress inFunction (Leads.secured hd hstart) hk
  case ends => exact ⟨statements_leads _, statements_end _⟩
  case finishes => exact ⟨read_leads _, read_end _⟩

/-- A stream with a `>=` that closes a type name, and with an `eof` token on the way. -/
theorem progresses_two_files :
    (∀ t ∈ Token.scan "var xs: list<int>= [1]" "a" ++ Token.scan "print(xs)" "b", t.Splittable) ∧
      Progresses (Token.scan "var xs: list<int>= [1]" "a" ++ Token.scan "print(xs)" "b") :=
  ⟨by decide +kernel, progresses_of_splittable (by decide +kernel)⟩

end Grammar

end CatScript
