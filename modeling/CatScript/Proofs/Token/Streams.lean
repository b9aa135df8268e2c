import CatScript.Proofs.Grammar.Progress
import CatScript.Token.Stream

/-!
# Streams that end in `eof`

A stream is sound if it ends in an `eof` token and its index is that of a token. Looking at a token
then gives one, and passing the current token stays in the stream, since the last token is not
passed. A split is the one operation that can make a stream unsound: it can replace the last token
too, and the stream then ends in a token of the kind that was asked for. The new last token can be
passed like any other, and what looks at the current token behind it fails.

Reading splits a `>=` only, which is not the last token of a sound stream. So the streams that
reading comes to are sound, and its cursors are these streams.

Results:
* `Sound.step`: an operation on a sound stream gives an answer and a sound stream, unless it splits
  the last token for another one.
* `staysSound_iff`: so does a sequence of operations.
* `Cursor.step_stream`: the operations on a cursor are those on its stream.
* `Cursor.stream_sound`: wherever reading comes to, the stream is sound.
-/
namespace CatScript

open Token (Kind)

namespace Token

/-- A token whose value starts with a character of a single byte can be split. It becomes two, if
its value is longer than that. -/
theorem halves_ok (t : Token) (first second : Kind)
    (h : t.value.toList.head?.all Text.isAscii = true) :
    ∃ ts, t.halves first second = .ok ts ∧ ts ≠ [] ∧
      ts.getLast?.map (·.kind) = some (if 1 < t.value.toList.length then second else t.kind) := by
  unfold halves
  split
  · next he => exact ⟨[t], rfl, by simp, by simp [he]⟩
  · next a as he =>
    rw [he] at h ⊢
    rw [if_neg (by simpa using h)]
    cases as with
    | nil => exact ⟨[t], rfl, by simp, by simp⟩
    | cons b bs => exact ⟨_, rfl, by simp, by simp⟩

namespace Stream

variable {s s' : Stream} {t : Token} {ts : List Token} {op : Operation} {ops : List Operation}
  {a : Answer}

/-- The stream ends in an `eof` token, and there is a token at its index. -/
structure Sound (s : Stream) : Prop where
  ends : s.tokens.getLast?.map (·.kind) = some .eof
  inside : s.position < s.tokens.length

/-! ## Single operations -/

theorem ofTokens_sound (tokens : List Token) : (ofTokens tokens).Sound := by
  have hends := Cursor.terminated_ends tokens
  refine ⟨hends, List.length_pos_iff.2 fun hnil => ?_⟩
  rw [show Cursor.terminated tokens = [] from hnil] at hends
  cases hends

theorem tokenAt_of_lt {i : Nat} (h : i < s.tokens.length) : ∃ t, s.tokenAt i = .ok t :=
  ⟨s.tokens[i], by rw [tokenAt, List.getElem?_eq_getElem h]⟩

theorem getElem?_of_current (h : s.current = .ok t) : s.tokens[s.position]? = some t := by
  unfold current tokenAt at h
  split at h
  · next ht => cases h; exact ht
  · cases h

theorem Sound.current (h : s.Sound) : ∃ t, s.current = .ok t := tokenAt_of_lt h.inside

theorem Sound.previous (h : s.Sound) : ∃ t, s.previous = .ok t :=
  tokenAt_of_lt (Nat.lt_of_le_of_lt (Nat.sub_le ..) h.inside)

theorem Sound.kind_of_last (h : s.Sound) (ht : s.current = .ok t)
    (hlast : s.position + 1 = s.tokens.length) : t.kind = .eof := by
  have hends := h.ends
  rw [List.getLast?_eq_getElem?, ← hlast, Nat.add_sub_cancel, getElem?_of_current ht] at hends
  exact Option.some.inj hends

/-- The last token is not passed. -/
theorem Sound.pass (h : s.Sound) (ht : s.current = .ok t) : (s.pass t).Sound := by
  unfold Stream.pass
  split
  · exact h
  · next hk =>
    have hinside := h.inside
    have hlast : s.position + 1 ≠ s.tokens.length := fun he => hk (h.kind_of_last ht he)
    exact ⟨h.ends, Nat.lt_of_le_of_ne hinside hlast⟩

theorem Sound.moveTo (h : s.Sound) (n : Nat) : (s.moveTo n).Sound := by
  refine ⟨h.ends, ?_⟩
  have hinside := h.inside
  simp only [Stream.moveTo]
  omega

/-- What stands in the place of the last token is the end of the stream. -/
theorem Sound.replace_iff (h : s.Sound) (hts : ts ≠ []) :
    (s.replace ts).Sound ↔
      s.position + 1 < s.tokens.length ∨ ts.getLast?.map (·.kind) = some .eof := by
  have hinside := h.inside
  have hpos := List.length_pos_iff.2 hts
  have hbound : (s.replace ts).position < (s.replace ts).tokens.length := by
    simp only [replace, List.length_append, List.length_take]
    omega
  obtain ⟨e, he, hk⟩ := Option.map_eq_some_iff.1 h.ends
  by_cases hmore : s.position + 1 < s.tokens.length
  · have hends : (s.replace ts).tokens.getLast? = some e := by
      rw [replace, List.getLast?_append, List.getLast?_append, List.getLast?_drop,
        if_neg (by omega), he]
      rfl
    simp only [hmore, true_or, iff_true]
    exact ⟨by rw [hends, ← he]; exact h.ends, hbound⟩
  · have hdrop : s.tokens.drop (s.position + 1) = [] := List.drop_eq_nil_iff.2 (by omega)
    have hends : (s.replace ts).tokens.getLast? = ts.getLast? := by
      rw [replace, hdrop, List.append_nil, List.getLast?_append,
        List.getLast?_eq_some_getLast hts]
      rfl
    simp only [hmore, false_or]
    exact ⟨fun hs => hends ▸ hs.ends, fun he => ⟨by rw [hends]; exact he, hbound⟩⟩

/-! ## Steps -/

/-- A token that is split does not start with a character of several bytes. -/
def fits (s : Stream) : Operation → Bool
  | .split _ _ =>
    match s.current with
    | .ok t => t.value.toList.head?.all Text.isAscii
    | .error _ => true
  | _ => true

/-- The last token is split into two, of which the second is no `eof` token. -/
def losesEnd (s : Stream) : Operation → Bool
  | .split _ second =>
    match s.current with
    | .ok t =>
      s.position + 1 = s.tokens.length && 1 < t.value.toList.length && second ≠ .eof
    | .error _ => false
  | _ => false

/-- Every operation on a sound stream gives an answer. It gives a sound stream, unless it splits the
last token for another one. -/
theorem Sound.step (h : s.Sound) (hfit : s.fits op = true) :
    ∃ a s', s.step op = .ok (a, s') ∧ (s'.Sound ↔ s.losesEnd op = false) := by
  obtain ⟨t, ht⟩ := h.current
  cases op with
  | current => exact ⟨.token t, s, by rw [Stream.step, ht]; rfl, iff_of_true h rfl⟩
  | kind => exact ⟨.kind t.kind, s, by rw [Stream.step, ht]; rfl, iff_of_true h rfl⟩
  | peek n => exact ⟨_, s, rfl, iff_of_true h rfl⟩
  | isOneOf kinds => exact ⟨_, s, by rw [Stream.step, ht]; rfl, iff_of_true h rfl⟩
  | hasMore => exact ⟨_, s, by rw [Stream.step, ht]; rfl, iff_of_true h rfl⟩
  | consume =>
    exact ⟨.token t, s.pass t, by rw [Stream.step, ht]; rfl, iff_of_true (h.pass ht) rfl⟩
  | mark => exact ⟨_, s, rfl, iff_of_true h rfl⟩
  | moveTo n => exact ⟨_, s.moveTo n, rfl, iff_of_true (h.moveTo n) rfl⟩
  | previous =>
    obtain ⟨u, hu⟩ := h.previous
    exact ⟨.token u, s, by rw [Stream.step, hu]; rfl, iff_of_true h rfl⟩
  | split first second =>
    rw [fits, ht] at hfit
    obtain ⟨ts, hhalves, hne, hlast⟩ := t.halves_ok first second hfit
    have hstep : s.step (.split first second) = .ok (.nothing, s.replace ts) := by
      rw [Stream.step, ht]
      exact congrArg (Except.map fun ts => (Answer.nothing, s.replace ts)) hhalves
    refine ⟨.nothing, s.replace ts, hstep, ?_⟩
    rw [h.replace_iff hne, hlast, losesEnd, ht, Option.some.injEq]
    by_cases hmore : s.position + 1 < s.tokens.length
    · simp [hmore, Nat.ne_of_lt hmore]
    · have hend : s.position + 1 = s.tokens.length := by
        have := h.inside
        omega
      have hkind := h.kind_of_last ht hend
      split <;> simp [*]

/-! ## Sequences of operations -/

/-- Whether `p` holds of every operation and the stream that it meets, as far as there is no
fault. -/
def along (p : Stream → Operation → Bool) (s : Stream) : List Operation → Bool
  | [] => true
  | op :: ops =>
    p s op &&
      match s.step op with
      | .ok (_, s') => s'.along p ops
      | .error _ => true

/-- The operations give answers, and the stream is sound behind each of them. -/
def StaysSound (s : Stream) (ops : List Operation) : Prop :=
  ∀ front, front <+: ops → ∃ answers s', s.run front = .ok (answers, s') ∧ s'.Sound

theorem run_cons (h : s.step op = .ok (a, s')) (ops : List Operation) :
    s.run (op :: ops) = (s'.run ops).map fun r => (a :: r.1, r.2) := by
  rw [run, h]
  rfl

theorem StaysSound.sound (h : s.StaysSound ops) : s.Sound := by
  obtain ⟨answers, s', hrun, hs⟩ := h [] List.nil_prefix
  cases hrun
  exact hs

theorem staysSound_cons (h : s.Sound) (hstep : s.step op = .ok (a, s')) :
    s.StaysSound (op :: ops) ↔ s'.StaysSound ops := by
  constructor
  · intro hall front hfront
    obtain ⟨answers, t, hrun, ht⟩ := hall (op :: front) (List.cons_prefix_cons.2 ⟨rfl, hfront⟩)
    rw [run_cons hstep] at hrun
    cases hrest : s'.run front with
    | error e => rw [hrest] at hrun; cases hrun
    | ok r =>
      rw [hrest] at hrun
      cases hrun
      exact ⟨r.1, r.2, rfl, ht⟩
  · intro hall front hfront
    cases front with
    | nil => exact ⟨[], s, rfl, h⟩
    | cons op' front =>
      obtain ⟨rfl, hrest⟩ := List.cons_prefix_cons.1 hfront
      obtain ⟨answers, t, hrun, ht⟩ := hall front hrest
      exact ⟨a :: answers, t, by rw [run_cons hstep, hrun]; rfl, ht⟩

theorem Sound.stays_iff (h : s.Sound) (hfit : s.along fits ops = true) :
    s.StaysSound ops ↔ s.along (fun s op => !s.losesEnd op) ops = true := by
  induction ops generalizing s with
  | nil =>
    refine iff_of_true (fun front hfront => ?_) rfl
    rw [List.prefix_nil.1 hfront]
    exact ⟨[], s, rfl, h⟩
  | cons op ops ih =>
    rw [along, Bool.and_eq_true] at hfit
    obtain ⟨a, s', hstep, hiff⟩ := h.step hfit.1
    rw [hstep] at hfit
    rw [staysSound_cons h hstep, along, hstep, Bool.and_eq_true, Bool.not_eq_true', ← hiff]
    by_cases hs : s'.Sound
    · rw [ih hs hfit.2]
      exact (and_iff_right hs).symm
    · exact iff_of_false (fun hall => hs hall.sound) fun hall => hs hall.1

/-- The operations on the stream of any list of tokens give answers, and the stream stays sound
under them, exactly if none of them splits the last token for another one. -/
theorem staysSound_iff (tokens : List Token) (ops : List Operation)
    (hfit : (ofTokens tokens).along fits ops = true) :
    (ofTokens tokens).StaysSound ops ↔
      (ofTokens tokens).along (fun s op => !s.losesEnd op) ops = true :=
  (ofTokens_sound tokens).stays_iff hfit

/-- A token in two halves, a look behind the end, and a split of the last token that keeps an `eof`
token behind it. -/
theorem staysSound_halves :
    let s := ofTokens (scan "x >= 1" "halves.cat")
    let ops : List Operation := [.consume, .split .greater .equal, .consume, .previous, .peek 7,
      .moveTo 9, .consume, .split .plus .eof, .consume, .consume, .current]
    s.along fits ops = true ∧ s.along (fun s op => !s.losesEnd op) ops = true ∧
      s.StaysSound ops := by
  intro s ops
  have hfit : s.along fits ops = true := by decide +kernel
  have hspare : s.along (fun s op => !s.losesEnd op) ops = true := by decide +kernel
  exact ⟨hfit, hspare, (staysSound_iff _ ops hfit).2 hspare⟩

/-- The last token is split like a `>=`. Both halves are passed, and there is no token behind
them. -/
theorem staysSound_fails_last :
    let ops : List Operation := [.split .greater .equal, .consume, .consume, .current]
    (ofTokens []).along fits ops = true ∧ ¬ (ofTokens []).StaysSound ops ∧
      (ofTokens []).run ops = .error .pastEnd := by
  intro ops
  have hrun : (ofTokens []).run ops = .error .pastEnd := rfl
  refine ⟨by decide +kernel, fun h => ?_, hrun⟩
  obtain ⟨answers, s, hok, -⟩ := h ops List.prefix_rfl
  rw [hrun] at hok
  cases hok

end Stream

end Token

/-! ## Cursors -/

namespace Cursor

open Token.Stream (Operation Answer)

variable {c : Cursor}

/-- The stream in which the cursor stands. -/
def stream (c : Cursor) : Token.Stream := ⟨c.tokens, c.mark⟩

/-- The answer that the cursor gives to an operation, and the cursor afterwards. -/
def apply (c : Cursor) : Operation → Answer × Cursor
  | .current => (.token c.current, c)
  | .kind => (.kind c.kind, c)
  | .peek n => (.kind (c.peek n), c)
  | .isOneOf kinds => (.truth (c.isOneOf kinds), c)
  | .hasMore => (.truth c.hasMore, c)
  | .consume => (.token c.current, c.advance)
  | .mark => (.position c.mark, c)
  | .moveTo n => (.nothing, c.moveTo n)
  | .previous => (.token c.previous, c)
  | .split first second => (.nothing, c.split first second)

theorem stream_ofTokens (tokens : List Token) :
    (ofTokens tokens).stream = .ofTokens tokens := by
  have hends := terminated_ends tokens
  unfold ofTokens
  split
  · next hnil => simp [hnil] at hends
  · next t ts hcons => rw [Token.Stream.ofTokens, hcons]; rfl

theorem getElem?_tokens (c : Cursor) (n : Nat) :
    c.tokens[c.mark + n]? = (c.current :: c.ahead)[n]? := by
  rw [tokens, mark, ← List.length_reverse, List.getElem?_append_right (Nat.le_add_right ..),
    Nat.add_sub_cancel_left]

theorem current_stream (c : Cursor) : c.stream.current = .ok c.current := by
  have h := c.getElem?_tokens 0
  rw [Nat.add_zero] at h
  simp only [Token.Stream.current, Token.Stream.tokenAt, stream, h, List.getElem?_cons_zero]

theorem peek_stream (c : Cursor) (n : Nat) : c.stream.peek n = c.peek n := by
  have h : c.stream.tokens[c.stream.position + n]? = (c.current :: c.ahead)[n]? :=
    c.getElem?_tokens n
  unfold Token.Stream.peek peek
  generalize c.stream.tokens[c.stream.position + n]? = found at h ⊢
  subst h
  cases (c.current :: c.ahead)[n]? <;> rfl

theorem previous_stream (c : Cursor) : c.stream.previous = .ok c.previous := by
  obtain ⟨before, current, ahead, torn⟩ := c
  cases before with
  | nil => rfl
  | cons t ts =>
    simp [Token.Stream.previous, Token.Stream.tokenAt, stream, tokens, mark, previous]

theorem pass_stream (h : c.kind ≠ .eof → c.ahead ≠ []) :
    c.stream.pass c.current = c.advance.stream := by
  by_cases hk : c.kind = .eof
  · rw [advance, if_pos hk]
    exact if_pos hk
  · obtain ⟨t, ts, ha⟩ := List.exists_cons_of_ne_nil (h hk)
    have hpass : c.stream.pass c.current = ⟨c.tokens, c.mark + 1⟩ := if_neg hk
    rw [hpass, advance, if_neg hk, ha]
    simp [stream, tokens, mark, ha]

theorem moveTo_stream (c : Cursor) (n : Nat) : c.stream.moveTo n = (c.moveTo n).stream := by
  have hpos : 0 < c.tokens.length := List.length_pos_iff.2 (by simp [tokens])
  have hlt : min n (c.tokens.length - 1) < c.tokens.length := by omega
  have hdrop := List.drop_eq_getElem_cons hlt
  have htokens : (c.moveTo n).tokens = c.tokens := by
    simp only [moveTo, hdrop]
    rw [tokens, List.reverse_reverse, ← hdrop, List.take_append_drop]
  have hmark : (c.moveTo n).mark = min n (c.tokens.length - 1) := by
    simp only [moveTo, hdrop]
    rw [mark, List.length_reverse, List.length_take_of_le (Nat.le_of_lt hlt)]
  have hto : (c.moveTo n).stream = ⟨c.tokens, min n (c.tokens.length - 1)⟩ := by
    rw [stream, htokens, hmark]
  rw [hto]
  rfl

theorem replace_stream (c : Cursor) (ts : List Token) :
    c.stream.replace ts = ⟨c.before.reverse ++ (ts ++ c.ahead), c.mark⟩ := by
  have htake : c.tokens.take c.mark = c.before.reverse := by
    rw [tokens, mark, ← List.length_reverse, List.take_left]
  have hdrop : c.tokens.drop (c.mark + 1) = c.ahead := by
    rw [tokens, mark, ← List.length_reverse, List.drop_append, List.drop_of_length_le (by omega)]
    simp
  simp only [Token.Stream.replace, stream, htake, hdrop]

theorem split_stream (first second : Kind)
    (h : c.current.value.toList.head?.all Text.isAscii = true) :
    (c.current.halves first second).map c.stream.replace = .ok (c.split first second).stream := by
  have hwhole : c.stream.replace [c.current] = c.stream := replace_stream c [c.current]
  cases hvalue : c.current.value.toList with
  | nil =>
    simp only [Token.halves, split, hvalue]
    exact congrArg Except.ok hwhole
  | cons a as =>
    rw [hvalue] at h
    have hascii : ¬ Text.isAscii a = false := by simpa using h
    simp only [Token.halves, split, hvalue, if_neg hascii]
    split
    · exact congrArg Except.ok hwhole
    · exact congrArg Except.ok (replace_stream c _)

/-- On a cursor and on its stream the operations give the same answers. -/
theorem step_stream (h : c.Secured) {op : Operation} (hfit : c.stream.fits op = true) :
    c.stream.step op = .ok ((c.apply op).1, (c.apply op).2.stream) := by
  have hcurrent := c.current_stream
  cases op with
  | current | kind | isOneOf kinds | hasMore => rw [Token.Stream.step, hcurrent]; rfl
  | peek n => rw [Token.Stream.step, peek_stream]; rfl
  | mark => rfl
  | moveTo n => rw [Token.Stream.step, moveTo_stream]; rfl
  | previous => rw [Token.Stream.step, previous_stream]; rfl
  | consume =>
    have hpass := c.pass_stream fun hk hnil => by
      obtain ⟨t, ts, ha⟩ := h.ahead_ne_nil hk
      rw [ha] at hnil
      cases hnil
    rw [Token.Stream.step, hcurrent, apply, ← hpass]
    rfl
  | split first second =>
    rw [Token.Stream.fits, hcurrent] at hfit
    have hsplit := c.split_stream first second hfit
    rw [Token.Stream.step, hcurrent]
    cases hhalves : c.current.halves first second with
    | error e =>
      rw [hhalves] at hsplit
      cases hsplit
    | ok ts =>
      rw [hhalves] at hsplit
      rw [apply, ← Except.ok.inj hsplit]
      exact congrArg (Except.map fun ts => (Answer.nothing, c.stream.replace ts)) hhalves

theorem Secured.sound (h : c.Secured) : c.stream.Sound := by
  refine ⟨?_, ?_⟩
  · rw [stream, tokens, List.getLast?_append, List.getLast?_cons]
    have hends := h.ends
    rw [List.getLast?_cons] at hends
    exact hends
  · simp [stream, tokens, mark]

/-- Wherever reading comes to, the stream is sound. -/
theorem stream_sound {tokens : List Token} (h : ∀ t ∈ tokens, t.Splittable) {d : Cursor}
    (hd : (ofTokens tokens).Leads d) : d.stream.Sound :=
  (hd.secured (ofTokens_secured h)).sound

end Cursor

end CatScript
