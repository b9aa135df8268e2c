import CatScript.Grammar.Program
import CatScript.Proofs.Grammar.Accepted
import CatScript.Proofs.Grammar.Locality
import CatScript.Proofs.Grammar.Relocation

/-!
# Reading does not depend on places

Offsets are carried from the tokens into spans and diagnostics. Reading looks at them in two places
only: a `>=` that is split ends its first half one byte behind its start, and the span of a node
stops with the token passed last, unless that one lies before the node.

So two streams of the same kinds and values are read alike, wherever their tokens stand. What they
have in common is said by two maps of offsets, `f` for the one stream and `g` for the other, under
which they become equal: `c.relocate f = d.relocate g`. The two steps above ask something of the
maps (`Compatible`), and then the trees become equal under the same maps. Forgetting all offsets is
one case (`forgotten`), and moving a stream as a whole is another (`shifted`).

Results:
* `expr_alike`, `header_alike`, `stmt_alike`, `statements_alike`: streams that are equal under
  compatible maps are read as trees that are equal under them.
* `Program.read_alike`: so are programs.
-/
namespace CatScript

open Token (Kind)

/-! ## Compatible maps -/

/-- The two maps agree on what reading computes from offsets on which they agree: the place behind
a byte, and where a node stops. -/
structure Compatible (f g : Nat → Nat) : Prop where
  next : ∀ {m n : Nat}, f m = g n → f (m + 1) = g (n + 1)
  stop : ∀ {last start stop last' start' stop' : Nat}, f last = g last' → f start = g start' →
    f stop = g stop' →
    f (if last < start then stop else last) = g (if last' < start' then stop' else last')

/-- All offsets are forgotten. -/
theorem Compatible.forgotten : Compatible (fun _ => 0) (fun _ => 0) :=
  ⟨fun _ => rfl, fun _ _ _ => rfl⟩

/-- The first stream is the second one, moved by `n` bytes. -/
theorem Compatible.shifted (n : Nat) : Compatible id (· + n) where
  next := by
    intro m m' h
    simp only [id_eq] at h ⊢
    omega
  stop := by
    intro last start stop last' start' stop' hlast hstart hstop
    simp only [id_eq] at hlast hstart hstop ⊢
    split <;> split <;> omega

variable {f g : Nat → Nat}

/-! ## Cursors -/

theorem Token.scan_ended (source file : String) :
    (scan source file).getLast?.map (·.kind) = some .eof := by
  obtain ⟨ts, e, hts, he, -⟩ := scanFrom_lexical file 0 source.toList
  rw [scan, hts, List.getLast?_concat, Option.map_some, he]

theorem Span.relocate_eq_iff {s t : Span} : s.relocate f = t.relocate g ↔
    s.file = t.file ∧ f s.start = g t.start ∧ f s.stop = g t.stop := by
  rw [relocate, relocate, Span.mk.injEq]

namespace Cursor

@[simp] theorem kind_relocate (c : Cursor) : (c.relocate f).kind = c.kind := rfl

theorem advance_relocate (c : Cursor) : (c.relocate f).advance = c.advance.relocate f := by
  unfold advance
  rw [kind_relocate]
  split
  · rfl
  · obtain ⟨before, t, ahead, torn⟩ := c
    cases ahead <;> rfl

theorem previous_relocate (c : Cursor) : (c.relocate f).previous = c.previous.relocate f := by
  obtain ⟨before, t, ahead, torn⟩ := c
  cases before <;> rfl

/-- What was found where a token was asked for, with its offsets mapped. -/
def Expected.relocate (f : Nat → Nat) (e : Expected) : Expected :=
  ⟨e.token.relocate f, e.errors.map (·.relocate f), e.rest.relocate f⟩

theorem expectOr_relocate (c : Cursor) (k : Kind) (cause : Cause) :
    (c.relocate f).expectOr k cause = (c.expectOr k cause).relocate f := by
  unfold expectOr
  rw [advance_relocate, kind_relocate]
  split <;> rfl

variable {c d : Cursor}

theorem kind_alike (h : c.relocate f = d.relocate g) : c.kind = d.kind := by
  rw [← kind_relocate (f := f), h, kind_relocate]

theorem current_alike (h : c.relocate f = d.relocate g) :
    c.current.relocate f = d.current.relocate g :=
  congrArg Cursor.current h

theorem advance_alike (h : c.relocate f = d.relocate g) :
    c.advance.relocate f = d.advance.relocate g := by
  rw [← advance_relocate, h, advance_relocate]

/-- Both cursors pass the token, or neither does. -/
theorem accept?_cases (k : Kind) (h : c.relocate f = d.relocate g) :
    (c.accept? k = none ∧ d.accept? k = none) ∨
      ∃ c' d', c.accept? k = some c' ∧ d.accept? k = some d' ∧ c'.relocate f = d'.relocate g := by
  unfold accept?
  rw [kind_alike h]
  split
  · exact .inr ⟨_, _, rfl, rfl, advance_alike h⟩
  · exact .inl ⟨rfl, rfl⟩

theorem expectOr_alike (k : Kind) (cause : Cause) (h : c.relocate f = d.relocate g) :
    (c.expectOr k cause).relocate f = (d.expectOr k cause).relocate g := by
  rw [← expectOr_relocate, h, expectOr_relocate]

theorem expect_alike (k : Kind) (h : c.relocate f = d.relocate g) :
    (c.expect k).relocate f = (d.expect k).relocate g := by
  have hvalue : c.current.value = d.current.value := congrArg (·.current.value) h
  unfold expect
  rw [hvalue]
  exact expectOr_alike k _ h

theorem terminated_of_ended {ts : List Token} (h : ts.getLast?.map (·.kind) = some .eof) :
    terminated ts = ts := by
  obtain ⟨last, hlast, hk⟩ := Option.map_eq_some_iff.1 h
  rw [terminated, hlast]
  exact if_pos hk

theorem ended_relocate (f : Nat → Nat) (ts : List Token) :
    (ts.map (·.relocate f)).getLast?.map (·.kind) = ts.getLast?.map (·.kind) := by
  rw [List.getLast?_map, Option.map_map]
  rfl

theorem ofTokens_alike {ts us : List Token} (hts : ts.getLast?.map (·.kind) = some .eof)
    (h : ts.map (·.relocate f) = us.map (·.relocate g)) :
    (ofTokens ts).relocate f = (ofTokens us).relocate g := by
  have hus : us.getLast?.map (·.kind) = some .eof := by
    rw [← ended_relocate g, ← h, ended_relocate f, hts]
  rw [ofTokens, ofTokens, terminated_of_ended hts, terminated_of_ended hus]
  cases ts with
  | nil => cases hts
  | cons t ts =>
    cases us with
    | nil => cases hus
    | cons u us =>
      obtain ⟨hcurrent, hahead⟩ := List.cons.inj h
      simp only [relocate, hcurrent, hahead, List.map_nil]

theorem spanFrom_alike {s t : Span} (hp : Compatible f g) (h : c.relocate f = d.relocate g)
    (hs : s.relocate f = t.relocate g) :
    (c.spanFrom s).relocate f = (d.spanFrom t).relocate g := by
  have hprevious : c.previous.relocate f = d.previous.relocate g := by
    rw [← previous_relocate, h, previous_relocate]
  have hfields (c : Cursor) (s : Span) : c.spanFrom s = ⟨s.file, s.start,
      if c.previous.span.stop < s.start then s.stop else c.previous.span.stop⟩ := by
    unfold spanFrom
    split <;> rfl
  obtain ⟨hfile, hstart, hstop⟩ := Span.relocate_eq_iff.1 hs
  have hlast : f c.previous.span.stop = g d.previous.span.stop :=
    congrArg (·.span.stop) hprevious
  rw [hfields, hfields]
  exact Span.relocate_eq_iff.2 ⟨hfile, hstart, hp.stop hlast hstart hstop⟩

theorem split_alike (hp : Compatible f g) (first second : Kind) (h : c.relocate f = d.relocate g) :
    (c.split first second).relocate f = (d.split first second).relocate g := by
  have hvalue : c.current.value = d.current.value := congrArg (·.current.value) h
  have hspan : c.current.span.relocate f = d.current.span.relocate g :=
    congrArg (·.current.span) h
  obtain ⟨hfile, hstart, hstop⟩ := Span.relocate_eq_iff.1 hspan
  have hnext := hp.next hstart
  obtain ⟨hbefore, hcurrent, hahead, htorn⟩ := (Cursor.mk.injEq ..).mp h
  unfold split
  rw [hvalue]
  split
  · exact h
  split
  · simp only [relocate, hbefore, hcurrent, hahead]
  split
  · exact h
  · simp only [relocate, List.map_cons, hbefore, hahead, htorn]
    simp only [Token.relocate, Span.relocate, hfile, hstart, hstop, hnext]

end Cursor

namespace Grammar

open Cursor

/-! ## Outcomes -/

namespace Outcome

variable {α β γ δ : Type}

/-- The outcome with its value and its offsets mapped. -/
def relocate (p : α → β) (f : Nat → Nat) : Outcome α → Outcome β
  | ok a r => ok (p a) (r.relocate f)
  | failed r => failed (r.relocate f)

theorem bind_alike {o o' : Outcome α} {p q : α → γ} {k k' : α → Cursor → Outcome β} {P Q : β → δ}
    (ho : o.relocate p f = o'.relocate q g)
    (hk : ∀ a r a' r', o = .ok a r → p a = q a' → r.relocate f = r'.relocate g →
      (k a r).relocate P f = (k' a' r').relocate Q g) :
    (o.bind k).relocate P f = (o'.bind k').relocate Q g := by
  cases o with
  | ok a r =>
    cases o' with
    | ok a' r' =>
      simp only [relocate, ok.injEq] at ho
      exact hk a r a' r' rfl ho.1 ho.2
    | failed r' => cases ho
  | failed r =>
    cases o' with
    | ok a' r' => cases ho
    | failed r' => exact congrArg failed (failed.inj ho)

theorem map_alike {o o' : Outcome α} {p q : α → γ} {k k' : α → β} {P Q : β → δ}
    (ho : o.relocate p f = o'.relocate q g) (hk : ∀ a a', p a = q a' → P (k a) = Q (k' a')) :
    (o.map k).relocate P f = (o'.map k').relocate Q g := by
  cases o with
  | ok a r =>
    cases o' with
    | ok a' r' =>
      simp only [relocate, ok.injEq] at ho
      simp only [map, relocate, hk a a' ho.1, ho.2]
    | failed r' => cases ho
  | failed r =>
    cases o' with
    | ok a' r' => cases ho
    | failed r' => exact congrArg failed (failed.inj ho)

end Outcome

/-! ## Nodes -/

theorem span_relocate (e : Expr) : (e.relocate f).span = e.span.relocate f := by
  rw [Expr.span, Expr.note_relocate]
  rfl

theorem exprSpan_alike {e e' : Expr} (h : e.relocate f = e'.relocate g) :
    e.span.relocate f = e'.span.relocate g := by
  rw [← span_relocate, h, span_relocate]

theorem between_alike {s t s' t' : Span} (hs : s.relocate f = s'.relocate g)
    (ht : t.relocate f = t'.relocate g) :
    (s.between t).relocate f = (s'.between t').relocate g := by
  obtain ⟨hfile, hstart, -⟩ := Span.relocate_eq_iff.1 hs
  obtain ⟨-, -, hstop⟩ := Span.relocate_eq_iff.1 ht
  exact Span.relocate_eq_iff.2 ⟨hfile, hstart, hstop⟩

theorem at_alike {s s' : Span} (cause : Cause) (hs : s.relocate f = s'.relocate g) :
    (cause.at s).relocate f = (cause.at s').relocate g := by
  obtain ⟨hfile, hstart, -⟩ := Span.relocate_eq_iff.1 hs
  simp only [Cause.at, Diagnostic.relocate, hfile, hstart]

theorem note_alike {s s' : Span} {ds ds' : List Diagnostic} (hs : s.relocate f = s'.relocate g)
    (hd : ds.map (·.relocate f) = ds'.map (·.relocate g)) :
    (Expr.Note.fresh s ds).relocate f = (Expr.Note.fresh s' ds').relocate g := by
  simp only [Expr.Note.fresh, Expr.Note.relocate, hs, hd]

theorem blank_alike {s s' : Span} (hs : s.relocate f = s'.relocate g) :
    (Expr.Note.fresh s []).relocate f = (Expr.Note.fresh s' []).relocate g :=
  note_alike hs rfl

section

variable {t t' : Token} (ht : t.relocate f = t'.relocate g)

include ht

theorem tokenSpan_alike : t.span.relocate f = t'.span.relocate g := congrArg Token.span ht

theorem tokenValue_alike : t.value = t'.value := by
  have : (t.relocate f).value = (t'.relocate g).value := congrArg Token.value ht
  exact this

theorem tokenKind_alike : t.kind = t'.kind := by
  have : (t.relocate f).kind = (t'.relocate g).kind := congrArg Token.kind ht
  exact this

theorem integerLiteral_alike :
    (integerLiteral t).relocate f = (integerLiteral t').relocate g := by
  have hspan := tokenSpan_alike ht
  have hvalue := tokenValue_alike ht
  unfold integerLiteral
  rw [hvalue]
  split
  · simp only [Expr.relocate, blank_alike hspan]
  · have herror := at_alike (.invalidInteger t'.value) hspan
    simp only [Expr.relocate, Expr.Note.relocate, Expr.Note.fresh, List.map_cons, List.map_nil,
      herror, hspan]

theorem unexpected_alike : t.unexpected.relocate f = t'.unexpected.relocate g := by
  unfold Token.unexpected
  rw [tokenKind_alike ht, tokenValue_alike ht]
  split <;> exact at_alike _ (tokenSpan_alike ht)

theorem ofUnexpected_alike :
    (Stmt.ofUnexpected t).relocate f = (Stmt.ofUnexpected t').relocate g := by
  simp only [Stmt.ofUnexpected, Stmt.relocate, Stmt.Note.relocate, List.map_cons, List.map_nil,
    unexpected_alike ht, tokenSpan_alike ht, ht]

theorem unaryNode_alike (op : UnaryOp) {e e' : Expr} (he : e.relocate f = e'.relocate g) :
    (unaryNode t op e).relocate f = (unaryNode t' op e').relocate g := by
  have hspan := between_alike (tokenSpan_alike ht) (exprSpan_alike he)
  simp only [unaryNode, Expr.relocate, he, blank_alike hspan]

end

theorem binaryNode_alike (op : BinaryOp) {l l' r r' : Expr} (hl : l.relocate f = l'.relocate g)
    (hr : r.relocate f = r'.relocate g) :
    (binaryNode op l r).relocate f = (binaryNode op l' r').relocate g := by
  have hspan := between_alike (exprSpan_alike hl) (exprSpan_alike hr)
  simp only [binaryNode, Expr.relocate, hl, hr, blank_alike hspan]

theorem close_alike (hp : Compatible f g) {t t' : Token} {closing : Kind} {cause : Cause}
    {build build' : Expr.Note → Expr} {c d : Cursor} (ht : t.relocate f = t'.relocate g)
    (hbuild : ∀ n n', n.relocate f = n'.relocate g →
      (build n).relocate f = (build' n').relocate g)
    (h : c.relocate f = d.relocate g) :
    (close t closing cause build c).relocate (Expr.relocate f) f =
      (close t' closing cause build' d).relocate (Expr.relocate g) g := by
  obtain ⟨-, herrors, hrest⟩ := (Expected.mk.injEq ..).mp (expectOr_alike closing cause h)
  have hnote := note_alike (spanFrom_alike hp hrest (tokenSpan_alike ht)) herrors
  simp only [close, Outcome.relocate, hbuild _ _ hnote, hrest]

/-! ## Expressions -/

mutual

theorem binary_alike (hp : Compatible f g) {level : Level} {c d : Cursor}
    (h : c.relocate f = d.relocate g) :
    (binary level c).relocate (Expr.relocate f) f =
      (binary level d).relocate (Expr.relocate g) g := by
  by_cases hl : level.isBinary = true
  · rw [binary_of_isBinary hl, binary_of_isBinary hl]
    have ht : (binary level.tighter c).relocate (Expr.relocate f) f =
        (binary level.tighter d).relocate (Expr.relocate g) g := binary_alike hp h
    refine Outcome.bind_alike ht fun left r left' r' hr hleft hrest => ?_
    have hw := binary_ok_lt hr
    exact chain_alike hp hleft hrest
  · rw [binary_of_not_isBinary (by simpa using hl), binary_of_not_isBinary (by simpa using hl)]
    exact unary_alike hp h
termination_by 16 * c.weight + level.height + 3
decreasing_by
  · have := Level.height_tighter hl; omega
  · have := Level.height_le level; omega
  · omega

theorem chain_alike (hp : Compatible f g) {level : Level} {left left' : Expr} {c d : Cursor}
    (hleft : left.relocate f = left'.relocate g) (h : c.relocate f = d.relocate g) :
    (chain level left c).relocate (Expr.relocate f) f =
      (chain level left' d).relocate (Expr.relocate g) g := by
  have hsame : operatorAt? level d = operatorAt? level c := by
    rw [operatorAt?, operatorAt?, kind_alike h]
  rw [chain_eq level left c, chain_eq level left' d, hsame]
  cases hop : operatorAt? level c with
  | none => simp only [Outcome.relocate, hleft, h]
  | some op =>
    have hlt := c.weight_advance_lt (kind_ne_eof_of_operatorAt? hop)
    have hnext : (binary level.tighter c.advance).relocate (Expr.relocate f) f =
        (binary level.tighter d.advance).relocate (Expr.relocate g) g :=
      binary_alike hp (advance_alike h)
    refine Outcome.bind_alike hnext fun right r right' r' hr hright hrest => ?_
    have hw := binary_ok_lt hr
    exact chain_alike hp (binaryNode_alike op hleft hright) hrest
termination_by 16 * c.weight
decreasing_by
  · have := Level.height_le level.tighter; omega
  · omega

theorem unary_alike (hp : Compatible f g) {c d : Cursor} (h : c.relocate f = d.relocate g) :
    (unary c).relocate (Expr.relocate f) f = (unary d).relocate (Expr.relocate g) g := by
  rw [unary_eq c, unary_eq d, kind_alike h]
  cases hop : UnaryOp.ofKind? d.kind with
  | none => exact primary_alike hp h
  | some op =>
    have hlt := c.weight_advance_lt (kind_ne_eof_of_unaryOp (kind_alike h ▸ hop))
    exact Outcome.map_alike (unary_alike hp (advance_alike h)) fun e e' he =>
      unaryNode_alike (current_alike h) op he
termination_by 16 * c.weight + 2

theorem primary_alike (hp : Compatible f g) {c d : Cursor} (h : c.relocate f = d.relocate g) :
    (primary c).relocate (Expr.relocate f) f = (primary d).relocate (Expr.relocate g) g := by
  have hkind := kind_alike h
  by_cases hk : c.kind = .eof
  · rw [primary_eq, primary_eq, ← hkind, hk]
    exact congrArg Outcome.failed h
  have hlt := c.weight_advance_lt hk
  have hlt2 := Nat.lt_of_le_of_lt c.advance.weight_advance_le hlt
  have hcurrent := current_alike h
  have hnext := advance_alike h
  have hvalue := tokenValue_alike hcurrent
  have hleaf := blank_alike (tokenSpan_alike hcurrent)
  rw [primary_eq, primary_eq, hkind, kind_alike hnext]
  split
  · simp only [Outcome.relocate, integerLiteral_alike hcurrent, hnext]
  · simp only [Outcome.relocate, Expr.relocate, hleaf, hvalue, hnext]
  · simp only [Outcome.relocate, Expr.relocate, hleaf, hnext]
  · simp only [Outcome.relocate, Expr.relocate, hleaf, hnext]
  · simp only [Outcome.relocate, Expr.relocate, hleaf, hnext]
  · split
    · exact callRest_alike hp hcurrent (advance_alike hnext)
    · simp only [Outcome.relocate, Expr.relocate, hleaf, hvalue, hnext]
  · exact listRest_alike hp hcurrent hnext
  · exact groupRest_alike hp hcurrent hnext
  · exact congrArg Outcome.failed h
termination_by 16 * c.weight + 1

theorem callRest_alike (hp : Compatible f g) {t t' : Token} {c d : Cursor}
    (ht : t.relocate f = t'.relocate g) (h : c.relocate f = d.relocate g) :
    (callRest t c).relocate (Expr.relocate f) f = (callRest t' d).relocate (Expr.relocate g) g := by
  rw [callRest_eq, callRest_eq]
  refine Outcome.bind_alike (items_alike hp h) fun args r args' r' _ hargs hrest => ?_
  refine close_alike hp ht (fun n n' hn => ?_) hrest
  simp only [Expr.relocate, hn, hargs, tokenValue_alike ht]
termination_by 16 * c.weight + 12

theorem listRest_alike (hp : Compatible f g) {t t' : Token} {c d : Cursor}
    (ht : t.relocate f = t'.relocate g) (h : c.relocate f = d.relocate g) :
    (listRest t c).relocate (Expr.relocate f) f = (listRest t' d).relocate (Expr.relocate g) g := by
  rw [listRest_eq, listRest_eq]
  refine Outcome.bind_alike (items_alike hp h) fun es r es' r' _ hes hrest => ?_
  refine close_alike hp ht (fun n n' hn => ?_) hrest
  simp only [Expr.relocate, hn, hes]
termination_by 16 * c.weight + 12

theorem groupRest_alike (hp : Compatible f g) {t t' : Token} {c d : Cursor}
    (ht : t.relocate f = t'.relocate g) (h : c.relocate f = d.relocate g) :
    (groupRest t c).relocate (Expr.relocate f) f =
      (groupRest t' d).relocate (Expr.relocate g) g := by
  rw [groupRest_eq, groupRest_eq]
  have he : (expr c).relocate (Expr.relocate f) f = (expr d).relocate (Expr.relocate g) g :=
    binary_alike hp h
  refine Outcome.bind_alike he fun inner r inner' r' _ hinner hrest => ?_
  refine close_alike hp ht (fun n n' hn => ?_) hrest
  simp only [Expr.relocate, hn, hinner]
termination_by 16 * c.weight + 12
decreasing_by simp only [Level.height]; omega

theorem items_alike (hp : Compatible f g) {closing : Kind} {c d : Cursor}
    (h : c.relocate f = d.relocate g) :
    (items closing c).relocate (Expr.relocateAll f) f =
      (items closing d).relocate (Expr.relocateAll g) g := by
  rw [items_eq, items_eq, kind_alike h]
  split
  · exact congrArg (Outcome.ok []) h
  · exact seq_alike hp h
termination_by 16 * c.weight + 11

theorem seq_alike (hp : Compatible f g) {c d : Cursor} (h : c.relocate f = d.relocate g) :
    (seq c).relocate (Expr.relocateAll f) f = (seq d).relocate (Expr.relocateAll g) g := by
  rw [seq_eq c, seq_eq d]
  have he : (expr c).relocate (Expr.relocate f) f = (expr d).relocate (Expr.relocate g) g :=
    binary_alike hp h
  refine Outcome.bind_alike he fun e r e' r' hr hhead hrest => ?_
  have hw := expr_ok_lt hr
  rcases accept?_cases .comma hrest with ⟨hc, hd⟩ | ⟨c', d', hc, hd, hcomma⟩
  · simp only [hc, hd, Outcome.relocate, Expr.relocateAll, hhead, hrest]
  · have hlt := Cursor.weight_accept?_lt (by decide) hc
    rw [hc, hd]
    refine Outcome.map_alike (seq_alike hp hcomma) fun es es' hes => ?_
    simp only [Expr.relocateAll, hhead, hes]
termination_by 16 * c.weight + 10
decreasing_by
  · simp only [Level.height]; omega
  · omega

end

theorem expr_alike (hp : Compatible f g) {c d : Cursor} (h : c.relocate f = d.relocate g) :
    (expr c).relocate (Expr.relocate f) f = (expr d).relocate (Expr.relocate g) g :=
  binary_alike hp h

/-! ## Types and headers -/

theorem splitGreater_alike (hp : Compatible f g) {c d : Cursor} (h : c.relocate f = d.relocate g) :
    (splitGreater c).relocate f = (splitGreater d).relocate g := by
  unfold splitGreater
  rw [kind_alike h]
  split
  · exact split_alike hp _ _ h
  · exact h

theorem typeName_alike (hp : Compatible f g) {c d : Cursor} (h : c.relocate f = d.relocate g) :
    (typeName c).1.relocate f = (typeName d).1.relocate g ∧
      (typeName c).2.relocate f = (typeName d).2.relocate g := by
  have hspan := tokenSpan_alike (current_alike h)
  have hvalue := tokenValue_alike (current_alike h)
  have hnext := advance_alike h
  have hwhole := spanFrom_alike hp hnext hspan
  have herror := at_alike (.badTypeName d.current.value) hspan
  by_cases hk : c.kind = .identifier
  · have hk' : d.kind = .identifier := kind_alike h ▸ hk
    by_cases hn : c.current.value = "list"
    · have hn' : d.current.value = "list" := hvalue ▸ hn
      rcases accept?_cases .less hnext with ⟨hc, hd⟩ | ⟨c', d', hc, hd, hinner⟩
      · rw [typeName_of_bare hk hn hc, typeName_of_bare hk' hn' hd]
        exact ⟨by simp only [TypeName.relocate, hwhole, List.map_nil], hnext⟩
      · have hlt := c.weight_advance_lt (by rw [hk]; decide)
        have hw := Cursor.weight_accept?_lt (by decide) hc
        obtain ⟨helement, hrest⟩ := typeName_alike hp hinner
        obtain ⟨hty, -, herrors⟩ := (TypeName.mk.injEq ..).mp helement
        obtain ⟨-, hclose, hafter⟩ :=
          (Expected.mk.injEq ..).mp (expect_alike .greater (splitGreater_alike hp hrest))
        rw [typeName_of_list hk hn hc, typeName_of_list hk' hn' hd]
        refine ⟨?_, hafter⟩
        simp only [TypeName.relocate, List.map_append, hty, herrors, hclose,
          spanFrom_alike hp hafter hspan]
    · have hn' : d.current.value ≠ "list" := hvalue ▸ hn
      cases ht : simpleType? c.current.value with
      | some t =>
        rw [typeName_of_simple hk hn ht, typeName_of_simple hk' hn' (hvalue ▸ ht)]
        exact ⟨by simp only [TypeName.relocate, hwhole, List.map_nil], hnext⟩
      | none =>
        rw [typeName_of_unknown hk hn ht, typeName_of_unknown hk' hn' (hvalue ▸ ht), hvalue]
        exact ⟨by simp only [TypeName.relocate, hwhole, herror, List.map_cons, List.map_nil], hnext⟩
  · have hk' : d.kind ≠ .identifier := kind_alike h ▸ hk
    rw [typeName_of_missing hk, typeName_of_missing hk', hvalue]
    exact ⟨by simp only [TypeName.relocate, hspan, herror, List.map_cons, List.map_nil], h⟩
termination_by c.weight

theorem declaredType_alike (hp : Compatible f g) {c d : Cursor} (h : c.relocate f = d.relocate g) :
    (declaredType c).1.map (·.relocate f) = (declaredType d).1.map (·.relocate g) ∧
      (declaredType c).2.relocate f = (declaredType d).2.relocate g := by
  unfold declaredType
  rcases accept?_cases .colon h with ⟨hc, hd⟩ | ⟨c', d', hc, hd, htype⟩
  · rw [hc, hd]
    exact ⟨rfl, h⟩
  · obtain ⟨hty, hrest⟩ := typeName_alike hp htype
    rw [hc, hd]
    exact ⟨congrArg some hty, hrest⟩

theorem params_alike (hp : Compatible f g) {c d : Cursor} (h : c.relocate f = d.relocate g) :
    (params c).1.map (·.relocate f) = (params d).1.map (·.relocate g) ∧
      (params c).2.relocate f = (params d).2.relocate g := by
  by_cases hk : c.kind = .identifier
  · have hk' : d.kind = .identifier := kind_alike h ▸ hk
    have hvalue := tokenValue_alike (current_alike h)
    obtain ⟨hty, hrest⟩ := declaredType_alike hp (advance_alike h)
    have hparam : Param.relocate f ⟨c.current.value, (declaredType c.advance).1⟩ =
        Param.relocate g ⟨d.current.value, (declaredType d.advance).1⟩ := by
      simp only [Param.relocate, hvalue, hty]
    rcases accept?_cases .comma hrest with ⟨hc, hd⟩ | ⟨c', d', hc, hd, hcomma⟩
    · rw [params_of_last hk hc, params_of_last hk' hd]
      exact ⟨congrArg (fun p => [p]) hparam, hrest⟩
    · have h₁ := c.weight_advance_lt (by rw [hk]; decide)
      have h₂ := weight_declaredType_le c.advance
      have h₃ := Cursor.weight_accept?_lt (by decide) hc
      obtain ⟨hmore, hlast⟩ := params_alike hp hcomma
      rw [params_of_more hk hc, params_of_more hk' hd]
      exact ⟨congrArg₂ List.cons hparam hmore, hlast⟩
  · have hk' : ¬ d.kind = .identifier := kind_alike h ▸ hk
    rw [params, dif_neg hk, params, dif_neg hk']
    exact ⟨rfl, h⟩
termination_by c.weight

/-- The header read, with its offsets mapped. -/
def HeaderRead.relocate (f : Nat → Nat) (h : HeaderRead) : HeaderRead :=
  ⟨h.header.relocate f, h.errors.map (·.relocate f), h.rest.relocate f⟩

theorem header_alike (hp : Compatible f g) {c d : Cursor} (h : c.relocate f = d.relocate g) :
    (header c).relocate f = (header d).relocate g := by
  obtain ⟨hname, herrors₁, h₁⟩ := (Expected.mk.injEq ..).mp (expect_alike .identifier h)
  obtain ⟨-, herrors₂, h₂⟩ := (Expected.mk.injEq ..).mp (expect_alike .leftParen h₁)
  obtain ⟨hparams, h₃⟩ := params_alike hp h₂
  obtain ⟨-, herrors₃, h₄⟩ := (Expected.mk.injEq ..).mp (expect_alike .rightParen h₃)
  obtain ⟨hresult, h₅⟩ := declaredType_alike hp h₄
  simp only [header, HeaderRead.relocate, Header.relocate, List.map_append, tokenValue_alike hname,
    hparams, hresult, herrors₁, herrors₂, herrors₃, h₅]

/-! ## Statements -/

section

variable {t t' : Token} {c d : Cursor} (hp : Compatible f g) (ht : t.relocate f = t'.relocate g)
  (h : c.relocate f = d.relocate g)

include hp ht h

theorem printRest_alike : (printRest t c).relocate (Stmt.relocate f) f =
    (printRest t' d).relocate (Stmt.relocate g) g := by
  obtain ⟨-, herrors₁, h₁⟩ := (Expected.mk.injEq ..).mp (expect_alike .leftParen h)
  unfold printRest
  refine Outcome.bind_alike (expr_alike hp h₁) fun e r e' r' _ he hr => ?_
  obtain ⟨-, herrors₂, h₂⟩ := (Expected.mk.injEq ..).mp (expect_alike .rightParen hr)
  have hspan := spanFrom_alike hp h₂ (tokenSpan_alike ht)
  simp only [Outcome.relocate, Stmt.relocate, Stmt.Note.relocate, List.map_append, herrors₁,
    herrors₂, hspan, he, h₂]

theorem declareRest_alike : (declareRest t c).relocate (Stmt.relocate f) f =
    (declareRest t' d).relocate (Stmt.relocate g) g := by
  obtain ⟨hname, herrors₁, h₁⟩ := (Expected.mk.injEq ..).mp (expect_alike .identifier h)
  obtain ⟨hty, h₂⟩ := declaredType_alike hp h₁
  obtain ⟨-, herrors₂, h₃⟩ := (Expected.mk.injEq ..).mp (expect_alike .equal h₂)
  unfold declareRest
  dsimp only
  refine Outcome.bind_alike (expr_alike hp h₃) fun e r e' r' _ he hr => ?_
  have hspan := spanFrom_alike hp hr (tokenSpan_alike ht)
  simp only [Outcome.relocate, Stmt.relocate, Stmt.Note.relocate, List.map_append, herrors₁,
    herrors₂, hspan, he, hr, hty, tokenValue_alike hname]

theorem nameRest_alike : (nameRest t c).relocate (Stmt.relocate f) f =
    (nameRest t' d).relocate (Stmt.relocate g) g := by
  have hnext := advance_alike h
  unfold nameRest
  rw [kind_alike h]
  split
  · refine Outcome.map_alike (callRest_alike hp ht hnext) fun e e' he => ?_
    simp only [Stmt.relocate, Stmt.Note.relocate, exprSpan_alike he, he, List.map_nil]
  · refine Outcome.bind_alike (expr_alike hp hnext) fun e r e' r' _ he hr => ?_
    have hspan := spanFrom_alike hp hr (tokenSpan_alike ht)
    simp only [Outcome.relocate, Stmt.relocate, Stmt.Note.relocate, hspan, he, hr, List.map_nil,
      tokenValue_alike ht]
  · simp only [Outcome.relocate, ofUnexpected_alike ht, h]

theorem returnRest_alike : (returnRest t c).relocate (Stmt.relocate f) f =
    (returnRest t' d).relocate (Stmt.relocate g) g := by
  unfold returnRest
  rw [isOneOf, isOneOf, kind_alike h]
  split
  · refine Outcome.bind_alike (expr_alike hp h) fun e r e' r' _ he hr => ?_
    have hspan := spanFrom_alike hp hr (tokenSpan_alike ht)
    simp only [Outcome.relocate, Stmt.relocate, Stmt.Note.relocate, hspan, he, hr, List.map_nil,
      Option.map_some]
  · have hspan := spanFrom_alike hp h (tokenSpan_alike ht)
    simp only [Outcome.relocate, Stmt.relocate, Stmt.Note.relocate, hspan, h, List.map_nil,
      Option.map_none]

end

theorem resume_alike {c d : Cursor} (h : c.relocate f = d.relocate g) :
    (resume c).relocate f = (resume d).relocate g := by
  by_cases hk : c.kind = .eof ∨ c.kind ∈ resumeKinds
  · rw [resume, dif_pos hk, resume, dif_pos (kind_alike h ▸ hk)]
    exact h
  · have hlt := c.weight_advance_lt fun heof => hk (.inl heof)
    have hk' : ¬ (d.kind = .eof ∨ d.kind ∈ resumeKinds) := kind_alike h ▸ hk
    rw [resume.eq_1 c, dif_neg hk, resume.eq_1 d, dif_neg hk']
    exact resume_alike (advance_alike h)
termination_by c.weight

theorem settle_alike {o o' : Outcome Stmt}
    (h : o.relocate (Stmt.relocate f) f = o'.relocate (Stmt.relocate g) g) :
    (settle o).1.relocate f = (settle o').1.relocate g ∧
      (settle o).2.relocate f = (settle o').2.relocate g := by
  cases o with
  | ok s r =>
    cases o' with
    | ok s' r' => exact ⟨(Outcome.ok.inj h).1, (Outcome.ok.inj h).2⟩
    | failed r' => cases h
  | failed r =>
    cases o' with
    | ok s' r' => cases h
    | failed r' =>
      have hr := Outcome.failed.inj h
      exact ⟨ofUnexpected_alike (current_alike hr), resume_alike hr⟩

/-- The body read, with its offsets mapped. -/
def BodyRead.relocate (f : Nat → Nat) (b : BodyRead) : BodyRead :=
  ⟨Stmt.relocateAll f b.body, b.errors.map (·.relocate f), b.rest.relocate f⟩

mutual

theorem stmtRest_alike (hp : Compatible f g) {b : Bool} {t t' : Token} {c d : Cursor}
    (ht : t.relocate f = t'.relocate g) (h : c.relocate f = d.relocate g) :
    (stmtRest b t c).relocate (Stmt.relocate f) f =
      (stmtRest b t' d).relocate (Stmt.relocate g) g := by
  have hinvalid : (Outcome.ok (.ofUnexpected t) c).relocate (Stmt.relocate f) f =
      (Outcome.ok (.ofUnexpected t') d).relocate (Stmt.relocate g) g := by
    simp only [Outcome.relocate, ofUnexpected_alike ht, h]
  rw [stmtRest_eq, stmtRest_eq, tokenKind_alike ht]
  split
  · exact printRest_alike hp ht h
  · exact declareRest_alike hp ht h
  · exact nameRest_alike hp ht h
  · exact forRest_alike hp ht h
  · exact condRest_alike hp ht h
  · exact defineRest_alike hp ht h
  · cases b with
    | true => exact returnRest_alike hp ht h
    | false => exact hinvalid
  · exact hinvalid
termination_by 4 * c.weight + 3

theorem forRest_alike (hp : Compatible f g) {b : Bool} {t t' : Token} {c d : Cursor}
    (ht : t.relocate f = t'.relocate g) (h : c.relocate f = d.relocate g) :
    (forRest b t c).relocate (Stmt.relocate f) f =
      (forRest b t' d).relocate (Stmt.relocate g) g := by
  have hw₁ := c.weight_expect_le .leftParen
  have hw₂ := (c.expect .leftParen).rest.weight_expect_le .identifier
  have hw₃ := ((c.expect .leftParen).rest.expect .identifier).rest.weight_expect_le .kwIn
  obtain ⟨-, herrors₁, h₁⟩ := (Expected.mk.injEq ..).mp (expect_alike .leftParen h)
  obtain ⟨hname, herrors₂, h₂⟩ := (Expected.mk.injEq ..).mp (expect_alike .identifier h₁)
  obtain ⟨-, herrors₃, h₃⟩ := (Expected.mk.injEq ..).mp (expect_alike .kwIn h₂)
  rw [forRest_eq, forRest_eq]
  refine Outcome.bind_alike (expr_alike hp h₃) fun e r e' r' hread he hr => ?_
  have hw := expr_ok_lt hread
  have hw₄ := r.weight_expect_le .rightParen
  obtain ⟨-, herrors₄, h₄⟩ := (Expected.mk.injEq ..).mp (expect_alike .rightParen hr)
  obtain ⟨hbody, herrors₅, h₅⟩ := (BodyRead.mk.injEq ..).mp (body_alike hp (b := b) h₄)
  have hspan := spanFrom_alike hp h₅ (tokenSpan_alike ht)
  simp only [Outcome.relocate, Stmt.relocate, Stmt.Note.relocate, List.map_append, herrors₁,
    herrors₂, herrors₃, herrors₄, herrors₅, hspan, he, hbody, h₅, tokenValue_alike hname]
termination_by 4 * c.weight + 2

theorem condRest_alike (hp : Compatible f g) {b : Bool} {t t' : Token} {c d : Cursor}
    (ht : t.relocate f = t'.relocate g) (h : c.relocate f = d.relocate g) :
    (condRest b t c).relocate (Stmt.relocate f) f =
      (condRest b t' d).relocate (Stmt.relocate g) g := by
  have hw₁ := c.weight_expect_le .leftParen
  obtain ⟨-, herrors₁, h₁⟩ := (Expected.mk.injEq ..).mp (expect_alike .leftParen h)
  rw [condRest_eq, condRest_eq]
  refine Outcome.bind_alike (expr_alike hp h₁) fun e r e' r' hread he hr => ?_
  have hw := expr_ok_lt hread
  have hw₂ := r.weight_expect_le .rightParen
  have hw₃ := weight_body_le b (r.expect .rightParen).rest
  obtain ⟨-, herrors₂, h₂⟩ := (Expected.mk.injEq ..).mp (expect_alike .rightParen hr)
  obtain ⟨hyes, herrors₃, h₃⟩ := (BodyRead.mk.injEq ..).mp (body_alike hp (b := b) h₂)
  rcases accept?_cases .kwElse h₃ with ⟨hc, hd⟩ | ⟨c', d', hc, hd, helse⟩
  · have hspan := spanFrom_alike hp h₃ (tokenSpan_alike ht)
    simp only [hc, hd, Outcome.relocate, Stmt.relocate, Stmt.Note.relocate, List.map_append,
      herrors₁, herrors₂, herrors₃, hspan, he, hyes, h₃]
  have hw₄ := Cursor.weight_accept?_lt (by decide) hc
  by_cases hif : c'.kind = .kwIf
  · have hif' : d'.kind = .kwIf := kind_alike helse ▸ hif
    have hlt := c'.weight_advance_lt (by rw [hif]; decide)
    obtain ⟨hno, h₄⟩ := settle_alike
      (stmtRest_alike hp (b := b) (current_alike helse) (advance_alike helse))
    have hspan := spanFrom_alike hp h₄ (tokenSpan_alike ht)
    simp only [hc, hd, if_pos hif, if_pos hif', stmt, Outcome.relocate, Stmt.relocate,
      Stmt.relocateAll, Stmt.Note.relocate, List.map_append, herrors₁, herrors₂, herrors₃, hspan, he,
      hyes, hno, h₄]
  · have hif' : ¬ d'.kind = .kwIf := kind_alike helse ▸ hif
    obtain ⟨hno, herrors₄, h₄⟩ := (BodyRead.mk.injEq ..).mp (body_alike hp (b := b) helse)
    have hspan := spanFrom_alike hp h₄ (tokenSpan_alike ht)
    simp only [hc, hd, if_neg hif, if_neg hif', Outcome.relocate, Stmt.relocate,
      Stmt.Note.relocate, List.map_append, herrors₁, herrors₂, herrors₃, herrors₄, hspan, he, hyes,
      hno, h₄]
termination_by 4 * c.weight + 2

theorem defineRest_alike (hp : Compatible f g) {t t' : Token} {c d : Cursor}
    (ht : t.relocate f = t'.relocate g) (h : c.relocate f = d.relocate g) :
    (defineRest t c).relocate (Stmt.relocate f) f =
      (defineRest t' d).relocate (Stmt.relocate g) g := by
  have hw := weight_header_le c
  obtain ⟨hheader, herrors₁, h₁⟩ := (HeaderRead.mk.injEq ..).mp (header_alike hp h)
  obtain ⟨hbody, herrors₂, h₂⟩ := (BodyRead.mk.injEq ..).mp (body_alike hp (b := true) h₁)
  have hspan := spanFrom_alike hp h₂ (tokenSpan_alike ht)
  rw [defineRest_eq, defineRest_eq]
  simp only [Outcome.relocate, Stmt.relocate, Stmt.Note.relocate, List.map_append, herrors₁,
    herrors₂, hspan, hheader, hbody, h₂]
termination_by 4 * c.weight + 2

theorem body_alike (hp : Compatible f g) {b : Bool} {c d : Cursor}
    (h : c.relocate f = d.relocate g) : (body b c).relocate f = (body b d).relocate g := by
  have hw := c.weight_expect_le .leftBrace
  obtain ⟨-, herrors₁, h₁⟩ := (Expected.mk.injEq ..).mp (expect_alike .leftBrace h)
  obtain ⟨hbody, h₂⟩ := block_alike hp (b := b) h₁
  obtain ⟨-, herrors₂, h₃⟩ :=
    (Expected.mk.injEq ..).mp (expectOr_alike .rightBrace .unterminatedBody h₂)
  rw [body_eq b c, body_eq b d]
  simp only [BodyRead.relocate, List.map_append, herrors₁, herrors₂, hbody, h₃]
termination_by 4 * c.weight + 1

theorem block_alike (hp : Compatible f g) {b : Bool} {c d : Cursor}
    (h : c.relocate f = d.relocate g) :
    Stmt.relocateAll f (block b c).1 = Stmt.relocateAll g (block b d).1 ∧
      (block b c).2.relocate f = (block b d).2.relocate g := by
  rw [block_eq b c, block_eq b d]
  by_cases hk : c.kind = .eof ∨ c.kind = .rightBrace
  · rw [if_pos hk, if_pos (kind_alike h ▸ hk)]
    exact ⟨rfl, h⟩
  · have heof : c.kind ≠ .eof := fun e => hk (.inl e)
    have hlt := c.weight_advance_lt heof
    have hw := weight_stmt_lt b heof
    rw [if_neg hk, if_neg (kind_alike h ▸ hk)]
    obtain ⟨hs, h₁⟩ := settle_alike
      (stmtRest_alike hp (b := b) (current_alike h) (advance_alike h))
    obtain ⟨hmore, h₂⟩ := block_alike hp (b := b) (c := (stmt b c).2) (d := (stmt b d).2) h₁
    exact ⟨congrArg₂ List.cons hs hmore, h₂⟩
termination_by 4 * c.weight

end

theorem stmt_alike (hp : Compatible f g) {b : Bool} {c d : Cursor} (h : c.relocate f = d.relocate g) :
    (stmt b c).1.relocate f = (stmt b d).1.relocate g ∧
      (stmt b c).2.relocate f = (stmt b d).2.relocate g :=
  settle_alike (stmtRest_alike hp (current_alike h) (advance_alike h))

theorem statements_alike (hp : Compatible f g) {c d : Cursor} (h : c.relocate f = d.relocate g) :
    Stmt.relocateAll f (statements c).1 = Stmt.relocateAll g (statements d).1 ∧
      (statements c).2.relocate f = (statements d).2.relocate g := by
  by_cases hk : c.kind = .eof
  · rw [statements, dif_pos hk, statements, dif_pos (kind_alike h ▸ hk)]
    exact ⟨rfl, h⟩
  · have hw := weight_stmt_lt false hk
    obtain ⟨hs, h₁⟩ := stmt_alike hp (b := false) h
    obtain ⟨hmore, h₂⟩ := statements_alike hp h₁
    rw [statements, dif_neg hk, statements, dif_neg (kind_alike h ▸ hk)]
    exact ⟨congrArg₂ List.cons hs hmore, h₂⟩
termination_by c.weight

end Grammar

namespace Program

open Cursor Grammar

theorem readStatements_alike (hp : Compatible f g) {c d : Cursor} (h : c.relocate f = d.relocate g) :
    (readStatements c).1.relocate f = (readStatements d).1.relocate g := by
  obtain ⟨hs, hrest⟩ := statements_alike hp h
  have hspan := between_alike (tokenSpan_alike (current_alike h))
    (tokenSpan_alike (current_alike hrest))
  simp only [readStatements, relocate, Body.relocate, hs, hspan]

theorem read_alike (hp : Compatible f g) {c d : Cursor} (h : c.relocate f = d.relocate g) :
    (read c).1.relocate f = (read d).1.relocate g := by
  have he := expr_alike hp h
  unfold read
  cases hc : expr c with
  | failed r =>
    cases hd : expr d with
    | failed r' => exact readStatements_alike hp h
    | ok e' r' =>
      rw [hc, hd] at he
      cases he
  | ok e r =>
    cases hd : expr d with
    | failed r' =>
      rw [hc, hd] at he
      cases he
    | ok e' r' =>
      rw [hc, hd] at he
      obtain ⟨htree, hrest⟩ := Outcome.ok.inj he
      have hmore : r.hasMore = r'.hasMore := by
        rw [hasMore, hasMore, kind_alike hrest]
      have hspan := between_alike (tokenSpan_alike (current_alike h)) (exprSpan_alike htree)
      dsimp only
      rw [hmore]
      split
      · exact readStatements_alike hp h
      · simp only [relocate, Body.relocate, htree, hspan]

end Program

end CatScript
