import CatScript.Proofs.Grammar.Coverage
import CatScript.Proofs.Grammar.Progress
import CatScript.Proofs.Token.Lossless

/-!
# Spans are hulls

The tokens of a text take some of it each and lie one behind the other, also where a `>=` is split
into halves. So the span of every expression and every statement that was read reaches from the
start of the first token it took to the stop of the last one: it takes some text, it holds the spans
of its parts, and parts that stand beside each other lie one behind the other.

Nothing is assumed of the text. A bracket that is missing takes no token, and a statement that was
given up is only as long as the token that it names.

Results:
* `scan_inOrder`, `Refined.inOrder`: the tokens of a text are in order, whole or in halves.
* `Expr.Spells.nested`, `Stmt.Covers.nested`: what follows for the spans in a tree from its spans
  being hulls.
* `Program.parse_spans`: the spans of a program are the hulls of the tokens that reading passed.
-/
namespace CatScript

open Token (Kind Hull InOrder HullInOrder)

/-! ## Order of spans -/

/-- The first span lies in the second. -/
def Span.Inside (a b : Span) : Prop := b.start ≤ a.start ∧ a.stop ≤ b.stop

/-- The first span stops before the second starts. -/
def Span.Before (a b : Span) : Prop := a.stop ≤ b.start

namespace Token

variable {span a b : Span} {ts as bs : List Token}

theorem InOrder.left (h : InOrder (as ++ bs)) : InOrder as :=
  h.sublist (List.sublist_append_left as bs)

theorem InOrder.right (h : InOrder (as ++ bs)) : InOrder bs :=
  h.sublist (List.sublist_append_right as bs)

theorem InOrder.tail {t : Token} (h : InOrder (t :: ts)) : InOrder ts :=
  h.sublist (List.sublist_cons_self t ts)

theorem inOrder_cons {t : Token} : InOrder (t :: ts) ↔
    t.span.start < t.span.stop ∧ (∀ u ∈ ts, t.span.Before u.span) ∧ InOrder ts := by
  rw [InOrder, List.forall_mem_cons, List.pairwise_cons]
  exact ⟨fun ⟨⟨hpos, hall⟩, hlt, hord⟩ => ⟨hpos, hlt, hall, hord⟩,
    fun ⟨hpos, hlt, hall, hord⟩ => ⟨⟨hpos, hall⟩, hlt, hord⟩⟩

theorem InOrder.append (h : InOrder (as ++ bs)) {t u : Token} (ht : t ∈ as) (hu : u ∈ bs) :
    t.span.stop ≤ u.span.start :=
  (List.pairwise_append.1 h.2).2.2 t ht u hu

theorem InOrder.le_last (h : InOrder ts) {last t : Token} (hl : ts.getLast? = some last)
    (ht : t ∈ ts) : t.span.stop ≤ last.span.stop := by
  obtain ⟨us, rfl⟩ := List.getLast?_eq_some_iff.1 hl
  rcases List.mem_append.1 ht with hmem | hmem
  · have hpos := h.1 last (by simp)
    have hstop := h.append hmem (List.mem_singleton_self last)
    omega
  · obtain rfl := List.mem_singleton.1 hmem
    exact Nat.le_refl _

/-- A hull of tokens in order takes some text. -/
theorem Hull.pos (h : Hull span ts) (ho : InOrder ts) : span.start < span.stop := by
  obtain ⟨first, last, hf, hl, rfl⟩ := h
  have hle := ho.head_le hf (List.mem_of_getLast? hl)
  have hpos := ho.1 last (List.mem_of_getLast? hl)
  exact Nat.lt_of_le_of_lt hle hpos

theorem Hull.inside (h : Hull span ts) (ho : InOrder ts) (ha : Hull a as) (hs : as.Sublist ts) :
    a.Inside span := by
  obtain ⟨first, last, hf, hl, rfl⟩ := h
  obtain ⟨first', last', hf', hl', rfl⟩ := ha
  exact ⟨ho.head_le hf (hs.subset (List.mem_of_head? hf')),
    ho.le_last hl (hs.subset (List.mem_of_getLast? hl'))⟩

theorem Hull.before (ha : Hull a as) (hb : Hull b bs) (ho : InOrder (as ++ bs)) : a.Before b := by
  obtain ⟨_, last, -, hl, rfl⟩ := ha
  obtain ⟨first, _, hf, -, rfl⟩ := hb
  exact ho.append (List.mem_of_getLast? hl) (List.mem_of_head? hf)

theorem Braced.inner {P : List Token → Prop} (h : Braced P ts) (ho : InOrder ts) :
    ∃ us, P us ∧ InOrder us := by
  obtain ⟨opening, inner, closing, rfl, -, hP, -⟩ := h
  exact ⟨inner, hP, ho.right.left⟩

theorem Braced.imp {P Q : List Token → Prop} (h : Braced P ts) (ho : InOrder ts)
    (hPQ : ∀ {us : List Token}, P us → InOrder us → Q us) : Braced Q ts := by
  obtain ⟨opening, inner, closing, rfl, hopen, hP, hclose⟩ := h
  exact ⟨opening, inner, closing, rfl, hopen, hPQ hP ho.right.left, hclose⟩

end Token

/-! ## Nesting of spans -/

namespace Expr

mutual

/-- The span of every part takes some text, lies in the span around it and behind those of the
parts in front of it. -/
def Nested : Expr → Prop
  | int n _ | str n _ | bool n _ | null n | var n _ => n.span.start < n.span.stop
  | unary n _ e | paren n e => n.span.start < n.span.stop ∧ e.span.Inside n.span ∧ e.Nested
  | binary n _ l r =>
    n.span.start < n.span.stop ∧ l.span.Inside n.span ∧ r.span.Inside n.span ∧
      l.span.Before r.span ∧ l.Nested ∧ r.Nested
  | list n es | call n _ es _ =>
    n.span.start < n.span.stop ∧ (∀ e ∈ es, e.span.Inside n.span) ∧
      (es.Pairwise fun d e => d.span.Before e.span) ∧ NestedAll es

def NestedAll : List Expr → Prop
  | [] => True
  | e :: es => e.Nested ∧ NestedAll es

end

/-- Each of the expressions has its own tokens among those of all. -/
theorem SpellsAll.mem : (es : List Expr) → ∀ {ts : List Token}, SpellsAll Hull es ts →
    ∀ e ∈ es, ∃ us, us.Sublist ts ∧ Hull e.span us
  | [], _, _, e, he => by cases he
  | [d], ts, h, e, he => by
    rw [List.mem_singleton.1 he]
    exact ⟨ts, .refl ts, h.node⟩
  | d :: d' :: es, ts, ⟨a, t, b, hts, hd, _, hes⟩, e, he => by
    subst hts
    rcases List.mem_cons.1 he with rfl | he
    · exact ⟨a, List.sublist_append_left a _, hd.node⟩
    · obtain ⟨us, hus, hhull⟩ := SpellsAll.mem (d' :: es) hes e he
      exact ⟨us, (hus.cons t).trans (List.sublist_append_right a _), hhull⟩

theorem SpellsAll.ordered : (es : List Expr) → ∀ {ts : List Token}, SpellsAll Hull es ts →
    InOrder ts → es.Pairwise fun d e => d.span.Before e.span
  | [], _, _, _ => .nil
  | [_], _, _, _ => List.pairwise_singleton _ _
  | d :: d' :: es, ts, ⟨a, t, b, hts, hd, _, hes⟩, ho => by
    subst hts
    refine .cons (fun e he => ?_) (SpellsAll.ordered (d' :: es) hes (ho.sublist (by simp)))
    obtain ⟨us, hus, hhull⟩ := SpellsAll.mem (d' :: es) hes e he
    exact hd.node.before hhull (ho.sublist ((hus.cons t).append_left a))

mutual

theorem Spells.nested : (e : Expr) → ∀ {ts : List Token}, e.Spells Hull ts → InOrder ts → e.Nested
  | int _ _, _, h, ho | str _ _, _, h, ho | bool _ _, _, h, ho | null _, _, h, ho
  | var _ _, _, h, ho => h.1.pos ho
  | unary n op e, ts, ⟨hn, _, t, es, hts, _, he⟩, ho => by
    subst hts
    have hs : es.Sublist (t :: es) := List.sublist_cons_self t es
    exact ⟨hn.pos ho, hn.inside ho he.node hs, Spells.nested e he (ho.sublist hs)⟩
  | binary n op l r, ts, ⟨hn, _, ls, t, rs, hts, _, hl, hr⟩, ho => by
    subst hts
    have hls : ls.Sublist (ls ++ t :: rs) := List.sublist_append_left ls _
    have hrs : rs.Sublist (ls ++ t :: rs) := by simp
    have hboth : (ls ++ rs).Sublist (ls ++ t :: rs) := (List.sublist_cons_self t rs).append_left ls
    exact ⟨hn.pos ho, hn.inside ho hl.node hls, hn.inside ho hr.node hrs,
      hl.node.before hr.node (ho.sublist hboth), Spells.nested l hl (ho.sublist hls),
      Spells.nested r hr (ho.sublist hrs)⟩
  | paren n e, ts, ⟨hn, t, es, close, hts, _, he, _⟩, ho => by
    subst hts
    have hs : es.Sublist (t :: (es ++ close)) := (List.sublist_append_left es close).cons t
    exact ⟨hn.pos ho, hn.inside ho he.node hs, Spells.nested e he (ho.sublist hs)⟩
  | list n es, ts, ⟨hn, t, is, close, hts, _, hes, _⟩, ho => by
    subst hts
    have hs : is.Sublist (t :: (is ++ close)) := (List.sublist_append_left is close).cons t
    refine ⟨hn.pos ho, fun e he => ?_, SpellsAll.ordered es hes (ho.sublist hs),
      SpellsAll.nested es hes (ho.sublist hs)⟩
    obtain ⟨us, hus, hhull⟩ := SpellsAll.mem es hes e he
    exact hn.inside ho hhull (hus.trans hs)
  | call n f es symbol, ts, ⟨hn, name, t, is, close, hts, _, _, _, hes, _⟩, ho => by
    subst hts
    have hs : is.Sublist (name :: t :: (is ++ close)) :=
      ((List.sublist_append_left is close).cons t).cons name
    refine ⟨hn.pos ho, fun e he => ?_, SpellsAll.ordered es hes (ho.sublist hs),
      SpellsAll.nested es hes (ho.sublist hs)⟩
    obtain ⟨us, hus, hhull⟩ := SpellsAll.mem es hes e he
    exact hn.inside ho hhull (hus.trans hs)

theorem SpellsAll.nested : (es : List Expr) → ∀ {ts : List Token}, SpellsAll Hull es ts →
    InOrder ts → NestedAll es
  | [], _, _, _ => trivial
  | [e], _, h, ho => ⟨Spells.nested e h ho, trivial⟩
  | e :: d :: es, ts, ⟨a, t, b, hts, he, _, hes⟩, ho => by
    subst hts
    exact ⟨Spells.nested e he (ho.sublist (List.sublist_append_left a _)),
      SpellsAll.nested (d :: es) hes (ho.sublist (by simp))⟩

end

theorem Spells.hull {e : Expr} {ts : List Token} (h : e.Spells HullInOrder ts)
    (ho : InOrder ts) : e.Spells Hull ts :=
  Spells.imp e (fun _ _ hs hull => hull (ho.sublist hs)) h

end Expr

namespace Stmt

open Token (AtMost Braced)

mutual

/-- The span of every statement that was read takes some text and holds the spans of the
expressions in it, and these are nested in turn. -/
def Nested : Stmt → Prop
  | print n e | call n e | assign n _ e | declare n _ _ e | ret n (some e) =>
    n.span.start < n.span.stop ∧ e.span.Inside n.span ∧ e.Nested
  | forEach n _ e body | cond n e body none =>
    n.span.start < n.span.stop ∧ e.span.Inside n.span ∧ e.Nested ∧ NestedAll body
  | cond n e yes (some no) =>
    n.span.start < n.span.stop ∧ e.span.Inside n.span ∧ e.Nested ∧ NestedAll yes ∧ NestedAll no
  | define n _ body => n.span.start < n.span.stop ∧ NestedAll body
  | ret n none => n.span.start < n.span.stop
  | invalid _ _ => True

def NestedAll : List Stmt → Prop
  | [] => True
  | s :: ss => s.Nested ∧ NestedAll ss

end

mutual

/-- Where the tokens are in order, all spans are hulls. -/
theorem Covers.hull : (s : Stmt) → ∀ {ts : List Token}, s.Covers HullInOrder ts → InOrder ts →
    s.Covers Hull ts
  | print n e, _, ⟨hn, t, opening, es, closing, hts, hk, hopen, he, hclose⟩, ho => by
    subst hts
    exact ⟨hn ho, t, opening, es, closing, rfl, hk, hopen, he.hull ho.tail.right.left, hclose⟩
  | forEach n _ e body, _,
      ⟨hn, t, opening, name, kw, es, closing, bs, hts, hk, hopen, hname, hkw, he, hclose, hb⟩,
      ho => by
    subst hts
    have hin := ho.tail.right.right.right
    exact ⟨hn ho, t, opening, name, kw, es, closing, bs, rfl, hk, hopen, hname, hkw,
      he.hull hin.left, hclose, hb.imp hin.right.right (CoversAll.hull body)⟩
  | cond n e yes none, _, ⟨hn, t, opening, es, closing, bs, hts, hk, hopen, he, hclose, hb⟩, ho => by
    subst hts
    have hin := ho.tail.right
    exact ⟨hn ho, t, opening, es, closing, bs, rfl, hk, hopen, he.hull hin.left, hclose,
      hb.imp hin.right.right (CoversAll.hull yes)⟩
  | cond n e yes (some no), _,
      ⟨hn, t, opening, es, closing, bs, kw, ds, hts, hk, hopen, he, hclose, hb, hkw, hd⟩, ho => by
    subst hts
    have hin := ho.tail.right
    exact ⟨hn ho, t, opening, es, closing, bs, kw, ds, rfl, hk, hopen, he.hull hin.left, hclose,
      hb.imp hin.right.right.left (CoversAll.hull yes), hkw,
      hd.imp hin.right.right.right.tail (CoversAll.hull no)⟩
  | declare n _ declared e, _, ⟨hn, t, name, ty, equal, es, hts, hk, hname, hty, heq, he⟩, ho => by
    subst hts
    exact ⟨hn ho, t, name, ty, equal, es, rfl, hk, hname, hty, heq, he.hull ho.tail.right.right.right⟩
  | assign n x e, _, ⟨hn, t, equal, es, hts, hk, hv, heq, he⟩, ho => by
    subst hts
    exact ⟨hn ho, t, equal, es, rfl, hk, hv, heq, he.hull ho.tail.tail⟩
  | call n e, _, ⟨hn, he⟩, ho => ⟨hn ho, he.hull ho⟩
  | define n _ body, _, ⟨hn, t, head, bs, hts, hk, hb⟩, ho => by
    subst hts
    exact ⟨hn ho, t, head, bs, rfl, hk, hb.imp ho.tail.right (CoversAll.hull body)⟩
  | ret n none, _, ⟨hn, h⟩, ho => ⟨hn ho, h⟩
  | ret n (some e), _, ⟨hn, t, es, hts, hk, he⟩, ho => by
    subst hts
    exact ⟨hn ho, t, es, rfl, hk, he.hull ho.tail⟩
  | invalid _ _, _, h, _ => h

theorem CoversAll.hull : (ss : List Stmt) → ∀ {ts : List Token}, CoversAll HullInOrder ss ts →
    InOrder ts → CoversAll Hull ss ts
  | [], _, h, _ => h
  | s :: ss, _, ⟨as, bs, hts, hs, hss⟩, ho => by
    subst hts
    exact ⟨as, bs, rfl, Covers.hull s hs ho.left, CoversAll.hull ss hss ho.right⟩

end

/-- A statement with one expression. -/
theorem nested_direct {n : Note} {e : Expr} {ts es : List Token} (hn : Hull n.span ts)
    (ho : InOrder ts) (he : e.Spells Hull es) (hs : es.Sublist ts) :
    n.span.start < n.span.stop ∧ e.span.Inside n.span ∧ e.Nested :=
  ⟨hn.pos ho, hn.inside ho he.node hs, Expr.Spells.nested e he (ho.sublist hs)⟩

mutual

theorem Covers.nested : (s : Stmt) → ∀ {ts : List Token}, s.Covers Hull ts → InOrder ts → s.Nested
  | print n e, _, ⟨hn, t, opening, es, closing, hts, _, _, he, _⟩, ho => by
    subst hts
    exact nested_direct hn ho he (by grind)
  | forEach n _ e body, _,
      ⟨hn, t, opening, name, kw, es, closing, bs, hts, _, _, _, _, he, _, hb⟩, ho => by
    subst hts
    obtain ⟨hpos, hinside, hnested⟩ := nested_direct hn ho he (by grind)
    obtain ⟨us, hb, hus⟩ := hb.inner ho.tail.right.right.right.right.right
    exact ⟨hpos, hinside, hnested, CoversAll.nested body hb hus⟩
  | cond n e yes none, _, ⟨hn, t, opening, es, closing, bs, hts, _, _, he, _, hb⟩, ho => by
    subst hts
    obtain ⟨hpos, hinside, hnested⟩ := nested_direct hn ho he (by grind)
    obtain ⟨us, hb, hus⟩ := hb.inner ho.tail.right.right.right
    exact ⟨hpos, hinside, hnested, CoversAll.nested yes hb hus⟩
  | cond n e yes (some no), _,
      ⟨hn, t, opening, es, closing, bs, kw, ds, hts, _, _, he, _, hb, _, hd⟩, ho => by
    subst hts
    obtain ⟨hpos, hinside, hnested⟩ := nested_direct hn ho he (by grind)
    have hin := ho.tail.right.right.right
    obtain ⟨us, hb, hus⟩ := hb.inner hin.left
    obtain ⟨vs, hd, hvs⟩ := hd.inner hin.right.tail
    exact ⟨hpos, hinside, hnested, CoversAll.nested yes hb hus, CoversAll.nested no hd hvs⟩
  | declare n _ declared e, _, ⟨hn, t, name, ty, equal, es, hts, _, _, _, _, he⟩, ho => by
    subst hts
    exact nested_direct hn ho he (by grind)
  | assign n x e, _, ⟨hn, t, equal, es, hts, _, _, _, he⟩, ho => by
    subst hts
    exact nested_direct hn ho he (by grind)
  | call n e, _, ⟨hn, he⟩, ho => nested_direct hn ho he (.refl _)
  | define n _ body, _, ⟨hn, t, head, bs, hts, _, hb⟩, ho => by
    subst hts
    obtain ⟨us, hb, hus⟩ := hb.inner ho.tail.right
    exact ⟨hn.pos ho, CoversAll.nested body hb hus⟩
  | ret n none, _, ⟨hn, _⟩, ho => hn.pos ho
  | ret n (some e), _, ⟨hn, t, es, hts, _, he⟩, ho => by
    subst hts
    exact nested_direct hn ho he (by grind)
  | invalid _ _, _, _, _ => trivial

theorem CoversAll.nested : (ss : List Stmt) → ∀ {ts : List Token}, CoversAll Hull ss ts →
    InOrder ts → NestedAll ss
  | [], _, _, _ => trivial
  | s :: ss, _, ⟨as, bs, hts, hs, hss⟩, ho => by
    subst hts
    exact ⟨Covers.nested s hs ho.left, CoversAll.nested ss hss ho.right⟩

end

end Stmt

/-! ## Tokens of a text -/

namespace Token

/-- The tokens of a text are in order, and a `>=` takes two bytes. -/
theorem scan_inOrder (source file : String) :
    InOrder ((scan source file).filter fun t => t.kind ≠ .eof) ∧
      ∀ t ∈ scan source file, t.kind = .greaterEqual → t.span.stop = t.span.start + 2 := by
  have hlaid : Laid file 0 source.toList (scan source file) := scanFrom_laid file 0 source.toList
  refine ⟨⟨fun t ht => ?_, ?_⟩, fun t ht hk => ?_⟩
  · obtain ⟨hmem, hkind⟩ := List.mem_filter.1 ht
    obtain ⟨body, hbody, hall⟩ := hlaid.ends
    rw [hbody] at hmem
    rcases List.mem_append.1 hmem with hmem | hmem
    · exact (hall t hmem).2
    · rw [List.mem_singleton.1 hmem] at hkind
      cases hkind
  · exact (hlaid.ordered.imp And.right).sublist List.filter_sublist
  · obtain ⟨ts, e, hts, he, hlex⟩ := scanFrom_lexical file 0 source.toList
    have hvalue : t.value = ">=" := by
      rcases List.mem_append.1 (hts ▸ ht : t ∈ ts ++ [e]) with hmem | hmem
      · exact (hlex t hmem).greaterEqual hk
      · rw [List.mem_singleton.1 hmem, he] at hk
        cases hk
    obtain ⟨-, text, after, ⟨before, -, -, hstop⟩, ⟨heof, -⟩ | hreads⟩ := hlaid.stands t ht
    · rw [hk] at heof
      cases heof
    · rw [← hstop, ← hreads.toList_eq (by rw [hk]; decide), hvalue]
      rfl

end Token

namespace Grammar

/-- Every token of a refined list lies in one of the list. -/
theorem Refined.inside {ts us : List Token} (h : Refined ts us)
    (hwide : ∀ t ∈ ts, t.kind = .greaterEqual → t.span.stop = t.span.start + 2) :
    ∀ u ∈ us, ∃ t ∈ ts, u.span.Inside t.span := by
  induction h with
  | nil => exact fun u hu => absurd hu List.not_mem_nil
  | keep t _ ih =>
    intro u hu
    rw [List.forall_mem_cons] at hwide
    rcases List.mem_cons.1 hu with rfl | hu
    · exact ⟨u, List.mem_cons_self .., Nat.le_refl _, Nat.le_refl _⟩
    · obtain ⟨t', ht', hin⟩ := ih hwide.2 u hu
      exact ⟨t', List.mem_cons_of_mem _ ht', hin⟩
  | @split _ _ t hk _ ih =>
    intro u hu
    rw [List.forall_mem_cons] at hwide
    have hstop := hwide.1 hk
    rcases List.mem_cons.1 hu with rfl | hu
    · exact ⟨t, List.mem_cons_self .., Nat.le_refl _, by simp only [greaterOf]; omega⟩
    rcases List.mem_cons.1 hu with rfl | hu
    · exact ⟨t, List.mem_cons_self .., Nat.le_succ _, Nat.le_refl _⟩
    · obtain ⟨t', ht', hin⟩ := ih hwide.2 u hu
      exact ⟨t', List.mem_cons_of_mem _ ht', hin⟩

/-- Halves of a `>=` are in order as the whole is. -/
theorem Refined.inOrder {ts us : List Token} (h : Refined ts us)
    (hwide : ∀ t ∈ ts, t.kind = .greaterEqual → t.span.stop = t.span.start + 2) (ho : InOrder ts) :
    InOrder us := by
  induction h with
  | nil => exact ho
  | @keep ts us t h ih =>
    rw [List.forall_mem_cons] at hwide
    obtain ⟨hpos, hlt, ho⟩ := Token.inOrder_cons.1 ho
    refine Token.inOrder_cons.2 ⟨hpos, fun u hu => ?_, ih hwide.2 ho⟩
    obtain ⟨t', ht', hin, -⟩ := h.inside hwide.2 u hu
    exact Nat.le_trans (hlt t' ht') hin
  | @split ts us t hk h ih =>
    rw [List.forall_mem_cons] at hwide
    have hstop := hwide.1 hk
    obtain ⟨hpos, hlt, ho⟩ := Token.inOrder_cons.1 ho
    have hbehind : ∀ u ∈ us, t.span.stop ≤ u.span.start := by
      intro u hu
      obtain ⟨t', ht', hin, -⟩ := h.inside hwide.2 u hu
      exact Nat.le_trans (hlt t' ht') hin
    refine Token.inOrder_cons.2 ⟨Nat.lt_succ_self _, ?_, Token.inOrder_cons.2 ⟨?_, hbehind,
      ih hwide.2 ho⟩⟩
    · rw [List.forall_mem_cons]
      refine ⟨Nat.le_refl _, fun u hu => ?_⟩
      have := hbehind u hu
      simp only [Span.Before, greaterOf]
      omega
    · simp only [equalOf]
      omega

end Grammar

/-! ## Programs -/

namespace Program

/-- The program takes the tokens, and `H` holds between the span and the tokens of each of its
expressions and statements, statements apart that were given up. -/
def Covers (H : Span → List Token → Prop) (p : Program) (ts : List Token) : Prop :=
  match p.body with
  | .expression e => e.Spells H ts
  | .statements ss => Stmt.CoversAll H ss ts

/-- The spans of the program are nested. -/
def Nested (p : Program) : Prop :=
  match p.body with
  | .expression e => e.Nested
  | .statements ss => Stmt.NestedAll ss

/-- The tokens that reading a source text passes, in order. -/
def passed (source file : String) : List Token :=
  (read (.ofTokens (Token.scan source file))).2.before.reverse

open Grammar in
theorem read_covered {c : Cursor} (hc : c.Scanned) :
    ∃ ts, c.Passes ts (read c).2 ∧ (read c).1.Covers HullInOrder ts := by
  unfold read
  split
  · next e r he =>
    split
    · exact statements_covered c hc
    · exact expr_covered hc he
  · exact statements_covered c hc

theorem Covers.hull {p : Program} {ts : List Token} (h : p.Covers HullInOrder ts)
    (ho : InOrder ts) : p.Covers Hull ts := by
  unfold Covers at h ⊢
  split at h
  · exact h.hull ho
  · exact Stmt.CoversAll.hull _ h ho

theorem Covers.nested {p : Program} {ts : List Token} (h : p.Covers Hull ts) (ho : InOrder ts) :
    p.Nested := by
  unfold Covers at h
  unfold Nested
  split at h
  · exact Expr.Spells.nested _ h ho
  · exact Stmt.CoversAll.nested _ h ho

/-- The spans of a program are the hulls of the tokens that reading passed. These are all tokens of
the text, some `>=` in two halves; every token belongs to one statement or expression, and the span
of each that was not given up reaches from the start of its first token to the stop of its last. So
spans take some text, hold those of their parts, and lie one behind the other. -/
theorem parse_spans (source file : String) :
    Grammar.Refined ((Token.scan source file).filter fun t => t.kind ≠ .eof) (passed source file) ∧
      (parse source file).Covers Hull (passed source file) ∧ (parse source file).Nested := by
  have hfaces := Cursor.ofTokens_faces source file
  obtain ⟨ts, hpass, hcover⟩ := read_covered ⟨_, hfaces⟩
  have hpassed : passed source file = ts := by
    have hstart : (Cursor.ofTokens (Token.scan source file)).before = [] := by
      unfold Cursor.ofTokens
      split <;> rfl
    rw [passed, hpass.passed, hstart, List.append_nil, List.reverse_reverse]
  -- nothing is left when reading is done
  obtain ⟨bs, hend, hrefined⟩ := hpass.faces hfaces
  rw [hend.eq_nil (Grammar.read_end _), List.append_nil] at hrefined
  obtain ⟨hscan, hwide⟩ := Token.scan_inOrder source file
  have ho : InOrder ts := hrefined.inOrder (fun t ht => hwide t (List.mem_filter.1 ht).1) hscan
  rw [hpassed]
  exact ⟨hrefined, hcover.hull ho, (hcover.hull ho).nested ho⟩

end Program

end CatScript
