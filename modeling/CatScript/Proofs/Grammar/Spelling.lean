import CatScript.Proofs.Grammar.Accepted

/-!
# How an expression is spelled

An expression that is read, with or without diagnostics, is spelled by the tokens that were passed
on the way, each of them once and in the order of the tree: a leaf by one token, an operation by its
operands with the operator between or in front, a call, list or group by its brackets with the parts
between. A closing bracket is missing exactly where the node reports it, and no other node reports
anything, apart from an integer out of range.

The tree is as the levels of binding demand: an operation's left operand binds as tightly as the
operation or tighter, its right operand tighter, and an operator in front takes no binary operation
for its operand.

`Spells` leaves open what holds between the span of a node and the tokens that spell it. What reading
makes of spans is `HullInOrder`: where the tokens are in order, the span is their hull. Reading falls
back on the opening bracket's own span where they are not.

Results:
* `expr_spelled`: what reading an expression gives is ordered by the levels, and the tokens passed
  spell it.
-/
namespace CatScript

open Token (Kind)

/-! ## Tokens passed -/

namespace Cursor

/-- The tokens from the current one on. -/
def toCome (c : Cursor) : List Token := c.current :: c.ahead

/-- The stream ends in an `eof` token. -/
def Ended (c : Cursor) : Prop := c.toCome.getLast?.map (·.kind) = some .eof

/-- `ts` are the tokens passed since `b` were, the latest of these first. -/
def PassedSince (c : Cursor) (b ts : List Token) : Prop := c.before = ts.reverse ++ b

/-- `ts` are the tokens that lead from `c` to `d`. -/
structure Takes (c : Cursor) (ts : List Token) (d : Cursor) : Prop where
  passed : d.PassedSince c.before ts
  toCome : c.toCome = ts ++ d.toCome

variable {c d r : Cursor} {b ts us : List Token}

theorem PassedSince.trans (h : c.PassedSince b ts) (h' : d.PassedSince c.before us) :
    d.PassedSince b (ts ++ us) := by
  rw [PassedSince, h', h, List.reverse_append, List.append_assoc]

/-- The token passed last is the last of those passed since. -/
theorem PassedSince.previous (h : d.PassedSince b ts) {last : Token}
    (hl : ts.getLast? = some last) : d.previous = last := by
  rw [Cursor.previous, h, List.head?_append, List.head?_reverse, hl]
  rfl

theorem Takes.refl (c : Cursor) : c.Takes [] c := ⟨rfl, rfl⟩

theorem Takes.trans (h : c.Takes ts d) (h' : d.Takes us r) : c.Takes (ts ++ us) r := by
  refine ⟨h.passed.trans h'.passed, ?_⟩
  rw [h.toCome, h'.toCome, List.append_assoc]

theorem Takes.ended (h : c.Takes ts d) (hc : c.Ended) : d.Ended := by
  unfold Ended at hc ⊢
  rw [h.toCome, List.getLast?_append] at hc
  rw [← hc]
  rfl

theorem takes_advance (ha : c.ahead ≠ []) (hk : c.kind ≠ .eof) : c.Takes [c.current] c.advance := by
  obtain ⟨t, ts, ha⟩ := List.exists_cons_of_ne_nil ha
  simp only [advance, if_neg hk, ha]
  exact ⟨rfl, by rw [toCome, ha]; rfl⟩

theorem Ended.takes_advance (h : c.Ended) (hk : c.kind ≠ .eof) : c.Takes [c.current] c.advance := by
  refine Cursor.takes_advance (fun ha => ?_) hk
  rw [Ended, toCome, ha] at h
  exact hk (Option.some.inj h)

theorem Ended.takes_accept? {k : Kind} (h : c.Ended) (hk : k ≠ .eof) (ha : c.accept? k = some d) :
    c.current.kind = k ∧ c.Takes [c.current] d := by
  unfold accept? at ha
  split at ha
  · next hc =>
    cases ha
    exact ⟨hc, h.takes_advance (hc ▸ hk)⟩
  · cases ha

end Cursor

/-! ## Spans of tokens -/

namespace Token

/-- The tokens take some text each and lie one behind the other. -/
def InOrder (ts : List Token) : Prop :=
  (∀ t ∈ ts, t.span.start < t.span.stop) ∧ ts.Pairwise fun a b => a.span.stop ≤ b.span.start

/-- From the start of the first of the tokens to the stop of the last. -/
def Hull (span : Span) (ts : List Token) : Prop :=
  ∃ first last, ts.head? = some first ∧ ts.getLast? = some last ∧
    span = first.span.between last.span

/-- The span is the hull of the tokens, if these are in order. -/
def HullInOrder (span : Span) (ts : List Token) : Prop := InOrder ts → Hull span ts

theorem InOrder.sublist {ts us : List Token} (h : InOrder ts) (hs : us.Sublist ts) : InOrder us :=
  ⟨fun t ht => h.1 t (hs.subset ht), h.2.sublist hs⟩

theorem hull_one (t : Token) : Hull t.span [t] := ⟨t, t, rfl, rfl, rfl⟩

theorem Hull.ne_nil {span : Span} {ts : List Token} (h : Hull span ts) : ts ≠ [] := by
  obtain ⟨first, last, hf, -⟩ := h
  rintro rfl
  cases hf

theorem Hull.cons {span : Span} {ts : List Token} (t : Token) (h : Hull span ts) :
    Hull (t.span.between span) (t :: ts) := by
  obtain ⟨first, last, hf, hl, rfl⟩ := h
  refine ⟨t, last, rfl, ?_, rfl⟩
  rw [List.getLast?_cons, hl]
  rfl

theorem Hull.join {a b : Span} {as bs : List Token} (t : Token) (ha : Hull a as) (hb : Hull b bs) :
    Hull (a.between b) (as ++ t :: bs) := by
  obtain ⟨first, last, hf, hl, rfl⟩ := ha
  obtain ⟨first', last', -, hl', rfl⟩ := hb
  refine ⟨first, last', ?_, ?_, rfl⟩
  · rw [List.head?_append, hf]
    rfl
  · rw [List.getLast?_append, List.getLast?_cons, hl']
    rfl

theorem InOrder.head_le {first t : Token} {ts : List Token} (h : InOrder ts)
    (hf : ts.head? = some first) (ht : t ∈ ts) : first.span.start ≤ t.span.start := by
  obtain ⟨ts, rfl⟩ := List.head?_eq_some_iff.1 hf
  rcases List.mem_cons.1 ht with rfl | hmem
  · exact Nat.le_refl _
  · have hpos := h.1 first (List.mem_cons_self ..)
    have hstop := (List.pairwise_cons.1 h.2).1 t hmem
    omega

end Token

open Token in
/-- The span of what was read from `opening` on. -/
theorem Cursor.PassedSince.spanFrom {d : Cursor} {opening : Token} {b ts : List Token}
    (h : d.PassedSince b (opening :: ts)) :
    HullInOrder (d.spanFrom opening.span) (opening :: ts) := by
  intro ho
  obtain ⟨last, hl⟩ : ∃ last, (opening :: ts).getLast? = some last :=
    Option.isSome_iff_exists.1 (by simp)
  have hle := ho.head_le rfl (List.mem_of_getLast? hl)
  have hpos := ho.1 last (List.mem_of_getLast? hl)
  refine ⟨opening, last, rfl, hl, ?_⟩
  rw [Cursor.spanFrom, h.previous hl, if_neg (by omega)]

/-! ## Spelling -/

namespace Expr

/-- What an integer token says, and what is reported if it says no integer of the range. -/
def Says (t : Token) (n : Note) (v : Int64) : Prop :=
  (Text.int64? t.value.toList = some v ∧ n.errors = []) ∨
  (Text.int64? t.value.toList = none ∧ v = 0 ∧
    n.errors = [(Cause.invalidInteger t.value).at t.span])

/-- How a bracket is closed: by its token, or by no token, which is reported. -/
def Closes (closing : Kind) (cause : Cause) (n : Note) (close : List Token) : Prop :=
  (n.errors = [] ∧ ∃ t, close = [t] ∧ t.kind = closing) ∨
  (close = [] ∧ ∃ d, n.errors = [d] ∧ d.cause = cause)

mutual

/-- The tokens spell the expression, and `H` holds between the span of each of its nodes and the
tokens that spell that node. -/
def Spells (H : Span → List Token → Prop) : Expr → List Token → Prop
  | int n v, ts => H n.span ts ∧ ∃ t, ts = [t] ∧ t.kind = .integer ∧ Says t n v
  | str n v, ts => H n.span ts ∧ n.errors = [] ∧ ∃ t, ts = [t] ∧ t.kind = .string ∧ t.value = v
  | bool n v, ts =>
    H n.span ts ∧ n.errors = [] ∧ ∃ t, ts = [t] ∧ t.kind = if v then .kwTrue else .kwFalse
  | null n, ts => H n.span ts ∧ n.errors = [] ∧ ∃ t, ts = [t] ∧ t.kind = .kwNull
  | var n x, ts => H n.span ts ∧ n.errors = [] ∧ ∃ t, ts = [t] ∧ t.kind = .identifier ∧ t.value = x
  | unary n op e, ts =>
    H n.span ts ∧ n.errors = [] ∧ ∃ t es, ts = t :: es ∧ UnaryOp.ofKind? t.kind = some op ∧
      e.Spells H es
  | binary n op l r, ts =>
    H n.span ts ∧ n.errors = [] ∧ ∃ ls t rs, ts = ls ++ t :: rs ∧
      BinaryOp.ofKind? t.kind = some op ∧ l.Spells H ls ∧ r.Spells H rs
  | paren n e, ts =>
    H n.span ts ∧ ∃ t es close, ts = t :: (es ++ close) ∧ t.kind = .leftParen ∧ e.Spells H es ∧
      Closes .rightParen .unterminatedParens n close
  | list n es, ts =>
    H n.span ts ∧ ∃ t is close, ts = t :: (is ++ close) ∧ t.kind = .leftBracket ∧
      SpellsAll H es is ∧ Closes .rightBracket .unterminatedList n close
  | call n f es _, ts =>
    H n.span ts ∧ ∃ name t is close, ts = name :: t :: (is ++ close) ∧ name.kind = .identifier ∧
      name.value = f ∧ t.kind = .leftParen ∧ SpellsAll H es is ∧
      Closes .rightParen .unterminatedArguments n close

/-- The tokens spell the expressions, with commas between them. -/
def SpellsAll (H : Span → List Token → Prop) : List Expr → List Token → Prop
  | [], ts => ts = []
  | [e], ts => e.Spells H ts
  | e :: d :: es, ts =>
    ∃ a t b, ts = a ++ t :: b ∧ e.Spells H a ∧ t.kind = .comma ∧ SpellsAll H (d :: es) b

end

/-- The tokens spell the expression, whatever the spans of its nodes are. -/
def Spelled (e : Expr) (ts : List Token) : Prop := e.Spells (fun _ _ => True) ts

theorem Spells.node {H : Span → List Token → Prop} {e : Expr} {ts : List Token}
    (h : e.Spells H ts) : H e.span ts := by
  cases e <;> exact h.1

mutual

/-- What holds of a node's span and tokens can be changed for what follows from it. -/
theorem Spells.imp {H H' : Span → List Token → Prop} : (e : Expr) → ∀ {ts : List Token},
    (∀ span us, us.Sublist ts → H span us → H' span us) → e.Spells H ts → e.Spells H' ts
  | int _ _, ts, hH, h | str _ _, ts, hH, h | bool _ _, ts, hH, h | null _, ts, hH, h
  | var _ _, ts, hH, h => ⟨hH _ ts (.refl ts) h.1, h.2⟩
  | unary n op e, ts, hH, ⟨hn, he, t, es, hts, hop, h⟩ => by
    subst hts
    exact ⟨hH _ _ (.refl _) hn, he, t, es, rfl, hop,
      Spells.imp e (fun s us hs => hH s us (hs.trans (by simp))) h⟩
  | binary n op l r, ts, hH, ⟨hn, he, ls, t, rs, hts, hop, hl, hr⟩ => by
    subst hts
    exact ⟨hH _ _ (.refl _) hn, he, ls, t, rs, rfl, hop,
      Spells.imp l (fun s us hs => hH s us (hs.trans (by simp))) hl,
      Spells.imp r (fun s us hs => hH s us (hs.trans (by simp))) hr⟩
  | paren n e, ts, hH, ⟨hn, t, es, close, hts, hk, h, hc⟩ => by
    subst hts
    refine ⟨hH _ _ (.refl _) hn, t, es, close, rfl, hk, Spells.imp e (fun s us hs => ?_) h, hc⟩
    exact hH s us (hs.trans ((List.sublist_append_left es close).cons t))
  | list n es, ts, hH, ⟨hn, t, is, close, hts, hk, h, hc⟩ => by
    subst hts
    refine ⟨hH _ _ (.refl _) hn, t, is, close, rfl, hk, SpellsAll.imp es (fun s us hs => ?_) h, hc⟩
    exact hH s us (hs.trans ((List.sublist_append_left is close).cons t))
  | call n f es symbol, ts, hH, ⟨hn, name, t, is, close, hts, hk, hv, ht, h, hc⟩ => by
    subst hts
    refine ⟨hH _ _ (.refl _) hn, name, t, is, close, rfl, hk, hv, ht,
      SpellsAll.imp es (fun s us hs => ?_) h, hc⟩
    exact hH s us (hs.trans (((List.sublist_append_left is close).cons t).cons name))

theorem SpellsAll.imp {H H' : Span → List Token → Prop} : (es : List Expr) → ∀ {ts : List Token},
    (∀ span us, us.Sublist ts → H span us → H' span us) → SpellsAll H es ts → SpellsAll H' es ts
  | [], _, _, h => h
  | [e], _, hH, h => Spells.imp e hH h
  | e :: d :: es, ts, hH, ⟨a, t, b, hts, ha, ht, hb⟩ => by
    subst hts
    exact ⟨a, t, b, rfl, Spells.imp e (fun s us hs => hH s us (hs.trans (by simp))) ha, ht,
      SpellsAll.imp (d :: es) (fun s us hs => hH s us (hs.trans (by simp))) hb⟩

end

/-- One more expression in front, with its comma. -/
theorem SpellsAll.cons {H : Span → List Token → Prop} {e : Expr} {es : List Expr} {t : Token}
    {a b : List Token} (he : e.Spells H a) (ht : t.kind = .comma) (hes : es ≠ [])
    (h : SpellsAll H es b) : SpellsAll H (e :: es) (a ++ t :: b) := by
  obtain ⟨d, es, rfl⟩ := List.exists_cons_of_ne_nil hes
  exact ⟨a, t, b, rfl, he, ht, h⟩

end Expr

/-! ## Trees that the levels allow -/

namespace Expr

open Grammar (Level)

/-- How tightly the expression's outermost operation binds. -/
def level : Expr → Level
  | binary _ op _ _ => op.level
  | unary _ _ _ => .unary
  | _ => .primary

mutual

/-- Operands bind as their operation demands, and operations of one level group to the left. -/
def Grouped : Expr → Prop
  | int _ _ | str _ _ | bool _ _ | null _ | var _ _ => True
  | unary _ _ e => e.level.height ≤ Level.unary.height ∧ e.Grouped
  | binary _ op l r =>
    l.level.height ≤ op.level.height ∧ r.level.height < op.level.height ∧ l.Grouped ∧ r.Grouped
  | paren _ e => e.Grouped
  | list _ es | call _ _ es _ => GroupedAll es

def GroupedAll : List Expr → Prop
  | [] => True
  | e :: es => e.Grouped ∧ GroupedAll es

end

end Expr

namespace Grammar

open Cursor CatScript.Expr Token

/-! ## What reading gives -/

/-- The expression is grouped, binds at the level or tighter, and is spelled by the tokens. -/
structure SpelledAt (level : Level) (e : Expr) (ts : List Token) : Prop where
  grouped : e.Grouped
  bound : e.level.height ≤ level.height
  spells : e.Spells HullInOrder ts

theorem SpelledAt.mono {l m : Level} {e : Expr} {ts : List Token} (h : SpelledAt l e ts)
    (hm : l.height ≤ m.height) : SpelledAt m e ts :=
  ⟨h.grouped, Nat.le_trans h.bound hm, h.spells⟩

theorem spells_integerLiteral {t : Token} (hk : t.kind = .integer) :
    SpelledAt .primary (integerLiteral t) [t] := by
  unfold integerLiteral
  split
  · next v hv =>
    exact ⟨trivial, Nat.le_refl _, fun _ => hull_one t, t, rfl, hk, .inl ⟨hv, rfl⟩⟩
  · next hv =>
    exact ⟨trivial, Nat.le_refl _, fun _ => hull_one t, t, rfl, hk, .inr ⟨hv, rfl, rfl⟩⟩

theorem spells_unaryNode {t : Token} {op : UnaryOp} {e : Expr} {ts : List Token}
    (hop : UnaryOp.ofKind? t.kind = some op) (h : SpelledAt .unary e ts) :
    SpelledAt .unary (unaryNode t op e) (t :: ts) := by
  refine ⟨⟨h.bound, h.grouped⟩, Nat.le_refl _, fun ho => ?_, rfl, t, ts, rfl, hop, h.spells⟩
  exact (h.spells.node (ho.sublist (List.sublist_cons_self t ts))).cons t

theorem spells_binaryNode {t : Token} {op : BinaryOp} {l r : Expr} {ls rs : List Token}
    (hop : BinaryOp.ofKind? t.kind = some op) (hbin : op.level.isBinary = true)
    (hl : SpelledAt op.level l ls) (hr : SpelledAt op.level.tighter r rs) :
    SpelledAt op.level (binaryNode op l r) (ls ++ t :: rs) := by
  have := Level.height_tighter hbin
  have hbound := hr.bound
  refine ⟨⟨hl.bound, by omega, hl.grouped, hr.grouped⟩, Nat.le_refl _, fun ho => ?_, rfl, ls, t, rs,
    rfl, hop, hl.spells, hr.spells⟩
  exact (hl.spells.node (ho.sublist (by simp))).join t (hr.spells.node (ho.sublist (by simp)))

/-- A node is closed by the token at hand, or by none. -/
theorem close_ok {opening : Token} {closing : Kind} {cause : Cause} {build : Expr.Note → Expr}
    {c r : Cursor} {e : Expr} (hc : c.Ended) (hk : closing ≠ .eof)
    (ho : close opening closing cause build c = .ok e r) :
    ∃ n ts, c.Takes ts r ∧ e = build n ∧ n.span = r.spanFrom opening.span ∧
      Closes closing cause n ts := by
  unfold close expectOr at ho
  split at ho
  · next hck =>
    cases ho
    exact ⟨_, _, hc.takes_advance (hck ▸ hk), rfl, rfl, .inl ⟨rfl, _, rfl, hck⟩⟩
  · cases ho
    exact ⟨_, [], .refl c, rfl, rfl, .inr ⟨rfl, _, rfl, rfl⟩⟩

theorem level_isBinary (op : BinaryOp) : op.level.isBinary = true := by cases op <;> rfl

mutual

theorem binary_spelled {level : Level} {c r : Cursor} {e : Expr} (hl : level ≠ .primary)
    (hc : c.Ended) (ho : binary level c = .ok e r) :
    ∃ ts, c.Takes ts r ∧ SpelledAt level e ts := by
  by_cases hb : level.isBinary = true
  · rw [binary_of_isBinary hb] at ho
    obtain ⟨left, d, hleft, ho⟩ := Outcome.bind_eq_ok.1 ho
    have hw := binary_ok_lt hleft
    have hheight := Level.height_tighter hb
    obtain ⟨ts, htake, hspell⟩ := binary_spelled (tighter_ne_primary hb) hc hleft
    obtain ⟨us, htake', hspell'⟩ :=
      chain_spelled hb (htake.ended hc) (hspell.mono (by omega)) ho
    exact ⟨ts ++ us, htake.trans htake', hspell'⟩
  · have hu : level = .unary := by
      cases level <;> simp_all [Level.isBinary]
    subst hu
    rw [binary_of_not_isBinary rfl] at ho
    exact unary_spelled hc ho
termination_by 16 * c.weight + level.height + 3
decreasing_by
  · have := Level.height_tighter hb; omega
  · have := Level.height_le level; omega
  · omega

theorem chain_spelled {level : Level} {left e : Expr} {c r : Cursor} {ls : List Token}
    (hb : level.isBinary = true) (hc : c.Ended) (hleft : SpelledAt level left ls)
    (ho : chain level left c = .ok e r) :
    ∃ ts, c.Takes ts r ∧ SpelledAt level e (ls ++ ts) := by
  rw [chain_eq] at ho
  cases hop : operatorAt? level c with
  | none =>
    rw [hop] at ho
    cases ho
    exact ⟨[], .refl c, by rwa [List.append_nil]⟩
  | some op =>
    rw [hop] at ho
    obtain ⟨right, d, hright, ho⟩ := Outcome.bind_eq_ok.1 ho
    have hk := kind_ne_eof_of_operatorAt? hop
    have hlt := c.weight_advance_lt hk
    have hw := binary_ok_lt hright
    obtain ⟨hkind, hlevel⟩ := Option.filter_eq_some_iff.1 hop
    have hlevel : op.level = level := by simpa using hlevel
    have hstep := hc.takes_advance hk
    obtain ⟨rs, htake, hspell⟩ := binary_spelled (tighter_ne_primary hb) (hstep.ended hc) hright
    have hnode : SpelledAt level (binaryNode op left right) (ls ++ c.current :: rs) := by
      subst hlevel
      exact spells_binaryNode hkind hb hleft hspell
    have hpassed := hstep.trans htake
    obtain ⟨ts, htake', hspell'⟩ := chain_spelled hb (hpassed.ended hc) hnode ho
    exact ⟨_, hpassed.trans htake', by simpa using hspell'⟩
termination_by 16 * c.weight
decreasing_by
  · have := Level.height_le level.tighter; omega
  · omega

theorem unary_spelled {c r : Cursor} {e : Expr} (hc : c.Ended) (ho : unary c = .ok e r) :
    ∃ ts, c.Takes ts r ∧ SpelledAt .unary e ts := by
  rw [unary_eq] at ho
  cases hop : UnaryOp.ofKind? c.kind with
  | none =>
    rw [hop] at ho
    obtain ⟨ts, htake, hspell⟩ := primary_spelled hc ho
    exact ⟨ts, htake, hspell.mono (by decide)⟩
  | some op =>
    rw [hop] at ho
    obtain ⟨operand, hoperand, rfl⟩ := Outcome.map_eq_ok.1 ho
    have hk := kind_ne_eof_of_unaryOp hop
    have hlt := c.weight_advance_lt hk
    have hstep := hc.takes_advance hk
    obtain ⟨ts, htake, hspell⟩ := unary_spelled (hstep.ended hc) hoperand
    exact ⟨_, hstep.trans htake, spells_unaryNode hop hspell⟩
termination_by 16 * c.weight + 2

theorem primary_spelled {c r : Cursor} {e : Expr} (hc : c.Ended) (ho : primary c = .ok e r) :
    ∃ ts, c.Takes ts r ∧ SpelledAt .primary e ts := by
  rw [primary_eq] at ho
  by_cases hk : c.kind = .eof
  · rw [hk] at ho
    cases ho
  have hlt := c.weight_advance_lt hk
  have hlt2 := Nat.lt_of_le_of_lt c.advance.weight_advance_le hlt
  have hstep := hc.takes_advance hk
  have hone : HullInOrder c.current.span [c.current] := fun _ => hull_one c.current
  split at ho
  · next hkind =>
    cases ho
    exact ⟨_, hstep, spells_integerLiteral hkind⟩
  · next hkind =>
    cases ho
    exact ⟨_, hstep, trivial, Nat.le_refl _, hone, rfl, c.current, rfl, hkind, rfl⟩
  · next hkind =>
    cases ho
    exact ⟨_, hstep, trivial, Nat.le_refl _, hone, rfl, c.current, rfl, hkind⟩
  · next hkind =>
    cases ho
    exact ⟨_, hstep, trivial, Nat.le_refl _, hone, rfl, c.current, rfl, hkind⟩
  · next hkind =>
    cases ho
    exact ⟨_, hstep, trivial, Nat.le_refl _, hone, rfl, c.current, rfl, hkind⟩
  · next hkind =>
    split at ho
    · next hparen =>
      have hstep' := (hstep.ended hc).takes_advance (by rw [hparen]; decide)
      have hpassed := hstep.trans hstep'
      obtain ⟨ts, htake, hspell⟩ := callRest_spelled (hpassed.ended hc) hkind hparen hpassed.passed ho
      exact ⟨_, hpassed.trans htake, hspell⟩
    · cases ho
      exact ⟨_, hstep, trivial, Nat.le_refl _, hone, rfl, c.current, rfl, hkind, rfl⟩
  · next hkind =>
    obtain ⟨ts, htake, hspell⟩ := listRest_spelled (hstep.ended hc) hkind hstep.passed ho
    exact ⟨_, hstep.trans htake, hspell⟩
  · next hkind =>
    obtain ⟨ts, htake, hspell⟩ := groupRest_spelled (hstep.ended hc) hkind hstep.passed ho
    exact ⟨_, hstep.trans htake, hspell⟩
  · cases ho
termination_by 16 * c.weight + 1

theorem callRest_spelled {name paren : Token} {b : List Token} {c r : Cursor} {e : Expr}
    (hc : c.Ended) (hname : name.kind = .identifier) (hparen : paren.kind = .leftParen)
    (hb : c.PassedSince b [name, paren]) (ho : callRest name c = .ok e r) :
    ∃ ts, c.Takes ts r ∧ SpelledAt .primary e (name :: paren :: ts) := by
  rw [callRest_eq] at ho
  obtain ⟨args, d, hargs, ho⟩ := Outcome.bind_eq_ok.1 ho
  obtain ⟨is, htake, hgroup, hspell⟩ := items_spelled hc hargs
  obtain ⟨n, close, htake', rfl, hspan, hclose⟩ := close_ok (htake.ended hc) (by decide) ho
  have hall := hb.trans (htake.trans htake').passed
  exact ⟨_, htake.trans htake', hgroup, Nat.le_refl _, hspan ▸ hall.spanFrom, name, paren, is, close,
    rfl, hname, rfl, hparen, hspell, hclose⟩
termination_by 16 * c.weight + 12

theorem listRest_spelled {opening : Token} {b : List Token} {c r : Cursor} {e : Expr}
    (hc : c.Ended) (hopen : opening.kind = .leftBracket) (hb : c.PassedSince b [opening])
    (ho : listRest opening c = .ok e r) :
    ∃ ts, c.Takes ts r ∧ SpelledAt .primary e (opening :: ts) := by
  rw [listRest_eq] at ho
  obtain ⟨es, d, hes, ho⟩ := Outcome.bind_eq_ok.1 ho
  obtain ⟨is, htake, hgroup, hspell⟩ := items_spelled hc hes
  obtain ⟨n, close, htake', rfl, hspan, hclose⟩ := close_ok (htake.ended hc) (by decide) ho
  have hall := hb.trans (htake.trans htake').passed
  exact ⟨_, htake.trans htake', hgroup, Nat.le_refl _, hspan ▸ hall.spanFrom, opening, is, close, rfl,
    hopen, hspell, hclose⟩
termination_by 16 * c.weight + 12

theorem groupRest_spelled {opening : Token} {b : List Token} {c r : Cursor} {e : Expr}
    (hc : c.Ended) (hopen : opening.kind = .leftParen) (hb : c.PassedSince b [opening])
    (ho : groupRest opening c = .ok e r) :
    ∃ ts, c.Takes ts r ∧ SpelledAt .primary e (opening :: ts) := by
  rw [groupRest_eq] at ho
  obtain ⟨inner, d, hinner, ho⟩ := Outcome.bind_eq_ok.1 ho
  obtain ⟨is, htake, hspell⟩ := binary_spelled (by decide) hc hinner
  obtain ⟨n, close, htake', rfl, hspan, hclose⟩ := close_ok (htake.ended hc) (by decide) ho
  have hall := hb.trans (htake.trans htake').passed
  exact ⟨_, htake.trans htake', hspell.grouped, Nat.le_refl _, hspan ▸ hall.spanFrom, opening, is,
    close, rfl, hopen, hspell.spells, hclose⟩
termination_by 16 * c.weight + 12
decreasing_by simp only [Level.height]; omega

theorem items_spelled {closing : Kind} {c r : Cursor} {es : List Expr} (hc : c.Ended)
    (ho : items closing c = .ok es r) :
    ∃ ts, c.Takes ts r ∧ GroupedAll es ∧ SpellsAll HullInOrder es ts := by
  rw [items_eq] at ho
  split at ho
  · cases ho
    exact ⟨[], .refl c, trivial, rfl⟩
  · obtain ⟨ts, htake, -, hgroup, hspell⟩ := seq_spelled hc ho
    exact ⟨ts, htake, hgroup, hspell⟩
termination_by 16 * c.weight + 11

theorem seq_spelled {c r : Cursor} {es : List Expr} (hc : c.Ended) (ho : seq c = .ok es r) :
    ∃ ts, c.Takes ts r ∧ es ≠ [] ∧ GroupedAll es ∧ SpellsAll HullInOrder es ts := by
  rw [seq_eq] at ho
  obtain ⟨e, d, hfirst, ho⟩ := Outcome.bind_eq_ok.1 ho
  have hw := binary_ok_lt hfirst
  obtain ⟨ts, htake, hspell⟩ := binary_spelled (by decide) hc hfirst
  cases ha : d.accept? .comma with
  | none =>
    rw [ha] at ho
    cases ho
    exact ⟨ts, htake, by simp, ⟨hspell.grouped, trivial⟩, hspell.spells⟩
  | some d' =>
    rw [ha] at ho
    obtain ⟨es, hmore, rfl⟩ := Outcome.map_eq_ok.1 ho
    have hd' := Cursor.weight_accept?_lt (by decide) ha
    obtain ⟨hcomma, hstep⟩ := (htake.ended hc).takes_accept? (by decide) ha
    have hpassed := htake.trans hstep
    obtain ⟨us, htake', hne, hgroup, hspells⟩ := seq_spelled (hpassed.ended hc) hmore
    refine ⟨_, hpassed.trans htake', by simp, ⟨hspell.grouped, hgroup⟩, ?_⟩
    rw [List.append_assoc]
    exact SpellsAll.cons hspell.spells hcomma hne hspells
termination_by 16 * c.weight + 10
decreasing_by
  · simp only [Level.height]; omega
  · omega

end

theorem expr_spelled {c r : Cursor} {e : Expr} (hc : c.Ended) (ho : expr c = .ok e r) :
    ∃ ts, c.Takes ts r ∧ SpelledAt .equality e ts :=
  binary_spelled (by decide) hc ho

end Grammar

end CatScript
