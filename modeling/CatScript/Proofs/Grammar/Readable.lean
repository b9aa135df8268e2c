import CatScript.Proofs.Grammar.Accepted

/-!
# Reading types and expressions to their end

A type or an expression of the grammar is read to its end and not beyond, without a diagnostic, if
what stands behind it cannot go on with it: behind an expression no operator and no `(`, behind a
type no `<`. The proof is by induction on the derivation. A chain of operators is read from the
left, so the statement about a phrase of a level is that its reader comes to the end of the phrase
with all operands so far as one left operand (`ReadLevel`).
-/
namespace CatScript

open Token (Kind)

namespace Grammar

/-! ## What stands behind a phrase -/

theorem Mark.not_startsWith {k : Kind} {kinds : List Kind} {a b : List Token} (h : Mark k a b)
    (hk : k ∉ kinds) : ¬ StartsWith kinds a := by
  rintro ⟨t, tail, rfl, ht⟩
  obtain ⟨u, rfl, he⟩ := h
  cases he
  exact hk ht

/-- No operator that binds tighter than the level stands next, and no `(`. -/
def Stops (level : Level) (ts : List Token) : Prop :=
  ∀ t rest, ts = t :: rest → t.kind ≠ .leftParen ∧
    ∀ op, BinaryOp.ofKind? t.kind = some op → level.height ≤ op.level.height

theorem Stops.mono {l m : Level} {ts : List Token} (h : Stops l ts) (hm : m.height ≤ l.height) :
    Stops m ts := by
  intro t rest he
  exact ⟨(h t rest he).1, fun op hop => Nat.le_trans hm ((h t rest he).2 op hop)⟩

/-- What can stand behind a whole expression. -/
def endKinds : List Kind :=
  [.rightParen, .rightBracket, .comma, .equal, .rightBrace] ++ stmtKinds

theorem stops_of_startsWith {level : Level} {ts : List Token} (h : StartsWith endKinds ts) :
    Stops level ts := by
  have hall : ∀ k ∈ endKinds, k ≠ .leftParen ∧ BinaryOp.ofKind? k = none := by decide
  obtain ⟨t, rest, rfl, ht⟩ := h
  intro u tail he
  cases he
  obtain ⟨hparen, hop⟩ := hall _ ht
  exact ⟨hparen, fun op h => by rw [hop] at h; cases h⟩

theorem Mark.stops {k : Kind} {level : Level} {a b : List Token} (h : Mark k a b)
    (hk : k ∈ endKinds) : Stops level a :=
  stops_of_startsWith (h.startsWith hk)

theorem StartsWith.mono {kinds kinds' : List Kind} {ts : List Token} (h : StartsWith kinds ts)
    (hk : kinds ⊆ kinds') : StartsWith kinds' ts := by
  obtain ⟨t, rest, he, ht⟩ := h
  exact ⟨t, rest, he, hk ht⟩

/-! ## Types and parameters -/

theorem typeName_of_bare {c : Cursor} (hk : c.kind = .identifier) (hn : c.current.value = "list")
    (hd : c.advance.accept? .less = none) :
    typeName c = (⟨.list .object, c.advance.spanFrom c.current.span, []⟩, c.advance) := by
  unfold typeName
  rw [typeNameWithin]
  simp only [hk, hn, dite_true, if_true]
  split
  · rfl
  · next d h => rw [hd] at h; cases h

theorem typeName_of_simple {c : Cursor} {t : Ty} (hk : c.kind = .identifier)
    (hn : c.current.value ≠ "list") (ht : simpleType? c.current.value = some t) :
    typeName c = (⟨t, c.advance.spanFrom c.current.span, []⟩, c.advance) := by
  unfold typeName
  rw [typeNameWithin]
  simp only [hk, hn, ht, dite_true, if_false]

theorem simpleType?_isSome {name : String}
    (h : name ∈ ["int", "bool", "string", "object", "void", "list"]) (hn : name ≠ "list") :
    ∃ t, simpleType? name = some t := by
  simp only [List.mem_cons, List.not_mem_nil, or_false] at h
  rcases h with rfl | rfl | rfl | rfl | rfl | rfl
  · exact ⟨_, rfl⟩
  · exact ⟨_, rfl⟩
  · exact ⟨_, rfl⟩
  · exact ⟨_, rfl⟩
  · exact ⟨_, rfl⟩
  · exact absurd rfl hn

theorem TypePhrase.read {ts rest : List Token} (h : TypePhrase ts rest)
    (hrest : ¬ StartsWith [.less] rest) {c : Cursor} (hc : c.Faces ts) :
    (typeName c).1.errors = [] ∧ (typeName c).2.Faces rest := by
  induction h generalizing c with
  | @named a b hw =>
    obtain ⟨t, hk, hv, rfl⟩ := hw
    have hkind := hc.kind_cons.trans hk
    by_cases hl : t.value = "list"
    · rw [typeName_of_bare hkind (hc.current ▸ hl) (hc.advance.accept?_eq_none hrest (by decide))]
      exact ⟨rfl, hc.advance⟩
    · obtain ⟨ty, hty⟩ := simpleType?_isSome hv hl
      rw [typeName_of_simple hkind (hc.current ▸ hl) (hc.current ▸ hty)]
      exact ⟨rfl, hc.advance⟩
  | list hw hless _ hgt ih =>
    obtain ⟨t, hk, hv, rfl⟩ := hw
    obtain ⟨d, hd, hd'⟩ := hc.advance.accept?_of_mark hless
    obtain ⟨he, hr⟩ := ih (hgt.not_startsWith (by decide)) hd'
    have hsplit : splitGreater (typeName d).2 = (typeName d).2 := by
      refine if_neg ?_
      rw [hr.kind_of_mark hgt]
      decide
    obtain ⟨hce, hclosed⟩ := hr.expect_of_mark hgt
    rw [typeName_of_list (hc.kind_cons.trans hk) (hc.current ▸ List.mem_singleton.1 hv) hd]
    simp only [hsplit, he, hce]
    exact ⟨rfl, hclosed⟩
  | glued hw hless _ hge ih =>
    obtain ⟨t, hk, hv, rfl⟩ := hw
    obtain ⟨d, hd, hd'⟩ := hc.advance.accept?_of_mark hless
    obtain ⟨he, hr⟩ := ih (Mark.not_startsWith ⟨_, hge, rfl⟩ (by decide)) hd'
    have hsplit : splitGreater (typeName d).2 = (typeName d).2.split .greater .equal :=
      if_pos (hr.kind_cons.trans hge)
    obtain ⟨halves, hgt, hs⟩ := hr.split hge
    obtain ⟨hce, hclosed⟩ := hs.expect_of_mark hgt
    rw [typeName_of_list (hc.kind_cons.trans hk) (hc.current ▸ List.mem_singleton.1 hv) hd]
    simp only [hsplit, he, hce]
    exact ⟨rfl, hclosed⟩

theorem Annotation.read {ts rest : List Token} (h : Annotation ts rest)
    (hrest : ¬ StartsWith [.less, .colon] rest) {c : Cursor} (hc : c.Faces ts) :
    ((declaredType c).1.map (·.errors)).getD [] = [] ∧ (declaredType c).2.Faces rest := by
  unfold declaredType
  cases h with
  | none =>
    rw [hc.accept?_eq_none (fun hs => hrest (hs.mono (by decide))) (by decide)]
    exact ⟨rfl, hc⟩
  | some hcolon ht =>
    obtain ⟨d, hd, hd'⟩ := hc.accept?_of_mark hcolon
    rw [hd]
    exact ht.read (fun hs => hrest (hs.mono (by decide))) hd'

theorem params_of_last {c : Cursor} (hk : c.kind = .identifier)
    (hc : (declaredType c.advance).2.accept? .comma = none) :
    params c = ([⟨c.current.value, (declaredType c.advance).1⟩], (declaredType c.advance).2) := by
  rw [params, dif_pos hk]
  dsimp only
  split
  · rfl
  · next h => rw [hc] at h; cases h

theorem params_of_more {c d : Cursor} (hk : c.kind = .identifier)
    (hc : (declaredType c.advance).2.accept? .comma = some d) :
    params c = (⟨c.current.value, (declaredType c.advance).1⟩ :: (params d).1, (params d).2) := by
  rw [params, dif_pos hk]
  dsimp only
  split
  · next h => rw [hc] at h; cases h
  · next h => rw [hc] at h; cases h; rfl

theorem Parameters.read {ts rest : List Token} (h : Parameters ts rest)
    (hrest : StartsWith [.rightParen] rest) {c : Cursor} (hc : c.Faces ts) :
    ((params c).1.flatMap fun p => (p.declared.map (·.errors)).getD []) = [] ∧
      (params c).2.Faces rest := by
  have hnot : ∀ {kinds : List Kind} {a : List Token}, StartsWith [.rightParen] a →
      Kind.rightParen ∉ kinds → ¬ StartsWith kinds a := by
    rintro kinds a ⟨t, tail, he, ht⟩ hk
    exact Mark.not_startsWith ⟨t, List.mem_singleton.1 ht, he⟩ hk
  induction h generalizing c with
  | none =>
    have hk : ¬ c.kind = .identifier := by
      rw [List.mem_singleton.1 (hc.kind_mem hrest)]
      decide
    rw [params, dif_neg hk]
    exact ⟨rfl, hc⟩
  | last hname hty =>
    obtain ⟨he, hr⟩ := hty.read (hnot hrest (by decide)) (hc.advance_of_mark hname)
    rw [params_of_last (hc.kind_of_mark hname) (hr.accept?_eq_none (hnot hrest (by decide))
      (by decide))]
    exact ⟨by simpa using he, hr⟩
  | more hname hty hcomma _ ih =>
    obtain ⟨he, hr⟩ := hty.read (hcomma.not_startsWith (by decide)) (hc.advance_of_mark hname)
    obtain ⟨d, hd, hd'⟩ := hr.accept?_of_mark hcomma
    obtain ⟨hes, hr'⟩ := ih hrest hd'
    rw [params_of_more (hc.kind_of_mark hname) hd, List.flatMap_cons, hes, List.append_nil]
    exact ⟨he, hr'⟩

/-! ## Expressions -/

/-- Reading succeeds without a diagnostic, in front of `rest`. -/
def Outcome.Clean {α : Type} (diagnostics : α → List Diagnostic) (o : Outcome α)
    (rest : List Token) : Prop :=
  ∃ x r, o = .ok x r ∧ diagnostics x = [] ∧ r.Faces rest

theorem height_level (op : BinaryOp) : 2 ≤ op.level.height := by cases op <;> decide

/-- A chain ends where no operator of its level stands. -/
theorem chain_of_ne {level : Level} {c : Cursor}
    (h : ∀ op, BinaryOp.ofKind? c.kind = some op → op.level ≠ level) (e : Expr) :
    chain level e c = .ok e c := by
  have hop : operatorAt? level c = none := by
    refine Option.filter_eq_none_iff.2 fun op hop => ?_
    simpa using h op hop
  rw [chain_eq, hop]

theorem chain_of_height {level : Level} (h : level.height < 2) (e : Expr) (c : Cursor) :
    chain level e c = .ok e c := by
  refine chain_of_ne (fun op _ he => ?_) e
  have := height_level op
  rw [he] at this
  omega

theorem Stops.chain_eq {l m : Level} {ts : List Token} {c : Cursor} (h : Stops l ts)
    (hc : c.Faces ts) (hm : m.height < l.height) (e : Expr) : chain m e c = .ok e c := by
  refine chain_of_ne (fun op hop he => ?_) e
  obtain ⟨tail, rfl, -⟩ := hc.uncons fun hk => by rw [hk] at hop; cases hop
  have := (h _ tail rfl).2 op hop
  rw [he] at this
  omega

/-- The reader of the level comes to the end of a phrase with one left operand in hand. -/
def ReadLevel (level : Level) (ts rest : List Token) : Prop :=
  ∀ c, c.Faces ts → ∃ e r, binary level c = chain level e r ∧ e.diagnostics = [] ∧ r.Faces rest

/-- What reading makes of a phrase. -/
def ExprPhrase.Read : ExprPhrase.Symbol → List Token → List Token → Prop
  | .level l, ts, rest => Stops l rest → ReadLevel l ts rest
  | .items, ts, rest => StartsWith [.rightParen, .rightBracket] rest → ∀ c, c.Faces ts →
    (seq c).Clean Expr.diagnosticsOfAll rest
  | .args, ts, rest => ∀ closing ∈ [Kind.rightParen, .rightBracket], StartsWith [closing] rest →
    ∀ c, c.Faces ts → (items closing c).Clean Expr.diagnosticsOfAll rest

theorem readLevel_operand {l : Level} {a b : List Token} (hl : l.isBinary = true)
    (hs : Stops l b) (ih : ReadLevel l.tighter a b) : ReadLevel l a b := by
  intro c hc
  obtain ⟨e, r, hb, he, hr⟩ := ih c hc
  have hlt : l.tighter.height < l.height := by
    have := Level.height_tighter hl
    omega
  rw [hs.chain_eq hr hlt] at hb
  exact ⟨e, r, by rw [binary_of_isBinary hl, hb]; rfl, he, hr⟩

theorem Operator.stops {l : Level} {a b : List Token} (h : Operator l a b) : Stops l a := by
  obtain ⟨t, op, hop, rfl, rfl⟩ := h
  intro u tail he
  cases he
  refine ⟨fun hk => ?_, fun op' hop' => ?_⟩
  · rw [hk] at hop
    cases hop
  · rw [hop] at hop'
    cases hop'
    exact Nat.le_refl _

theorem readLevel_binary {l : Level} {a b b' d : List Token} (hl : l.isBinary = true)
    (hs : Stops l d) (ih : ReadLevel l a b) (hop : Operator l b b')
    (ih' : ReadLevel l.tighter b' d) : ReadLevel l a d := by
  intro c hc
  obtain ⟨left, r, hleft, he, hr⟩ := ih c hc
  obtain ⟨t, op, hkind, hlevel, rfl⟩ := hop
  obtain ⟨right, r', hright, he', hr'⟩ := ih' r.advance hr.advance
  have hlt : l.tighter.height < l.height := by
    have := Level.height_tighter hl
    omega
  rw [hs.chain_eq hr' hlt] at hright
  have hat : operatorAt? l r = some op :=
    Option.filter_eq_some_iff.2 ⟨by rw [hr.kind_cons, hkind], by simpa using hlevel⟩
  refine ⟨binaryNode op left right, r', ?_, ?_, hr'⟩
  · rw [hleft, Grammar.chain_eq, hat, hright]
    rfl
  · simp [binaryNode, Expr.diagnostics, Expr.Note.fresh, he, he']

theorem readLevel_unary {a b d : List Token} (hs : Sign a b) (ih : ReadLevel .unary b d) :
    ReadLevel .unary a d := by
  intro c hc
  obtain ⟨t, op, hop, rfl⟩ := hs
  obtain ⟨e, r, hb, he, hr⟩ := ih c.advance hc.advance
  rw [chain_of_height (by decide), binary_of_not_isBinary rfl] at hb
  refine ⟨unaryNode c.current op e, r, ?_, ?_, hr⟩
  · rw [chain_of_height (by decide), binary_of_not_isBinary rfl, unary_eq, hc.kind_cons, hop, hb]
    rfl
  · simp [unaryNode, Expr.diagnostics, Expr.Note.fresh, he]

/-- A primary expression is one of every level up to unary operators. -/
theorem readLevel_primary {a b : List Token}
    (h : ∀ c, c.Faces a → UnaryOp.ofKind? c.kind = none ∧ (primary c).Clean Expr.diagnostics b) :
    ReadLevel .primary a b := by
  intro c hc
  obtain ⟨hop, e, r, hp, he, hr⟩ := h c hc
  refine ⟨e, r, ?_, he, hr⟩
  rw [chain_of_height (by decide), binary_of_not_isBinary rfl, unary_eq, hop, hp]

theorem close_clean {opening : Token} {closing : Kind} {cause : Cause} {build : Expr.Note → Expr}
    {c : Cursor} {ts rest : List Token} (hc : c.Faces ts) (hm : Mark closing ts rest)
    (hb : ∀ span, (build (.fresh span [])).diagnostics = []) :
    (close opening closing cause build c).Clean Expr.diagnostics rest := by
  obtain ⟨he, hr⟩ := hc.expectOr_of_mark hm cause
  refine ⟨_, _, rfl, ?_, hr⟩
  rw [he]
  exact hb _

/-- The arguments of a call with its closing bracket. -/
theorem callRest_clean {name : Token} {b d rest : List Token} (h : ExprPhrase.Read .args b d)
    (hm : Mark .rightParen d rest) {c : Cursor} (hc : c.Faces b) :
    (callRest name c).Clean Expr.diagnostics rest := by
  obtain ⟨es, r, hes, he, hr⟩ := h .rightParen (by decide) (hm.startsWith (by decide)) c hc
  rw [callRest_eq, hes, Outcome.bind_ok]
  refine close_clean hr hm fun span => ?_
  simp [Expr.diagnostics, Expr.Note.fresh, he]

theorem listRest_clean {opening : Token} {b d rest : List Token} (h : ExprPhrase.Read .args b d)
    (hm : Mark .rightBracket d rest) {c : Cursor} (hc : c.Faces b) :
    (listRest opening c).Clean Expr.diagnostics rest := by
  obtain ⟨es, r, hes, he, hr⟩ := h .rightBracket (by decide) (hm.startsWith (by decide)) c hc
  rw [listRest_eq, hes, Outcome.bind_ok]
  refine close_clean hr hm fun span => ?_
  simp [Expr.diagnostics, Expr.Note.fresh, he]

theorem ReadLevel.expr_clean {ts rest : List Token} (h : ReadLevel .equality ts rest)
    (hs : Stops .default rest) {c : Cursor} (hc : c.Faces ts) :
    (expr c).Clean Expr.diagnostics rest := by
  obtain ⟨e, r, hb, he, hr⟩ := h c hc
  exact ⟨e, r, hb.trans (hs.chain_eq hr (by decide) e), he, hr⟩

theorem groupRest_clean {opening : Token} {b d rest : List Token} (h : ReadLevel .equality b d)
    (hm : Mark .rightParen d rest) {c : Cursor} (hc : c.Faces b) :
    (groupRest opening c).Clean Expr.diagnostics rest := by
  obtain ⟨e, r, hb, he, hr⟩ := h.expr_clean (hm.stops (by decide)) hc
  rw [groupRest_eq, hb, Outcome.bind_ok]
  refine close_clean hr hm fun span => ?_
  simp [Expr.diagnostics, Expr.Note.fresh, he]

theorem primary_clean_of_atom {k : Kind} {a b : List Token} {c : Cursor}
    (hk : k ∈ [Kind.string, .kwTrue, .kwFalse, .kwNull, .identifier]) (hm : Mark k a b)
    (hs : Stops .primary b) (hc : c.Faces a) : (primary c).Clean Expr.diagnostics b := by
  have hkind := hc.kind_of_mark hm
  have hr := hc.advance_of_mark hm
  simp only [List.mem_cons, List.not_mem_nil, or_false] at hk
  rw [primary_eq, hkind]
  rcases hk with rfl | rfl | rfl | rfl | rfl
  · exact ⟨_, _, rfl, by simp [Expr.diagnostics, Expr.Note.fresh], hr⟩
  · exact ⟨_, _, rfl, by simp [Expr.diagnostics, Expr.Note.fresh], hr⟩
  · exact ⟨_, _, rfl, by simp [Expr.diagnostics, Expr.Note.fresh], hr⟩
  · exact ⟨_, _, rfl, by simp [Expr.diagnostics, Expr.Note.fresh], hr⟩
  · have hparen : ¬ c.advance.kind = .leftParen := by
      intro hp
      obtain ⟨tail, rfl, -⟩ := hr.uncons (by rw [hp]; decide)
      exact (hs _ tail rfl).1 hp
    simp only [if_neg hparen]
    exact ⟨_, _, rfl, by simp [Expr.diagnostics, Expr.Note.fresh], hr⟩

/-- Every phrase of the grammar of expressions is read to its end. -/
theorem ExprPhrase.read {S : ExprPhrase.Symbol} {ts rest : List Token} (h : ExprPhrase S ts rest) :
    ExprPhrase.Read S ts rest := by
  induction h with
  | operand hl _ ih =>
    intro hs
    have := Level.height_tighter hl
    exact readLevel_operand hl hs (ih (hs.mono (by omega)))
  | binary hl _ hop _ ih ih' =>
    intro hs
    have := Level.height_tighter hl
    exact readLevel_binary hl hs (ih hop.stops) hop (ih' (hs.mono (by omega)))
  | unary hsign _ ih => exact fun hs => readLevel_unary hsign (ih hs)
  | primary _ ih =>
    intro hs c hc
    obtain ⟨e, r, hb, he, hr⟩ := ih (hs.mono (by decide)) c hc
    rw [chain_of_height (by decide), binary_of_not_isBinary rfl] at hb
    refine ⟨e, r, ?_, he, hr⟩
    rw [chain_of_height (by decide), binary_of_not_isBinary rfl, hb]
  | integer hi =>
    intro hs
    refine readLevel_primary fun c hc => ?_
    obtain ⟨t, hk, hv, rfl⟩ := hi
    have hkind := hc.kind_cons.trans hk
    have hlex := hc.lexical t (List.mem_cons_self ..)
    refine ⟨by rw [hkind]; rfl, integerLiteral c.current, c.advance, by rw [primary_eq, hkind], ?_,
      hc.advance⟩
    rw [hc.current]
    exact (hlex.integerLiteral_iff hk).2 hv
  | @atom k _ _ hk hm =>
    intro hs
    refine readLevel_primary fun c hc => ⟨?_, primary_clean_of_atom hk hm hs hc⟩
    have hall : ∀ k ∈ [Kind.string, .kwTrue, .kwFalse, .kwNull, .identifier],
        UnaryOp.ofKind? k = none := by decide
    rw [hc.kind_of_mark hm]
    exact hall k hk
  | call hname hopen _ hclose ih =>
    intro hs
    refine readLevel_primary fun c hc => ?_
    have hkind := hc.kind_of_mark hname
    have hb := hc.advance_of_mark hname
    refine ⟨by rw [hkind]; rfl, ?_⟩
    rw [primary_eq, hkind]
    simp only [if_pos (hb.kind_of_mark hopen)]
    exact callRest_clean ih hclose (hb.advance_of_mark hopen)
  | list hopen _ hclose ih =>
    intro hs
    refine readLevel_primary fun c hc => ?_
    have hkind := hc.kind_of_mark hopen
    refine ⟨by rw [hkind]; rfl, ?_⟩
    rw [primary_eq, hkind]
    exact listRest_clean ih hclose (hc.advance_of_mark hopen)
  | group hopen _ hclose ih =>
    intro hs
    refine readLevel_primary fun c hc => ?_
    have hkind := hc.kind_of_mark hopen
    refine ⟨by rw [hkind]; rfl, ?_⟩
    rw [primary_eq, hkind]
    exact groupRest_clean (ih (hclose.stops (by decide))) hclose (hc.advance_of_mark hopen)
  | one _ ih =>
    intro hrest c hc
    have hs : ∀ {l : Level}, Stops l _ := stops_of_startsWith (hrest.mono (by decide))
    obtain ⟨e, r, hb, he, hr⟩ := (ih hs).expr_clean hs hc
    have hcomma : r.accept? .comma = none := by
      obtain ⟨t, tail, rfl, ht⟩ := hrest
      refine hr.accept?_eq_none (Mark.not_startsWith ⟨t, rfl, rfl⟩ fun h => ?_) (by decide)
      rw [List.mem_singleton.1 h] at ht
      revert ht
      decide
    refine ⟨[e], r, ?_, by simp [Expr.diagnosticsOfAll, he], hr⟩
    rw [seq_eq, hb, Outcome.bind_ok, hcomma]
  | more _ hcomma _ ih ih' =>
    intro hrest c hc
    have hs : ∀ {l : Level}, Stops l _ := hcomma.stops (by decide)
    obtain ⟨e, r, hb, he, hr⟩ := (ih hs).expr_clean hs hc
    obtain ⟨d, hd, hd'⟩ := hr.accept?_of_mark hcomma
    obtain ⟨es, r', hes, he', hr'⟩ := ih' hrest d hd'
    refine ⟨e :: es, r', ?_, by simp [Expr.diagnosticsOfAll, he, he'], hr'⟩
    rw [seq_eq, hb, Outcome.bind_ok, hd]
    simp only [hes, Outcome.map_ok]
  | nothing a =>
    intro closing _ hrest c hc
    refine ⟨[], c, ?_, rfl, hc⟩
    rw [items_eq, if_pos (List.mem_singleton.1 (hc.kind_mem hrest))]
  | something hitems ih =>
    intro closing hclosing hrest c hc
    have hall : ∀ k ∈ [Kind.rightParen, .rightBracket], k ∉ exprKinds := by decide
    have hk : ¬ c.kind = closing := by
      intro hk
      have hmem := hc.kind_mem (hitems.startsWith (by simp))
      exact hall closing hclosing (hk ▸ hmem)
    rw [items_eq, if_neg hk]
    refine ih (hrest.mono ?_) c hc
    intro k hk
    rw [List.mem_singleton.1 hk]
    exact hclosing

theorem Whole.read {ts rest : List Token} (h : Whole ts rest) (hs : Stops .default rest)
    {c : Cursor} (hc : c.Faces ts) : (expr c).Clean Expr.diagnostics rest :=
  ReadLevel.expr_clean (ExprPhrase.read h (hs.mono (by decide))) hs hc

end Grammar

end CatScript
