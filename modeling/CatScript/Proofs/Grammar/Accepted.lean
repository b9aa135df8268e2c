import CatScript.Grammar.Program
import CatScript.Proofs.Grammar.Facing

/-!
# What is read without a diagnostic

Whatever a reader gives back without a diagnostic is a phrase of the grammar: from the tokens that
the cursor faced before to those that it faces afterwards, and no token in between is passed over.
The proofs follow the readers, with the same measure.
-/
namespace CatScript.Grammar

open Token (Kind)

/-! ## Outcomes -/

theorem Outcome.bind_eq_ok {α β : Type} {o : Outcome α} {f : α → Cursor → Outcome β} {b : β}
    {r : Cursor} :
    o.bind f = .ok b r ↔ ∃ x d, o = .ok x d ∧ f x d = .ok b r := by
  constructor
  · intro h
    cases o with
    | ok x d => exact ⟨x, d, rfl, h⟩
    | failed d => cases h
  · rintro ⟨x, d, rfl, h⟩
    exact h

theorem Outcome.map_eq_ok {α β : Type} {o : Outcome α} {f : α → β} {b : β} {r : Cursor} :
    o.map f = .ok b r ↔ ∃ x, o = .ok x r ∧ f x = b := by
  constructor
  · intro h
    cases o with
    | ok x d => cases h; exact ⟨x, rfl, rfl⟩
    | failed d => cases h
  · rintro ⟨x, rfl, rfl⟩
    rfl

theorem Outcome.Below.lt_of_eq {α : Type} {o : Outcome α} {x : α} {c r : Cursor} (h : o.Below c)
    (ho : o = .ok x r) : r.weight < c.weight := by
  subst ho
  exact h

/-! ## Types and parameters -/

theorem simpleType?_mem {name : String} {t : Ty} (h : simpleType? name = some t) :
    name ∈ ["int", "bool", "string", "object", "void", "list"] := by
  unfold simpleType? at h
  split at h <;> cases h <;> decide

theorem typeNameWithin_phrase (c : Cursor) : ∀ {ts : List Token}, c.Faces ts →
    (typeNameWithin c).1.1.errors = [] →
      ∃ rest, TypePhrase ts rest ∧ (typeNameWithin c).1.2.Faces rest := by
  fun_induction typeNameWithin c
  case case1 c name hk hlt hn hc =>
    intro ts h he
    obtain ⟨rest, rfl, hr⟩ := h.uncons (by rw [hk]; decide)
    refine ⟨rest, .named ⟨c.current, hk, ?_, rfl⟩, hr⟩
    rw [show c.current.value = "list" from hn]
    decide
  case case2 c name hk hlt hn d hd hw element r hle hel closed ih =>
    intro ts h he
    rw [hel] at ih
    obtain ⟨he, hclose⟩ := List.append_eq_nil_iff.1 he
    obtain ⟨b, rfl, hb⟩ := h.uncons (by rw [hk]; decide)
    have hlist : Word ["list"] (c.current :: b) b :=
      ⟨c.current, hk, List.mem_singleton.2 hn, rfl⟩
    obtain ⟨inner, hless, hinner⟩ := hb.accept? hd (by decide)
    obtain ⟨mid, hp, hr⟩ : ∃ mid, TypePhrase inner mid ∧ r.Faces mid := ih hinner he
    by_cases hg : r.kind = .greaterEqual
    · -- the closing `>` is the first half of a `>=`
      obtain ⟨tail, rfl, -⟩ := hr.uncons (by rw [hg]; decide)
      obtain ⟨halves, hgt, hs⟩ := hr.split hg
      have hsplit : splitGreater r = r.split .greater .equal := if_pos hg
      rw [← hsplit] at hs
      obtain ⟨-, hclosed⟩ := hs.expect_of_mark hgt
      exact ⟨_, .glued hlist hless hp hg, hclosed⟩
    · have hsplit : splitGreater r = r := if_neg hg
      rw [← hsplit] at hr
      obtain ⟨rest, hgt, hclosed⟩ := hr.expect hclose (by decide)
      exact ⟨rest, .list hlist hless hp hgt, hclosed⟩
  case case3 c name hk hlt hn t ht =>
    intro ts h he
    obtain ⟨rest, rfl, hr⟩ := h.uncons (by rw [hk]; decide)
    exact ⟨rest, .named ⟨c.current, hk, simpleType?_mem ht, rfl⟩, hr⟩
  case case4 | case5 =>
    intro ts h he
    cases he

theorem typeName_phrase {c : Cursor} {ts : List Token} (h : c.Faces ts) (he : (typeName c).1.errors = []) :
    ∃ rest, TypePhrase ts rest ∧ (typeName c).2.Faces rest :=
  typeNameWithin_phrase c h he

theorem declaredType_phrase {c : Cursor} {ts : List Token} (h : c.Faces ts)
    (he : ((declaredType c).1.map (·.errors)).getD [] = []) :
    ∃ rest, Annotation ts rest ∧ (declaredType c).2.Faces rest := by
  unfold declaredType at he ⊢
  cases hc : c.accept? .colon with
  | none => exact ⟨ts, .none ts, h⟩
  | some d =>
    rw [hc] at he
    obtain ⟨b, hcolon, hd⟩ := h.accept? hc (by decide)
    obtain ⟨rest, ht, hr⟩ := typeName_phrase hd he
    exact ⟨rest, .some hcolon ht, hr⟩

theorem params_phrase (c : Cursor) : ∀ {ts : List Token}, c.Faces ts →
    ((params c).1.flatMap fun p => (p.declared.map (·.errors)).getD []) = [] →
      ∃ rest, Parameters ts rest ∧ (params c).2.Faces rest := by
  fun_induction params c
  case case1 c hk ty hc =>
    intro ts h he
    obtain ⟨b, hname, hb⟩ := h.mark hk (by decide)
    obtain ⟨rest, hty, hr⟩ := declaredType_phrase hb (List.append_eq_nil_iff.1 he).1
    exact ⟨rest, .last hname hty, hr⟩
  case case2 c hk ty d hc more ih =>
    intro ts h he
    obtain ⟨hfirst, hmore⟩ := List.append_eq_nil_iff.1 (List.flatMap_cons ▸ he)
    obtain ⟨b, hname, hb⟩ := h.mark hk (by decide)
    obtain ⟨b', hty, hb'⟩ := declaredType_phrase hb hfirst
    obtain ⟨b'', hcomma, hd⟩ := hb'.accept? hc (by decide)
    obtain ⟨rest, hps, hr⟩ := ih hd hmore
    exact ⟨rest, .more hname hty hcomma hps, hr⟩
  case case3 c hk =>
    intro ts h he
    exact ⟨ts, .none ts, h⟩

/-! ## Expressions -/

theorem binary_ok_lt {level : Level} {c r : Cursor} {e : Expr} (h : binary level c = .ok e r) :
    r.weight < c.weight :=
  (binaryBelow level c).2.lt_of_eq h

theorem tighter_ne_primary {level : Level} (h : level.isBinary = true) :
    level.tighter ≠ .primary := by
  cases level <;> simp_all [Level.isBinary, Level.tighter]

/-- The first operand of a chain without diagnostics has none. -/
theorem chain_left {level : Level} {left e : Expr} {c r : Cursor} (ho : chain level left c = .ok e r)
    (he : e.diagnostics = []) : left.diagnostics = [] := by
  rw [chain_eq] at ho
  cases hop : operatorAt? level c with
  | none =>
    rw [hop] at ho
    cases ho
    exact he
  | some op =>
    rw [hop] at ho
    obtain ⟨right, d, hright, ho⟩ := Outcome.bind_eq_ok.1 ho
    have hlt := c.weight_advance_lt (kind_ne_eof_of_operatorAt? hop)
    have hw := binary_ok_lt hright
    have hnode := chain_left ho he
    exact (List.append_eq_nil_iff.1 hnode).1
termination_by c.weight
decreasing_by omega

mutual

theorem binary_phrase {level : Level} {c r : Cursor} {ts : List Token} {e : Expr}
    (hl : level ≠ .primary) (h : c.Faces ts) (ho : binary level c = .ok e r) (he : e.diagnostics = []) :
    ∃ rest, ExprPhrase (.level level) ts rest ∧ r.Faces rest := by
  by_cases hb : level.isBinary = true
  · rw [binary_of_isBinary hb] at ho
    obtain ⟨left, d, hleft, ho⟩ := Outcome.bind_eq_ok.1 ho
    have hw := binary_ok_lt hleft
    obtain ⟨mid, hp, hd⟩ := binary_phrase (tighter_ne_primary hb) h hleft (chain_left ho he)
    exact chain_phrase hb (.operand hb hp) hd ho he
  · have hu : level = .unary := by
      cases level <;> simp_all [Level.isBinary]
    subst hu
    rw [binary_of_not_isBinary rfl] at ho
    exact unary_phrase h ho he
termination_by 16 * c.weight + level.height + 3
decreasing_by
  · have := Level.height_tighter hb; omega
  · have := Level.height_le level; omega
  · omega

theorem chain_phrase {level : Level} {left e : Expr} {c r : Cursor} {a ts : List Token} (hb : level.isBinary = true)
    (hp : ExprPhrase (.level level) a ts) (h : c.Faces ts) (ho : chain level left c = .ok e r)
    (he : e.diagnostics = []) : ∃ rest, ExprPhrase (.level level) a rest ∧ r.Faces rest := by
  rw [chain_eq] at ho
  cases hop : operatorAt? level c with
  | none =>
    rw [hop] at ho
    cases ho
    exact ⟨ts, hp, h⟩
  | some op =>
    rw [hop] at ho
    obtain ⟨right, d, hright, ho⟩ := Outcome.bind_eq_ok.1 ho
    have hk := kind_ne_eof_of_operatorAt? hop
    have hlt := c.weight_advance_lt hk
    have hw := binary_ok_lt hright
    obtain ⟨hkind, hlevel⟩ := Option.filter_eq_some_iff.1 hop
    obtain ⟨tail, rfl, htail⟩ := h.uncons hk
    have hoperator : Operator level (c.current :: tail) tail :=
      ⟨c.current, op, hkind, by simpa using hlevel, rfl⟩
    have hnode : (binaryNode op left right).diagnostics = [] := chain_left ho he
    obtain ⟨mid, hq, hd⟩ := binary_phrase (tighter_ne_primary hb) htail hright
      (List.append_eq_nil_iff.1 hnode).2
    exact chain_phrase hb (.binary hb hp hoperator hq) hd ho he
termination_by 16 * c.weight
decreasing_by
  · have := Level.height_le level.tighter; omega
  · omega

theorem unary_phrase {c r : Cursor} {ts : List Token} {e : Expr} (h : c.Faces ts) (ho : unary c = .ok e r)
    (he : e.diagnostics = []) : ∃ rest, ExprPhrase (.level .unary) ts rest ∧ r.Faces rest := by
  rw [unary_eq] at ho
  cases hop : UnaryOp.ofKind? c.kind with
  | none =>
    rw [hop] at ho
    obtain ⟨rest, hp, hr⟩ := primary_phrase h ho he
    exact ⟨rest, .primary hp, hr⟩
  | some op =>
    rw [hop] at ho
    obtain ⟨operand, hoperand, rfl⟩ := Outcome.map_eq_ok.1 ho
    have hk := kind_ne_eof_of_unaryOp hop
    have hlt := c.weight_advance_lt hk
    obtain ⟨tail, rfl, htail⟩ := h.uncons hk
    obtain ⟨rest, hp, hr⟩ := unary_phrase htail hoperand he
    exact ⟨rest, .unary ⟨c.current, op, hop, rfl⟩ hp, hr⟩
termination_by 16 * c.weight + 2

theorem primary_phrase {c r : Cursor} {ts : List Token} {e : Expr} (h : c.Faces ts) (ho : primary c = .ok e r)
    (he : e.diagnostics = []) : ∃ rest, ExprPhrase (.level .primary) ts rest ∧ r.Faces rest := by
  rw [primary_eq] at ho
  by_cases hk : c.kind = .eof
  · rw [hk] at ho
    cases ho
  have hlt := c.weight_advance_lt hk
  have hlt2 := Nat.lt_of_le_of_lt c.advance.weight_advance_le hlt
  obtain ⟨tail, rfl, htail⟩ := h.uncons hk
  have hatom : ∀ k, c.kind = k → k ∈ [Kind.string, .kwTrue, .kwFalse, .kwNull, .identifier] →
      ExprPhrase (.level .primary) (c.current :: tail) tail :=
    fun k hck hmem => .atom hmem ⟨c.current, hck, rfl⟩
  split at ho
  · next hkind =>
    cases ho
    have hlex := h.lexical c.current (List.mem_cons_self ..)
    exact ⟨tail, .integer ⟨c.current, hkind, (hlex.integerLiteral_iff hkind).1 he, rfl⟩, htail⟩
  · next hkind => cases ho; exact ⟨tail, hatom _ hkind (by decide), htail⟩
  · next hkind => cases ho; exact ⟨tail, hatom _ hkind (by decide), htail⟩
  · next hkind => cases ho; exact ⟨tail, hatom _ hkind (by decide), htail⟩
  · next hkind => cases ho; exact ⟨tail, hatom _ hkind (by decide), htail⟩
  · next hkind =>
    split at ho
    · next hparen =>
      obtain ⟨inner, hopen, hinner⟩ := htail.mark hparen (by decide)
      obtain ⟨mid, rest, hargs, hclose, hr⟩ := callRest_phrase hinner ho he
      exact ⟨rest, .call ⟨c.current, hkind, rfl⟩ hopen hargs hclose, hr⟩
    · cases ho
      exact ⟨tail, hatom _ hkind (by decide), htail⟩
  · next hkind =>
    obtain ⟨mid, rest, hargs, hclose, hr⟩ := listRest_phrase htail ho he
    exact ⟨rest, .list ⟨c.current, hkind, rfl⟩ hargs hclose, hr⟩
  · next hkind =>
    obtain ⟨mid, rest, hinner, hclose, hr⟩ := groupRest_phrase htail ho he
    exact ⟨rest, .group ⟨c.current, hkind, rfl⟩ hinner hclose, hr⟩
  · cases ho
termination_by 16 * c.weight + 1

theorem callRest_phrase {name : Token} {c r : Cursor} {ts : List Token} {e : Expr}
    (h : c.Faces ts) (ho : callRest name c = .ok e r) (he : e.diagnostics = []) :
    ∃ mid rest, ExprPhrase .args ts mid ∧ Mark .rightParen mid rest ∧ r.Faces rest := by
  rw [callRest_eq] at ho
  obtain ⟨args, d, hargs, ho⟩ := Outcome.bind_eq_ok.1 ho
  cases ho
  obtain ⟨hclose, he⟩ := List.append_eq_nil_iff.1 he
  obtain ⟨mid, hp, hd⟩ := items_phrase h hargs he
  obtain ⟨rest, hm, hr⟩ := hd.expectOr hclose (by decide)
  exact ⟨mid, rest, hp, hm, hr⟩
termination_by 16 * c.weight + 12

theorem listRest_phrase {opening : Token} {c r : Cursor} {ts : List Token} {e : Expr}
    (h : c.Faces ts) (ho : listRest opening c = .ok e r) (he : e.diagnostics = []) :
    ∃ mid rest, ExprPhrase .args ts mid ∧ Mark .rightBracket mid rest ∧ r.Faces rest := by
  rw [listRest_eq] at ho
  obtain ⟨es, d, hes, ho⟩ := Outcome.bind_eq_ok.1 ho
  cases ho
  obtain ⟨hclose, he⟩ := List.append_eq_nil_iff.1 he
  obtain ⟨mid, hp, hd⟩ := items_phrase h hes he
  obtain ⟨rest, hm, hr⟩ := hd.expectOr hclose (by decide)
  exact ⟨mid, rest, hp, hm, hr⟩
termination_by 16 * c.weight + 12

theorem groupRest_phrase {opening : Token} {c r : Cursor} {ts : List Token} {e : Expr}
    (h : c.Faces ts) (ho : groupRest opening c = .ok e r) (he : e.diagnostics = []) :
    ∃ mid rest, Whole ts mid ∧ Mark .rightParen mid rest ∧ r.Faces rest := by
  rw [groupRest_eq] at ho
  obtain ⟨inner, d, hinner, ho⟩ := Outcome.bind_eq_ok.1 ho
  cases ho
  obtain ⟨hclose, he⟩ := List.append_eq_nil_iff.1 he
  obtain ⟨mid, hp, hd⟩ := binary_phrase (by decide) h hinner he
  obtain ⟨rest, hm, hr⟩ := hd.expectOr hclose (by decide)
  exact ⟨mid, rest, hp, hm, hr⟩
termination_by 16 * c.weight + 12
decreasing_by simp only [Level.height]; omega

theorem items_phrase {closing : Kind} {c r : Cursor} {ts : List Token} {es : List Expr}
    (h : c.Faces ts) (ho : items closing c = .ok es r) (he : Expr.diagnosticsOfAll es = []) :
    ∃ rest, ExprPhrase .args ts rest ∧ r.Faces rest := by
  rw [items_eq] at ho
  split at ho
  · cases ho
    exact ⟨ts, .nothing ts, h⟩
  · obtain ⟨rest, hp, hr⟩ := seq_phrase h ho he
    exact ⟨rest, .something hp, hr⟩
termination_by 16 * c.weight + 11

theorem seq_phrase {c r : Cursor} {ts : List Token} {es : List Expr} (h : c.Faces ts)
    (ho : seq c = .ok es r)
    (he : Expr.diagnosticsOfAll es = []) : ∃ rest, ExprPhrase .items ts rest ∧ r.Faces rest := by
  rw [seq_eq] at ho
  obtain ⟨e, d, hfirst, ho⟩ := Outcome.bind_eq_ok.1 ho
  have hw := binary_ok_lt hfirst
  cases hc : d.accept? .comma with
  | none =>
    rw [hc] at ho
    cases ho
    obtain ⟨rest, hp, hr⟩ := binary_phrase (by decide) h hfirst (List.append_eq_nil_iff.1 he).1
    exact ⟨rest, .one hp, hr⟩
  | some d' =>
    rw [hc] at ho
    obtain ⟨es, hmore, rfl⟩ := Outcome.map_eq_ok.1 ho
    have hd' := Cursor.weight_accept?_lt (by decide) hc
    obtain ⟨he, hes⟩ := List.append_eq_nil_iff.1 he
    obtain ⟨mid, hp, hd⟩ := binary_phrase (by decide) h hfirst he
    obtain ⟨next, hcomma, hnext⟩ := hd.accept? hc (by decide)
    obtain ⟨rest, hq, hr⟩ := seq_phrase hnext hmore hes
    exact ⟨rest, .more hp hcomma hq, hr⟩
termination_by 16 * c.weight + 10
decreasing_by
  · simp only [Level.height]; omega
  · simp only [Level.height]; omega
  · omega

end

theorem expr_phrase {c r : Cursor} {ts : List Token} {e : Expr} (h : c.Faces ts)
    (ho : expr c = .ok e r) (he : e.diagnostics = []) :
    ∃ rest, Whole ts rest ∧ r.Faces rest :=
  binary_phrase (by decide) h ho he

/-! ## Statements without a body -/

theorem ofUnexpected_reports (t : Token) : (Stmt.ofUnexpected t).diagnostics ≠ [] := by
  simp [Stmt.ofUnexpected, Stmt.diagnostics]

/-- A statement without diagnostics has not been given up. -/
theorem eq_ok_of_settle {o : Outcome Stmt} (h : (settle o).1.diagnostics = []) :
    o = .ok (settle o).1 (settle o).2 := by
  cases o with
  | ok s r => rfl
  | failed r => exact absurd h (ofUnexpected_reports r.current)

theorem declare_diagnostics (n : Stmt.Note) (x : String) (t : Option TypeName) (e : Expr) :
    (Stmt.declare n x t e).diagnostics =
      n.errors ++ (t.map (·.errors)).getD [] ++ e.diagnostics := by
  cases t <;> simp [Stmt.diagnostics]

section

variable {f : Bool} {start : Token} {c r : Cursor} {ts : List Token} {s : Stmt}

theorem printRest_phrase (hk : start.kind = .kwPrint) (h : c.Faces ts)
    (ho : printRest start c = .ok s r) (hs : s.diagnostics = []) :
    ∃ rest, StmtPhrase .stmt f (start :: ts) rest ∧ r.Faces rest := by
  obtain ⟨e, d, hexpr, ho⟩ := Outcome.bind_eq_ok.1 ho
  cases ho
  simp only [Stmt.diagnostics, List.append_eq_nil_iff] at hs
  obtain ⟨⟨hlp, hrp⟩, he⟩ := hs
  obtain ⟨b, hopen, hb⟩ := h.expect hlp (by decide)
  obtain ⟨b', hwhole, hd⟩ := expr_phrase hb hexpr he
  obtain ⟨rest, hclose, hr⟩ := hd.expect hrp (by decide)
  exact ⟨rest, .print ⟨start, hk, rfl⟩ hopen hwhole hclose, hr⟩

theorem declareRest_phrase (hk : start.kind = .kwVar) (h : c.Faces ts)
    (ho : declareRest start c = .ok s r) (hs : s.diagnostics = []) :
    ∃ rest, StmtPhrase .stmt f (start :: ts) rest ∧ r.Faces rest := by
  obtain ⟨e, d, hexpr, ho⟩ := Outcome.bind_eq_ok.1 ho
  cases ho
  simp only [declare_diagnostics, List.append_eq_nil_iff] at hs
  obtain ⟨⟨⟨hname, heq⟩, hty⟩, he⟩ := hs
  obtain ⟨b, hname, hb⟩ := h.expect hname (by decide)
  obtain ⟨b', hty, hb'⟩ := declaredType_phrase hb hty
  obtain ⟨b'', heq, hb''⟩ := hb'.expect heq (by decide)
  obtain ⟨rest, hwhole, hr⟩ := expr_phrase hb'' hexpr he
  exact ⟨rest, .declare ⟨start, hk, rfl⟩ hname hty heq hwhole, hr⟩

theorem nameRest_phrase (hk : start.kind = .identifier) (h : c.Faces ts)
    (ho : nameRest start c = .ok s r) (hs : s.diagnostics = []) :
    ∃ rest, StmtPhrase .stmt f (start :: ts) rest ∧ r.Faces rest := by
  unfold nameRest at ho
  split at ho
  · next hparen =>
    obtain ⟨e, hcall, rfl⟩ := Outcome.map_eq_ok.1 ho
    simp only [Stmt.diagnostics, List.nil_append] at hs
    obtain ⟨b, hopen, hb⟩ := h.mark hparen (by decide)
    obtain ⟨mid, rest, hargs, hclose, hr⟩ := callRest_phrase hb hcall hs
    exact ⟨rest, .call ⟨start, hk, rfl⟩ hopen hargs hclose, hr⟩
  · next hequal =>
    obtain ⟨e, d, hexpr, ho⟩ := Outcome.bind_eq_ok.1 ho
    cases ho
    simp only [Stmt.diagnostics, List.nil_append] at hs
    obtain ⟨b, heq, hb⟩ := h.mark hequal (by decide)
    obtain ⟨rest, hwhole, hr⟩ := expr_phrase hb hexpr hs
    exact ⟨rest, .assign ⟨start, hk, rfl⟩ heq hwhole, hr⟩
  · cases ho
    exact absurd hs (ofUnexpected_reports start)

theorem returnRest_phrase (hk : start.kind = .kwReturn) (h : c.Faces ts)
    (ho : returnRest start c = .ok s r) (hs : s.diagnostics = []) :
    ∃ rest, StmtPhrase .stmt true (start :: ts) rest ∧ r.Faces rest := by
  unfold returnRest at ho
  split at ho
  · obtain ⟨e, d, hexpr, ho⟩ := Outcome.bind_eq_ok.1 ho
    cases ho
    simp only [Stmt.diagnostics, List.nil_append] at hs
    obtain ⟨rest, hwhole, hr⟩ := expr_phrase h hexpr hs
    exact ⟨rest, .retWith ⟨start, hk, rfl⟩ hwhole, hr⟩
  · next hnot =>
    cases ho
    refine ⟨ts, .ret ⟨start, hk, rfl⟩ fun hstarts => hnot ?_, h⟩
    exact List.contains_iff_mem.2 (h.kind_mem hstarts)

/-- The header of a function, from its name to its result type. -/
theorem header_phrase (h : c.Faces ts) (he : (header c).errors = [])
    (hd : (header c).header.diagnostics = []) :
    ∃ a b d e rest, Mark .identifier ts a ∧ Mark .leftParen a b ∧ Parameters b d ∧
      Mark .rightParen d e ∧ Annotation e rest ∧ (header c).rest.Faces rest := by
  simp only [header, List.append_eq_nil_iff] at he
  obtain ⟨⟨hname, hlp⟩, hrp⟩ := he
  obtain ⟨hps, hresult⟩ := List.append_eq_nil_iff.1 hd
  obtain ⟨a, hname, ha⟩ := h.expect hname (by decide)
  obtain ⟨b, hopen, hb⟩ := ha.expect hlp (by decide)
  obtain ⟨d, hps, hd⟩ := params_phrase _ hb hps
  obtain ⟨e, hclose, he⟩ := hd.expect hrp (by decide)
  obtain ⟨rest, hresult, hr⟩ := declaredType_phrase he hresult
  exact ⟨a, b, d, e, rest, hname, hopen, hps, hclose, hresult, hr⟩

end

/-! ## Statements with a body -/

mutual

theorem stmtRest_phrase {f : Bool} {start : Token} {c r : Cursor} {ts : List Token} {s : Stmt}
    (h : c.Faces ts) (ho : stmtRest f start c = .ok s r) (hs : s.diagnostics = []) :
    ∃ rest, StmtPhrase .stmt f (start :: ts) rest ∧ r.Faces rest := by
  rw [stmtRest_eq] at ho
  split at ho
  · next hk => exact printRest_phrase hk h ho hs
  · next hk => exact declareRest_phrase hk h ho hs
  · next hk => exact nameRest_phrase hk h ho hs
  · next hk => exact forRest_phrase hk h ho hs
  · next hk =>
    obtain ⟨rest, hp, hr⟩ := condRest_phrase hk h ho hs
    exact ⟨rest, .conditional hp, hr⟩
  · next hk => exact defineRest_phrase hk h ho hs
  · next hk =>
    split at ho
    · next hf =>
      subst hf
      exact returnRest_phrase hk h ho hs
    · cases ho
      exact absurd hs (ofUnexpected_reports start)
  · cases ho
    exact absurd hs (ofUnexpected_reports start)
termination_by 4 * c.weight + 3

theorem forRest_phrase {f : Bool} {start : Token} {c r : Cursor} {ts : List Token} {s : Stmt}
    (hk : start.kind = .kwFor) (h : c.Faces ts) (ho : forRest f start c = .ok s r)
    (hs : s.diagnostics = []) : ∃ rest, StmtPhrase .stmt f (start :: ts) rest ∧ r.Faces rest := by
  rw [forRest_eq] at ho
  obtain ⟨e, d, hexpr, ho⟩ := Outcome.bind_eq_ok.1 ho
  cases ho
  simp only [Stmt.diagnostics, List.append_eq_nil_iff] at hs
  obtain ⟨⟨⟨⟨⟨⟨hlp, hname⟩, hin⟩, hrp⟩, hbraces⟩, he⟩, hbody⟩ := hs
  have hw := expr_ok_lt hexpr
  have hw1 := c.weight_expect_le .leftParen
  have hw2 := (c.expect .leftParen).rest.weight_expect_le .identifier
  have hw3 := ((c.expect .leftParen).rest.expect .identifier).rest.weight_expect_le .kwIn
  have hw4 := d.weight_expect_le .rightParen
  obtain ⟨b, hopen, hb⟩ := h.expect hlp (by decide)
  obtain ⟨b₁, hname, hb₁⟩ := hb.expect hname (by decide)
  obtain ⟨b₂, hin, hb₂⟩ := hb₁.expect hin (by decide)
  obtain ⟨b₃, hwhole, hd⟩ := expr_phrase hb₂ hexpr he
  obtain ⟨b₄, hclose, hb₄⟩ := hd.expect hrp (by decide)
  obtain ⟨rest, hbody, hr⟩ := body_phrase hb₄ hbraces hbody
  exact ⟨rest, .forEach ⟨start, hk, rfl⟩ hopen hname hin hwhole hclose hbody, hr⟩
termination_by 4 * c.weight + 2

theorem condRest_phrase {f : Bool} {start : Token} {c r : Cursor} {ts : List Token} {s : Stmt}
    (hk : start.kind = .kwIf) (h : c.Faces ts) (ho : condRest f start c = .ok s r)
    (hs : s.diagnostics = []) :
    ∃ rest, StmtPhrase .conditional f (start :: ts) rest ∧ r.Faces rest := by
  rw [condRest_eq] at ho
  obtain ⟨e, d, hexpr, ho⟩ := Outcome.bind_eq_ok.1 ho
  have hw := expr_ok_lt hexpr
  have hw1 := c.weight_expect_le .leftParen
  have hw2 := d.weight_expect_le .rightParen
  have hw3 := weight_body_le f (d.expect .rightParen).rest
  -- what all three forms have in common
  have hfirst : (c.expect .leftParen).errors = [] → (d.expect .rightParen).errors = [] →
      e.diagnostics = [] → (body f (d.expect .rightParen).rest).errors = [] →
      Stmt.diagnosticsOfAll (body f (d.expect .rightParen).rest).body = [] →
      ∃ a b b₁ b₂, Mark .leftParen ts a ∧ Whole a b ∧ Mark .rightParen b b₁ ∧
        StmtPhrase .body f b₁ b₂ ∧ (body f (d.expect .rightParen).rest).rest.Faces b₂ := by
    intro hlp hrp he hbraces hbody
    obtain ⟨a, hopen, ha⟩ := h.expect hlp (by decide)
    obtain ⟨b, hwhole, hd⟩ := expr_phrase ha hexpr he
    obtain ⟨b₁, hclose, hb₁⟩ := hd.expect hrp (by decide)
    obtain ⟨b₂, hyes, hb₂⟩ := body_phrase hb₁ hbraces hbody
    exact ⟨a, b, b₁, b₂, hopen, hwhole, hclose, hyes, hb₂⟩
  cases hc : (body f (d.expect .rightParen).rest).rest.accept? .kwElse with
  | none =>
    simp only [hc] at ho
    cases ho
    simp only [Stmt.diagnostics, List.append_eq_nil_iff] at hs
    obtain ⟨⟨⟨⟨hlp, hrp⟩, hbraces⟩, he⟩, hbody⟩ := hs
    obtain ⟨a, b, b₁, b₂, hopen, hwhole, hclose, hyes, hr⟩ := hfirst hlp hrp he hbraces hbody
    exact ⟨b₂, .cond ⟨start, hk, rfl⟩ hopen hwhole hclose hyes, hr⟩
  | some d' =>
    have hw4 := Cursor.weight_accept?_lt (by decide) hc
    have hw5 := d'.weight_advance_le
    simp only [hc] at ho
    split at ho
    · next hif =>
      cases ho
      simp only [Stmt.diagnostics, Stmt.diagnosticsOfAll, List.append_eq_nil_iff] at hs
      obtain ⟨⟨⟨⟨⟨hlp, hrp⟩, hbraces⟩, he⟩, hbody⟩, hno, -⟩ := hs
      obtain ⟨a, b, b₁, b₂, hopen, hwhole, hclose, hyes, hr⟩ := hfirst hlp hrp he hbraces hbody
      obtain ⟨b₃, helse, hd'⟩ := hr.accept? hc (by decide)
      obtain ⟨tail, rfl, htail⟩ := hd'.uncons (by rw [hif]; decide)
      have hcond : stmtRest f d'.current d'.advance = condRest f d'.current d'.advance := by
        rw [stmtRest_eq, show d'.current.kind = .kwIf from hif]
      obtain ⟨rest, hp, hr⟩ := condRest_phrase hif htail
        (hcond.symm.trans (eq_ok_of_settle hno)) hno
      exact ⟨rest, .elseCond ⟨start, hk, rfl⟩ hopen hwhole hclose hyes helse hp, hr⟩
    · cases ho
      simp only [Stmt.diagnostics, List.append_eq_nil_iff] at hs
      obtain ⟨⟨⟨⟨⟨⟨hlp, hrp⟩, hbraces⟩, hbraces'⟩, he⟩, hbody⟩, hno⟩ := hs
      obtain ⟨a, b, b₁, b₂, hopen, hwhole, hclose, hyes, hr⟩ := hfirst hlp hrp he hbraces hbody
      obtain ⟨b₃, helse, hd'⟩ := hr.accept? hc (by decide)
      obtain ⟨rest, hp, hr⟩ := body_phrase hd' hbraces' hno
      exact ⟨rest, .elseBody ⟨start, hk, rfl⟩ hopen hwhole hclose hyes helse hp, hr⟩
termination_by 4 * c.weight + 2

theorem defineRest_phrase {f : Bool} {start : Token} {c r : Cursor} {ts : List Token} {s : Stmt}
    (hk : start.kind = .kwFunction) (h : c.Faces ts) (ho : defineRest start c = .ok s r)
    (hs : s.diagnostics = []) : ∃ rest, StmtPhrase .stmt f (start :: ts) rest ∧ r.Faces rest := by
  rw [defineRest_eq] at ho
  cases ho
  simp only [Stmt.diagnostics, List.append_eq_nil_iff] at hs
  obtain ⟨⟨⟨herrors, hbraces⟩, htypes⟩, hbody⟩ := hs
  have hw := weight_header_le c
  obtain ⟨a, b, d, e, mid, hname, hopen, hps, hclose, hresult, hm⟩ := header_phrase h herrors htypes
  obtain ⟨rest, hbody, hr⟩ := body_phrase hm hbraces hbody
  exact ⟨rest, .define ⟨start, hk, rfl⟩ hname hopen hps hclose hresult hbody, hr⟩
termination_by 4 * c.weight + 2

theorem body_phrase {f : Bool} {c : Cursor} {ts : List Token} (h : c.Faces ts)
    (he : (body f c).errors = []) (hb : Stmt.diagnosticsOfAll (body f c).body = []) :
    ∃ rest, StmtPhrase .body f ts rest ∧ (body f c).rest.Faces rest := by
  rw [body_eq] at he hb ⊢
  obtain ⟨hlb, hrb⟩ := List.append_eq_nil_iff.1 he
  have hw := c.weight_expect_le .leftBrace
  obtain ⟨a, hopen, ha⟩ := h.expect hlb (by decide)
  obtain ⟨b, hstmts, hb⟩ := block_phrase ha hb
  obtain ⟨rest, hclose, hr⟩ := hb.expectOr hrb (by decide)
  exact ⟨rest, .body hopen hstmts hclose, hr⟩
termination_by 4 * c.weight + 1

theorem block_phrase {f : Bool} {c : Cursor} {ts : List Token} (h : c.Faces ts)
    (hb : Stmt.diagnosticsOfAll (block f c).1 = []) :
    ∃ rest, StmtPhrase .stmts f ts rest ∧ (block f c).2.Faces rest := by
  rw [block_eq] at hb ⊢
  split at hb
  · next hk =>
    rw [if_pos hk]
    exact ⟨ts, .none ts, h⟩
  · next hk =>
    rw [if_neg hk]
    have heof : c.kind ≠ .eof := fun e => hk (.inl e)
    have hlt := c.weight_advance_lt heof
    have hw := weight_stmt_lt f heof
    obtain ⟨hs, hmore⟩ := List.append_eq_nil_iff.1 hb
    obtain ⟨tail, rfl, htail⟩ := h.uncons heof
    obtain ⟨mid, hp, hm⟩ := stmtRest_phrase htail (eq_ok_of_settle hs) hs
    obtain ⟨rest, hps, hr⟩ := block_phrase hm hmore
    exact ⟨rest, .more hp hps, hr⟩
termination_by 4 * c.weight

end

theorem statements_phrase (c : Cursor) : ∀ {ts : List Token}, c.Faces ts →
    Stmt.diagnosticsOfAll (statements c).1 = [] → StmtPhrase .stmts false ts [] := by
  fun_induction statements c
  case case1 c hk =>
    intro ts h hs
    rw [h.eq_nil hk]
    exact .none []
  case case2 c hk s more ih =>
    intro ts h hs
    obtain ⟨hs, hmore⟩ := List.append_eq_nil_iff.1 hs
    obtain ⟨tail, rfl, htail⟩ := h.uncons hk
    obtain ⟨mid, hp, hm⟩ := stmtRest_phrase htail (eq_ok_of_settle hs) hs
    exact .more hp (ih hm hmore)

/-! ## Programs -/

/-- What is read without a diagnostic is a sentence. -/
theorem sentence_of_read {c : Cursor} {ts : List Token} (h : c.Faces ts)
    (hd : (Program.read c).1.diagnostics = []) : Sentence ts := by
  unfold Program.read at hd
  split at hd
  · next e r he =>
    split at hd
    · exact .inr (statements_phrase c h hd)
    · next hmore =>
      obtain ⟨rest, hwhole, hr⟩ := expr_phrase h he hd
      have hrest : rest = [] := Classical.byContradiction fun hne => hmore (hr.hasMore.2 hne)
      exact .inl (hrest ▸ hwhole)
  · exact .inr (statements_phrase c h hd)

end CatScript.Grammar
