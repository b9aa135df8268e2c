import CatScript.Proofs.Grammar.Locality
import CatScript.Proofs.Grammar.Spelling

/-!
# Recovery is local

Reading a statement fails only where a primary expression should start and none can. What is left of
the statement then is the token found there, with a diagnostic for it alone, and reading goes on at
the next keyword or at the end. Type names split a `>=` in front of the cursor, but no keyword comes
from such a split, so what follows is a part of the text as it was scanned (`Trails`).

Results:
* `stmtRest_failed`: a statement is given up at a token that starts no primary expression.
* `resume_takes`, `resume_kind`: the tokens that are skipped, and the one where reading goes on.
* `stmt_of_isInvalid`: an invalid statement has one token and one diagnostic.
* `stmt_of_failed`: whether the token found is passed need not depend on where the statement began.
* `recovers_locally`: what a statement that is given up leaves, and what is read behind it.
-/
namespace CatScript

open Token (Kind)

namespace Grammar

open Cursor

/-! ## Where reading fails -/

def Outcome.isFailed {α : Type} : Outcome α → Bool
  | ok _ _ => false
  | failed _ => true

/-- Reading fails only where a primary expression should start and none can. -/
def Outcome.FailsAtPrimary {α : Type} (o : Outcome α) : Prop :=
  ∀ r, o = .failed r → primary r = .failed r

namespace Outcome.FailsAtPrimary

variable {α β : Type}

theorem ok (a : α) (r : Cursor) : (Outcome.ok a r).FailsAtPrimary := nofun

theorem bind {o : Outcome α} {f : α → Cursor → Outcome β} (ho : o.FailsAtPrimary)
    (hf : ∀ a r, o = .ok a r → (f a r).FailsAtPrimary) : (o.bind f).FailsAtPrimary := by
  cases o with
  | ok a r => exact hf a r rfl
  | failed r =>
    intro r' h
    cases h
    exact ho r rfl

theorem map {o : Outcome α} {f : α → β} (ho : o.FailsAtPrimary) : (o.map f).FailsAtPrimary := by
  cases o with
  | ok a r => exact ok _ r
  | failed r =>
    intro r' h
    cases h
    exact ho r rfl

end Outcome.FailsAtPrimary

open Outcome (FailsAtPrimary)

mutual

theorem binary_failed {level : Level} {c : Cursor} : (binary level c).FailsAtPrimary := by
  by_cases hl : level.isBinary = true
  · rw [binary_of_isBinary hl]
    refine FailsAtPrimary.bind binary_failed fun left r hr => ?_
    have hw := binary_ok_lt hr
    exact chain_failed
  · rw [binary_of_not_isBinary (by simpa using hl)]
    exact unary_failed
termination_by 16 * c.weight + level.height + 3
decreasing_by
  · have := Level.height_tighter hl; omega
  · have := Level.height_le level; omega
  · omega

theorem chain_failed {level : Level} {left : Expr} {c : Cursor} :
    (chain level left c).FailsAtPrimary := by
  rw [chain_eq]
  cases hop : operatorAt? level c with
  | none => exact .ok left c
  | some op =>
    have hlt := c.weight_advance_lt (kind_ne_eof_of_operatorAt? hop)
    refine FailsAtPrimary.bind binary_failed fun right r hr => ?_
    have hw := binary_ok_lt hr
    exact chain_failed
termination_by 16 * c.weight
decreasing_by
  · have := Level.height_le level.tighter; omega
  · omega

theorem unary_failed {c : Cursor} : (unary c).FailsAtPrimary := by
  rw [unary_eq]
  cases hop : UnaryOp.ofKind? c.kind with
  | none => exact primary_failed_here
  | some op =>
    have hlt := c.weight_advance_lt (kind_ne_eof_of_unaryOp hop)
    exact FailsAtPrimary.map unary_failed
termination_by 16 * c.weight + 2

theorem primary_failed_here {c : Cursor} : (primary c).FailsAtPrimary := by
  intro r hr
  by_cases hk : c.kind = .eof
  · have : primary c = .failed c := by rw [primary_eq, hk]
    cases this.symm.trans hr
    exact this
  have hlt := c.weight_advance_lt hk
  have hlt2 := Nat.lt_of_le_of_lt c.advance.weight_advance_le hlt
  have hp := hr
  rw [primary_eq] at hr
  split at hr <;> try cases hr
  · split at hr
    · exact callRest_failed r hr
    · cases hr
  · exact listRest_failed r hr
  · exact groupRest_failed r hr
  · exact hp
termination_by 16 * c.weight + 1

theorem callRest_failed {name : Token} {c : Cursor} : (callRest name c).FailsAtPrimary := by
  rw [callRest_eq]
  exact FailsAtPrimary.bind items_failed fun _ _ _ => .ok _ _
termination_by 16 * c.weight + 12

theorem listRest_failed {opening : Token} {c : Cursor} :
    (listRest opening c).FailsAtPrimary := by
  rw [listRest_eq]
  exact FailsAtPrimary.bind items_failed fun _ _ _ => .ok _ _
termination_by 16 * c.weight + 12

theorem groupRest_failed {opening : Token} {c : Cursor} :
    (groupRest opening c).FailsAtPrimary := by
  rw [groupRest_eq]
  exact FailsAtPrimary.bind binary_failed fun _ _ _ => .ok _ _
termination_by 16 * c.weight + 12
decreasing_by simp only [Level.height]; omega

theorem items_failed {closing : Kind} {c : Cursor} : (items closing c).FailsAtPrimary := by
  rw [items_eq]
  split
  · exact .ok _ _
  · exact seq_failed
termination_by 16 * c.weight + 11

theorem seq_failed {c : Cursor} : (seq c).FailsAtPrimary := by
  rw [seq_eq]
  refine FailsAtPrimary.bind (o := expr c) binary_failed fun e r hr => ?_
  have hw := expr_ok_lt hr
  cases ha : r.accept? .comma with
  | none => exact .ok _ _
  | some d =>
    have hd := Cursor.weight_accept?_lt (by decide) ha
    exact FailsAtPrimary.map seq_failed
termination_by 16 * c.weight + 10
decreasing_by
  · simp only [Level.height]; omega
  · omega

end

/-- A statement is given up only at a token that starts no primary expression. -/
theorem stmtRest_failed (f : Bool) (start : Token) (c : Cursor) :
    (stmtRest f start c).FailsAtPrimary := by
  have hexpr : ∀ {d : Cursor}, (expr d).FailsAtPrimary := binary_failed
  rw [stmtRest_eq]
  split
  · exact hexpr.bind fun _ _ _ => .ok _ _
  · exact hexpr.bind fun _ _ _ => .ok _ _
  · unfold nameRest
    split
    · exact FailsAtPrimary.map callRest_failed
    · exact hexpr.bind fun _ _ _ => .ok _ _
    · exact .ok _ _
  · rw [forRest_eq]
    exact hexpr.bind fun _ _ _ => .ok _ _
  · rw [condRest_eq]
    refine hexpr.bind fun test r _ => ?_
    dsimp only
    split
    · exact .ok _ _
    · split <;> exact .ok _ _
  · rw [defineRest_eq]
    exact .ok _ _
  · split
    · unfold returnRest
      split
      · exact hexpr.bind fun _ _ _ => .ok _ _
      · exact .ok _ _
    · exact .ok _ _
  · exact .ok _ _

/-! ## Where reading goes on -/

theorem resume_kind (c : Cursor) : (resume c).kind ∈ .eof :: resumeKinds := by
  fun_induction resume c with
  | case1 c hk => exact List.mem_cons.2 hk
  | case2 c hk ih => exact ih

/-- Every token up to the one where reading goes on is skipped. -/
theorem resume_takes (c : Cursor) : c.Ended →
    ∃ ts, c.Takes ts (resume c) ∧ ∀ t ∈ ts, t.kind ∉ .eof :: resumeKinds := by
  fun_induction resume c with
  | case1 c hk => exact fun _ => ⟨[], .refl c, fun t ht => absurd ht List.not_mem_nil⟩
  | case2 c hk ih =>
    intro hc
    have hstep := hc.takes_advance fun h => hk (.inl h)
    obtain ⟨ts, htake, hall⟩ := ih (hstep.ended hc)
    refine ⟨_, hstep.trans htake, ?_⟩
    rw [List.singleton_append, List.forall_mem_cons]
    exact ⟨fun h => hk (List.mem_cons.1 h), hall⟩

/-- Where reading goes on when a statement that began at the mark `start` is given up. The token found
is passed, unless it is a keyword to go on at and not the statement's first token. -/
def recover (start : Nat) (c : Cursor) : Cursor :=
  if start < c.mark ∧ c.kind ∈ resumeKinds then c else resume c.advance

theorem resume_advance {c : Cursor} (hk : c.kind ∉ resumeKinds) :
    resume c.advance = resume c := by
  by_cases heof : c.kind = .eof
  · rw [Cursor.advance, if_pos heof]
  · rw [resume.eq_def c, dif_neg (not_or.2 ⟨heof, hk⟩)]

theorem recover_eq {start : Nat} {c : Cursor} (h : start < c.mark) : recover start c = resume c := by
  by_cases hk : c.kind ∈ resumeKinds
  · rw [recover, if_pos ⟨h, hk⟩, resume, dif_pos (.inr hk)]
  · rw [recover, if_neg fun hboth => hk hboth.2, resume_advance hk]

theorem kind_ne_eof_of_failed {f : Bool} {c r : Cursor}
    (h : stmtRest f c.current c.advance = .failed r) : c.kind ≠ .eof := by
  intro hk
  rw [stmtRest_eq, show c.current.kind = .eof from hk] at h
  cases h

theorem isInvalid_of_bind {o : Outcome Expr} {k : Expr → Cursor → Outcome Stmt} {s : Stmt}
    {r : Cursor} (hk : ∀ e d, k e d = .ok s r → s.isInvalid = false) (h : o.bind k = .ok s r) :
    s.isInvalid = false := by
  obtain ⟨e, d, -, h⟩ := Outcome.bind_eq_ok.1 h
  exact hk e d h

/-- A statement that is read to its end is of the kind that its first token says, or that token
starts none. -/
theorem eq_ofUnexpected_of_isInvalid {f : Bool} {start : Token} {c r : Cursor} {s : Stmt}
    (h : stmtRest f start c = .ok s r) (hs : s.isInvalid = true) : s = .ofUnexpected start := by
  have hne : s.isInvalid ≠ false := by simp [hs]
  rw [stmtRest_eq] at h
  split at h
  · exact absurd (isInvalid_of_bind (fun e d h => by cases h; rfl) h) hne
  · exact absurd (isInvalid_of_bind (fun e d h => by cases h; rfl) h) hne
  · unfold nameRest at h
    split at h
    · obtain ⟨e, -, rfl⟩ := Outcome.map_eq_ok.1 h
      cases hs
    · exact absurd (isInvalid_of_bind (fun e d h => by cases h; rfl) h) hne
    · cases h
      rfl
  · rw [forRest_eq] at h
    exact absurd (isInvalid_of_bind (fun e d h => by cases h; rfl) h) hne
  · rw [condRest_eq] at h
    refine absurd (isInvalid_of_bind (fun e d h => ?_) h) hne
    dsimp only at h
    split at h
    · cases h; rfl
    · split at h <;> cases h <;> rfl
  · rw [defineRest_eq] at h
    cases h
    cases hs
  · split at h
    · unfold returnRest at h
      split at h
      · exact absurd (isInvalid_of_bind (fun e d h => by cases h; rfl) h) hne
      · cases h
        cases hs
    · cases h
      rfl
  · cases h
    rfl

/-- An invalid statement, at any depth, stands for one token, with one diagnostic for it: the first
of the statement or the one at which it was given up. -/
theorem stmt_of_isInvalid {f : Bool} {c : Cursor} (h : (stmt f c).1.isInvalid = true) :
    ∃ t, (stmt f c).1 = .ofUnexpected t := by
  cases ho : stmtRest f c.current c.advance with
  | failed r => exact ⟨r.current, by rw [stmt, ho]; rfl⟩
  | ok s r =>
    have hs : (stmt f c).1 = s := by rw [stmt, ho]; rfl
    rw [hs] at h ⊢
    exact ⟨c.current, eq_ofUnexpected_of_isInvalid ho h⟩

/-- A statement has passed its first token when it is given up, so a keyword that is found then is
never passed. -/
theorem stmt_of_failed {f : Bool} {c r : Cursor}
    (h : stmtRest f c.current c.advance = .failed r) :
    stmt f c = (.ofUnexpected r.current, recover c.mark r) := by
  have hleads : c.advance.Leads r := by
    have := stmtRest_leads f c.current c.advance
    rwa [h] at this
  have hmark := hleads.mark_le
  rw [mark_advance (kind_ne_eof_of_failed h)] at hmark
  rw [recover_eq hmark, stmt, h]
  rfl

end Grammar

namespace Cursor

/-- What lies ahead is the end of the tokens, behind the halves of a `>=` that was split. -/
def Trails (c : Cursor) (tokens : List Token) : Prop :=
  ∃ halves rest, c.toCome = halves ++ rest ∧ rest <:+ tokens ∧
    ∀ t ∈ halves, t.kind = .greater ∨ t.kind = .equal

variable {c d : Cursor} {tokens : List Token}

theorem Trails.advance (h : c.Trails tokens) (hc : c.Secured) : c.advance.Trails tokens := by
  by_cases hk : c.kind = .eof
  · rwa [Cursor.advance, if_pos hk]
  · obtain ⟨t, ts, ha⟩ := hc.ahead_ne_nil hk
    have hnext : c.advance.toCome = c.ahead := by
      simp only [Cursor.advance, if_neg hk, ha, toCome]
    obtain ⟨halves, rest, hcome, hrest, hhalves⟩ := h
    cases halves with
    | nil =>
      obtain rfl : c.toCome = rest := hcome
      refine ⟨[], c.ahead, hnext, ?_, fun t ht => absurd ht List.not_mem_nil⟩
      exact (List.suffix_cons c.current c.ahead).trans hrest
    | cons u us =>
      refine ⟨us, rest, ?_, hrest, fun t ht => hhalves t (List.mem_cons_of_mem u ht)⟩
      rw [hnext]
      exact (List.cons.inj hcome).2

/-- No half of a `>=` stands where a token of another kind does. -/
theorem Trails.suffix (h : c.Trails tokens) (hk : c.kind ≠ .greater ∧ c.kind ≠ .equal) :
    c.toCome <:+ tokens := by
  obtain ⟨halves, rest, hcome, hrest, hhalves⟩ := h
  cases halves with
  | nil => exact hcome ▸ hrest
  | cons u us =>
    have hu : c.kind = u.kind := congrArg Token.kind (List.cons.inj hcome).1
    rcases hhalves u (List.mem_cons_self ..) with h | h
    · exact absurd (hu.trans h) hk.1
    · exact absurd (hu.trans h) hk.2

theorem Trails.split (h : c.Trails tokens) (hk : c.kind = .greaterEqual) :
    (c.split .greater .equal).Trails tokens := by
  have hsuffix := h.suffix (by rw [hk]; decide)
  unfold Cursor.split
  split
  · exact h
  split
  · exact h
  split
  · exact h
  · exact ⟨[_, _], c.ahead, rfl, (List.suffix_cons _ _).trans hsuffix, by simp⟩

theorem Leads.trails (h : c.Leads d) (hc : c.Secured) (ht : c.Trails tokens) : d.Trails tokens := by
  induction h with
  | refl => exact ht
  | advance h ih => exact ih.advance (h.secured hc)
  | split _ hk ih => exact ih.split hk

/-- The cursor on the tokens ahead, with none behind it. -/
def fresh (c : Cursor) : Cursor := ⟨[], c.current, c.ahead, false⟩

theorem fresh_eq (h : c.toCome = d.toCome) : c.fresh = d.fresh := by
  obtain ⟨hcurrent, hahead⟩ := List.cons.inj h
  rw [fresh, fresh, hcurrent, hahead]

theorem Secured.fresh_onto (h : c.Secured) : c.fresh.onto c.before = c := by
  rw [fresh, ← h.whole]
  rfl

theorem Secured.ofTokens_toCome (h : c.Secured) : ofTokens c.toCome = c.fresh := by
  have hterm : terminated c.toCome = c.toCome := by
    obtain ⟨last, hlast, hk⟩ := Option.map_eq_some_iff.1 h.ends
    rw [terminated, toCome, hlast]
    exact if_pos hk
  rw [ofTokens, hterm]
  rfl

theorem toCome_ofTokens (source file : String) :
    (ofTokens (Token.scan source file)).toCome = Token.scan source file := by
  obtain ⟨ts, e, hts, he, -⟩ := Token.scanFrom_lexical file 0 source.toList
  have hscan : Token.scan source file = ts ++ [e] := hts
  have hterm : terminated (ts ++ [e]) = ts ++ [e] := by
    simp [terminated, he]
  rw [hscan, ofTokens, hterm]
  cases ts <;> rfl

end Cursor

theorem Token.scan_splittable (source file : String) :
    ∀ t ∈ Token.scan source file, t.Splittable := by
  obtain ⟨ts, e, hts, he, hlex⟩ := Token.scanFrom_lexical file 0 source.toList
  intro t ht hk
  rcases List.mem_append.1 (hts ▸ ht : t ∈ ts ++ [e]) with hmem | hmem
  · rw [(hlex t hmem).greaterEqual hk]
    rfl
  · rw [List.mem_singleton.1 hmem, he] at hk
    cases hk

theorem Token.unexpected_place (t : Token) :
    t.unexpected.file = t.span.file ∧ t.unexpected.offset = t.span.start := by
  unfold Token.unexpected
  split <;> exact ⟨rfl, rfl⟩

namespace Grammar

open Cursor

/-! ## Statements at the top level -/

/-- Reading statements from `c` on comes to `d`, where the next one begins behind `ss`. -/
inductive Begins (c : Cursor) : List Stmt → Cursor → Prop where
  | start : Begins c [] c
  | next {ss : List Stmt} {d : Cursor} : Begins c ss d → d.kind ≠ .eof →
    Begins c (ss ++ [(stmt false d).1]) (stmt false d).2

theorem Begins.leads {c d : Cursor} {ss : List Stmt} (h : Begins c ss d) : c.Leads d := by
  induction h with
  | start => exact .refl c
  | @next _ d _ _ ih => exact ih.trans ((Leads.next d).trans (stmt_leads false d))

theorem statements_of_ne {c : Cursor} (hk : c.kind ≠ .eof) :
    (statements c).1 = (stmt false c).1 :: (statements (stmt false c).2).1 := by
  rw [statements, dif_neg hk]

theorem Begins.statements {c d : Cursor} {ss : List Stmt} (h : Begins c ss d) :
    (statements c).1 = ss ++ (statements d).1 := by
  induction h with
  | start => rfl
  | next _ hk ih => rw [ih, statements_of_ne hk, List.append_assoc, List.singleton_append]

/-- A secured cursor reads what the cursor without anything behind it does. -/
theorem stmt_fresh {f : Bool} {c : Cursor} (hc : c.Secured) (hk : c.kind ≠ .eof) :
    (stmt f c).1 = (stmt f c.fresh).1 ∧ (stmt f c).2.toCome = (stmt f c.fresh).2.toCome ∧
      (stmt f c).2.PassedSince c.before (stmt f c.fresh).2.before.reverse := by
  have hs : stmt f c = ((stmt f c.fresh).1, (stmt f c.fresh).2.onto c.before) := by
    have := stmt_onto (b := c.before) (f := f) (c := c.fresh) hk
    rwa [hc.fresh_onto] at this
  rw [hs]
  exact ⟨rfl, rfl, by rw [PassedSince, List.reverse_reverse]; rfl⟩

theorem statements_fresh {c : Cursor} (hc : c.Secured) :
    (statements c).1 = (statements c.fresh).1 := by
  have := statements_onto (b := c.before) c.fresh
  rw [hc.fresh_onto] at this
  rw [this]

/-- How statements of a token list are read and given up. -/
structure RecoversLocally (tokens : List Token) : Prop where
  /-- A statement and the tokens that it takes depend on the tokens from its first one on, and on
  whether it stands in a function. -/
  independent : ∀ (source file : String) (c d : Cursor), Visits tokens c →
    Visits (Token.scan source file) d → c.toCome = d.toCome → c.kind ≠ .eof → ∀ f : Bool,
      (stmt f c).1 = (stmt f d).1 ∧ (stmt f c).2.toCome = (stmt f d).2.toCome ∧
        ∃ ts, (stmt f c).2.PassedSince c.before ts ∧ (stmt f d).2.PassedSince d.before ts
  /-- A statement is given up at a token that starts no primary expression. It becomes an invalid one
  that holds this token and a diagnostic for it, and no other. -/
  invalid : ∀ (f : Bool) (c r : Cursor), Visits tokens c →
    stmtRest f c.current c.advance = .failed r → primary r = .failed r ∧
      (stmt f c).1 = .invalid ⟨r.current.span, [r.current.unexpected]⟩ r.current ∧
      (stmt f c).1.diagnostics = [r.current.unexpected] ∧
      r.current.unexpected.file = r.current.span.file ∧
      r.current.unexpected.offset = r.current.span.start
  /-- Reading goes on at the first keyword from this token on, or at the end. -/
  resumes : ∀ (f : Bool) (c r : Cursor), Visits tokens c →
    stmtRest f c.current c.advance = .failed r → ∃ skipped, r.Takes skipped (stmt f c).2 ∧
      (∀ t ∈ skipped, t.kind ∉ .eof :: resumeKinds) ∧ (stmt f c).2.kind ∈ .eof :: resumeKinds
  /-- What follows at the top level is what the tokens that are left read as on their own. -/
  follows : ∀ (ss : List Stmt) (c r : Cursor), Begins (.ofTokens tokens) ss c →
    stmtRest false c.current c.advance = .failed r → ∃ left, left <:+ tokens ∧
      (stmt false c).2.toCome = left ∧
      (statements (.ofTokens tokens)).1 =
        ss ++ .ofUnexpected r.current :: (statements (.ofTokens left)).1

/-- Recovery is local in every source text. -/
theorem recovers_locally (source file : String) : RecoversLocally (Token.scan source file) := by
  have hsecured : ∀ {source file : String} {c : Cursor}, Visits (Token.scan source file) c →
      c.Secured := fun h => Leads.secured h (ofTokens_secured (Token.scan_splittable _ _))
  have hsettle : ∀ {f : Bool} {c r : Cursor}, stmtRest f c.current c.advance = .failed r →
      stmt f c = (.ofUnexpected r.current, resume r) := by
    intro f c r hr
    rw [stmt, hr]
    rfl
  constructor
  case independent =>
    intro source' file' c d hc hd hcome hk f
    have hkd : d.kind ≠ .eof := by rwa [Cursor.kind, ← (List.cons.inj hcome).1]
    obtain ⟨hs, hleft, hpassed⟩ := stmt_fresh (f := f) (hsecured hc) hk
    obtain ⟨hs', hleft', hpassed'⟩ := stmt_fresh (f := f) (hsecured hd) hkd
    rw [fresh_eq hcome] at hs hleft hpassed
    exact ⟨hs.trans hs'.symm, hleft.trans hleft'.symm, _, hpassed, hpassed'⟩
  case invalid =>
    intro f c r hc hr
    rw [hsettle hr]
    exact ⟨stmtRest_failed f c.current c.advance r hr, rfl, rfl, r.current.unexpected_place⟩
  case resumes =>
    intro f c r hc hr
    have hleads : c.Leads r := by
      have := (Leads.next c).trans (stmtRest_leads f c.current c.advance)
      rwa [hr] at this
    obtain ⟨skipped, htake, hall⟩ := resume_takes r (hleads.secured (hsecured hc)).ends
    rw [hsettle hr]
    exact ⟨skipped, htake, hall, resume_kind r⟩
  case follows =>
    intro ss c r hc hr
    have hk : c.kind ≠ .eof := kind_ne_eof_of_failed hr
    have hvisits : Visits (Token.scan source file) (resume r) := by
      have := (hc.leads.trans (Leads.next c)).trans (stmt_leads false c)
      rwa [hsettle hr] at this
    have hstart : (ofTokens (Token.scan source file)).Trails (Token.scan source file) :=
      ⟨[], Token.scan source file, toCome_ofTokens source file, List.suffix_refl _, by simp⟩
    have hsuffix : (resume r).toCome <:+ Token.scan source file := by
      refine (Leads.trails hvisits (hsecured (.refl _)) hstart).suffix ?_
      have hall : ∀ k ∈ Kind.eof :: resumeKinds, k ≠ .greater ∧ k ≠ .equal := by decide
      exact hall _ (resume_kind r)
    refine ⟨_, hsuffix, by rw [hsettle hr], ?_⟩
    rw [hc.statements, statements_of_ne hk, hsettle hr, (hsecured hvisits).ofTokens_toCome,
      statements_fresh (hsecured hvisits)]

/-- A declaration without a value is given up at the `)` in its place, and the statement behind it
is read as if it stood alone. -/
theorem recovers_locally_print :
    let tokens := Token.scan "var x = )\nprint(1)" "a"
    let c := Cursor.ofTokens tokens
    ∃ r left, stmtRest false c.current c.advance = .failed r ∧ primary r = .failed r ∧
      left <:+ tokens ∧
      left.map (·.kind) = [.kwPrint, .leftParen, .integer, .rightParen, .eof] ∧
      (statements c).1 = .ofUnexpected r.current :: (statements (.ofTokens left)).1 := by
  intro tokens c
  obtain ⟨r, hr⟩ : ∃ r, stmtRest false c.current c.advance = .failed r := by
    have hfails : (stmtRest false c.current c.advance).isFailed = true := by decide +kernel
    cases hr : stmtRest false c.current c.advance with
    | ok s r => rw [hr] at hfails; cases hfails
    | failed r => exact ⟨r, rfl⟩
  have hlocal := recovers_locally "var x = )\nprint(1)" "a"
  obtain ⟨left, hsuffix, hcome, hss⟩ := hlocal.follows [] c r .start hr
  refine ⟨r, left, hr, (hlocal.invalid false c r (.refl c) hr).1, hsuffix, ?_, hss⟩
  rw [← hcome]
  decide +kernel

end Grammar

end CatScript
