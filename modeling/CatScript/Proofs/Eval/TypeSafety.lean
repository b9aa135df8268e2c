import CatScript.Proofs.Eval.Mirror
import CatScript.Proofs.Eval.Scenes
import CatScript.Proofs.Typing.Checked

/-!
# Type safety of runs

In a run of a well-typed program every expression has a value of its type, every variable holds
a value of its type, no operator meets an operand it cannot take, and only a loop over an
`object` can find that it has nothing to iterate over.

This rests on the values that pass through declared types. `Lawful` says of the moments of a run
that a value of a type which may be stored under a declared one is a value of the declared one.
That is so in every run if only wider types are stored into (`Ty.Widens`); if types are only
compatible (`Ty.accepts`) it is a property of the run. The rules for `Report.Safe` carry it along
the run.
-/
namespace CatScript

open Typing

namespace Eval

/-- What holds at a moment of a safe run. -/
structure Moment.Good (m : Moment) : Prop where
  value : ∀ e v, m.event = .evaluated e v → v.Inhabits e.ty
  scene : m.scene.Inhabited

/-- Values that pass through a declared type have that type, if they have one that fits it. -/
def Lawful (R : Rules) (moments : List Moment) : Prop :=
  ∀ m ∈ moments, ∀ t v, m.event = .passed t v →
    ∀ s, R.fits t s → v.Inhabits s → v.Inhabits t

/-- Why a safe run may stop, behind the given moments. -/
def Halt.Allowed (moments : List Moment) : Halt → Prop
  | .fault (.invalidOperand _ _) => False
  | .fault (.notIterable text) =>
    ∃ m ∈ moments.getLast?, ∃ e v, m.event = .iterated e v ∧ e.ty = .object ∧ v.display = text
  | _ => True

/-- A safe run, which ends as `post` says if it ends. -/
def Report.Safe {α : Type} (R : Rules) (r : Report α) (post : α → Scene → Prop) : Prop :=
  Lawful R r.moments → (∀ m ∈ r.moments, m.Good) ∧
    match r.result with
    | .ok (a, τ) => post a τ
    | .error h => h.Allowed r.moments

theorem Lawful.append {R : Rules} {ms ns : List Moment} (h : Lawful R (ms ++ ns)) :
    Lawful R ms ∧ Lawful R ns :=
  ⟨fun m hm => h m (List.mem_append_left _ hm), fun m hm => h m (List.mem_append_right _ hm)⟩

theorem Halt.Allowed.append {h : Halt} {ns : List Moment} (ha : h.Allowed ns)
    (ms : List Moment) : h.Allowed (ms ++ ns) := by
  cases h with
  | tooDeep => trivial
  | fault f =>
    cases f with
    | notIterable text =>
      obtain ⟨m, hm, he⟩ := ha
      exact ⟨m, by simp [List.getLast?_append, Option.mem_def.1 hm], he⟩
    | _ => exact ha

namespace Report.Safe

variable {α β : Type} {R : Rules} {σ : Scene}

theorem mono {r : Report α} {P Q : α → Scene → Prop} (h : r.Safe R P)
    (hPQ : ∀ a τ, P a τ → Q a τ) : r.Safe R Q := by
  intro hl
  obtain ⟨hm, hr⟩ := h hl
  refine ⟨hm, ?_⟩
  split at hr
  · exact hPQ _ _ hr
  · exact hr

theorem pure {a : α} {P : α → Scene → Prop} (h : P a σ) :
    ((Pure.pure a : Watched α) σ).Safe R P :=
  fun _ => ⟨by simp [Pure.pure, Watched.pure], h⟩

theorem bind {w : Watched α} {f : α → Watched β} {P : α → Scene → Prop}
    {Q : β → Scene → Prop} (hw : (w σ).Safe R P) (hf : ∀ a τ, P a τ → (f a τ).Safe R Q) :
    ((w >>= f) σ).Safe R Q := by
  show (Watched.bind w f σ).Safe R Q
  unfold Watched.bind
  intro hl
  cases hr : (w σ).result with
  | error h =>
    rw [hr] at hl
    obtain ⟨hm, ha⟩ := hw hl
    rw [hr] at ha
    exact ⟨hm, ha⟩
  | ok r =>
    obtain ⟨a, τ⟩ := r
    rw [hr] at hl
    obtain ⟨hl₁, hl₂⟩ := hl.append
    obtain ⟨hm, hp⟩ := hw hl₁
    rw [hr] at hp
    obtain ⟨hm', hq⟩ := hf a τ hp hl₂
    refine ⟨fun m h => (List.mem_append.1 h).elim (hm m) (hm' m), ?_⟩
    simp only
    split at hq
    · exact hq
    · exact hq.append _

theorem record {event : Event} (hσ : σ.Inhabited)
    (hv : ∀ e v, event = .evaluated e v → v.Inhabits e.ty) :
    (Watched.record event σ).Safe R fun _ τ => σ = τ ∧ ∀ t v, event = .passed t v →
      ∀ s, R.fits t s → v.Inhabits s → v.Inhabits t := by
  intro hl
  refine ⟨fun m hm => ?_, rfl, fun t v he => hl ⟨σ, event⟩ (by simp [Watched.record]) t v he⟩
  rw [List.mem_singleton.1 hm]
  exact ⟨hv, hσ⟩

/-- A value passes through a declared type that its own type fits. -/
theorem passed {s t : Ty} {v : Value} (hσ : σ.Inhabited) (hf : R.fits t s) (hv : v.Inhabits s) :
    (Watched.record (.passed t v) σ).Safe R fun _ τ => σ = τ ∧ v.Inhabits t :=
  (record hσ (by simp)).mono fun _ _ h => ⟨h.1, h.2 t v rfl s hf hv⟩

theorem value {e : Expr} {v : Value} {P : Value → Scene → Prop} (hσ : σ.Inhabited)
    (hv : v.Inhabits e.ty) (h : P v σ) : (Watched.value e v σ).Safe R P := by
  refine bind (record hσ ?_) fun _ τ hτ => ?_
  · intro e' v' he
    cases he
    exact hv
  · obtain ⟨rfl, -⟩ := hτ
    exact pure h

theorem ofExcept {r : Except Fault α} {P : α → Scene → Prop}
    (h : (∃ a, r = .ok a ∧ P a σ) ∨ r = .error .divisionByZero) :
    (Watched.ofExcept r σ).Safe R P := by
  rcases h with ⟨a, rfl, h⟩ | rfl
  · exact pure h
  · exact fun _ => ⟨by simp [Watched.ofExcept, Watched.fail], trivial⟩

theorem modify {f : Scene → Scene} {P : Unit → Scene → Prop} (h : P () (f σ)) :
    (Watched.modify f σ).Safe R P :=
  fun _ => ⟨by simp [Watched.modify], h⟩

theorem inScope {S : Scopes} {w : Watched α} {P Q : α → Scene → Prop} (hσ : σ.Conforms R S)
    (h : ∀ τ : Scene, τ.Conforms R ([] :: S) → (w τ).Safe R P)
    (hPQ : ∀ a τ, P a τ → Q a { τ with locals := τ.locals.tail }) :
    (Watched.inScope w σ).Safe R Q := by
  intro hl
  obtain ⟨hm, hr⟩ := h _ hσ.push hl
  refine ⟨hm, ?_⟩
  unfold Watched.inScope Report.ending
  simp only
  split at hr
  · next heq => rw [heq]; exact hPQ _ _ hr
  · next heq => rw [heq]; exact hr

theorem inCall {S : Scopes} {params : Table Binding} {w : Watched α} {P Q : α → Scene → Prop}
    (hσ : σ.Conforms R S) (hp : ∀ b ∈ params, b.2.value.Inhabits b.2.ty)
    (h : ∀ τ : Scene, τ.Conforms R [params.mapValues Binding.ty, R.globals] → (w τ).Safe R P)
    (hPQ : ∀ a τ, P a τ → Q a { τ with locals := σ.locals, callers := σ.callers }) :
    (Watched.inCall params w σ).Safe R Q := by
  intro hl
  obtain ⟨hm, hr⟩ := h _ (hσ.enter hp) hl
  refine ⟨hm, ?_⟩
  unfold Watched.inCall Report.ending
  simp only
  split at hr
  · next heq => rw [heq]; exact hPQ _ _ hr
  · next heq => rw [heq]; exact hr

theorem lookUp (hσ : σ.Inhabited) (access : Access) (x : String) :
    (Watched.lookUp access x σ).Safe R fun b τ => σ = τ ∧ σ.find? x = some b := by
  refine bind (record hσ (by simp)) fun _ τ h => ?_
  obtain ⟨rfl, -⟩ := h
  unfold Watched.find
  cases h : σ.find? x with
  | none => exact fun _ => ⟨by simp [Watched.fail], trivial⟩
  | some b => exact pure ⟨rfl, rfl⟩

theorem define {S : Scopes} (hσ : σ.Conforms R S) {x : String} {b : Binding}
    (hb : b.value.Inhabits b.ty) (hx : S.length = 1 → R.globals.find? x = some b.ty) :
    (Watched.define x b σ).Safe R fun _ τ => τ.Conforms R (S.bind x b.ty) := by
  have hτ := hσ.define hb hx
  refine bind (modify (P := fun _ τ => σ.define x b = τ) rfl) fun _ τ h => ?_
  subst h
  exact (record hτ.inhabited (by simp)).mono fun _ _ h => h.1 ▸ hτ

theorem assign {S : Scopes} (hσ : σ.Conforms R S) {x : String} {s t : Ty} {v : Value}
    (hx : Table.findIn? x S = some t) (hf : R.fits t s) (hv : v.Inhabits s) :
    (Watched.assign x v σ).Safe R fun _ τ => τ.Conforms R S := by
  refine bind (lookUp hσ.inhabited .write x) fun b τ h => ?_
  obtain ⟨rfl, hb⟩ := h
  obtain ⟨rfl, -⟩ := hσ.find? hx hb
  refine bind (passed hσ.inhabited hf hv) fun _ τ h => ?_
  obtain ⟨rfl, hv⟩ := h
  obtain ⟨υ, ha⟩ : ∃ υ, σ.assign? x ⟨b.ty, v⟩ = some υ := by
    rw [← Option.isSome_iff_exists, Mirrors.isSome_assign?, hb]
    rfl
  have hυ : υ.Conforms R S := hσ.assign (c := ⟨b.ty, v⟩) hb rfl hv ha
  refine bind (modify (P := fun _ τ => υ = τ) (by rw [ha]; rfl)) fun _ τ h => ?_
  subst h
  exact (record hυ.inhabited (by simp)).mono fun _ _ h => h.1 ▸ hυ

/-- A loop starts over a value. Only an `object` can turn out not to be a list. -/
theorem iterate {e : Expr} {t : Ty} {v : Value} {f : List Value → Watched β}
    {Q : β → Scene → Prop} (hσ : σ.Inhabited) (hv : v.Inhabits e.ty)
    (ht : e.ty.element? = some t)
    (hf : ∀ vs, (∀ w ∈ vs, w.Inhabits t) → (f vs σ).Safe R Q) :
    ((do Watched.record (.iterated e v); let vs ← Watched.items v; f vs : Watched β) σ).Safe R Q := by
  by_cases h : ∃ vs, v = .list vs
  · obtain ⟨vs, rfl⟩ := h
    refine bind (record hσ (by simp)) fun _ τ h => ?_
    rw [← h.1]
    exact hf vs (hv.element ht)
  · have ho : e.ty = .object := by
      cases hty : e.ty with
      | list element =>
        rw [hty] at hv
        obtain ⟨vs, rfl, -⟩ := hv
        exact absurd ⟨vs, rfl⟩ h
      | object => rfl
      | _ => rw [hty] at ht; cases ht
    have hi : Watched.items v = Watched.fail (.notIterable v.display) := by
      cases v with
      | list vs => exact absurd ⟨vs, rfl⟩ h
      | _ => rfl
    rw [hi]
    refine fun _ => ⟨fun m hm => ?_, ⟨σ, .iterated e v⟩, rfl, e, v, rfl, ho, rfl⟩
    rw [List.mem_singleton.1 hm]
    exact ⟨by simp, hσ⟩

end Report.Safe

/-- The functions of a program with the signatures of the rules, each well typed. -/
def Knows (R : Rules) (functions : Table Function) : Prop :=
  ∀ symbol s, R.functions.find? symbol = some s →
    ∃ f, functions.find? symbol = some f ∧ f.header.signature = s ∧ f.Typed R

/-- Calls that are safe with parameters of the right types. -/
def CallsSafe (R : Rules) (invoke : Watched.Invoke) : Prop :=
  ∀ (f : Function) (params : Table Binding) (σ : Scene) (S : Scopes), f.Typed R →
    params.mapValues Binding.ty = f.header.scope → (∀ b ∈ params, b.2.value.Inhabits b.2.ty) →
    σ.Conforms R S →
    (invoke f params σ).Safe R fun v τ => v.Inhabits f.header.resultTy ∧ τ.Conforms R S

end Eval

open Eval Report

/-! ## Expressions -/

namespace Expr

mutual

theorem watch_safe {R : Rules} {functions : Table Function} {invoke : Watched.Invoke}
    (hk : Knows R functions) (hi : CallsSafe R invoke) {S : Scopes} : (e : Expr) →
    e.Typed R S → ∀ σ : Scene, σ.Conforms R S →
    (e.watch functions invoke σ).Safe R fun v τ => v.Inhabits e.ty ∧ τ.Conforms R S
  | int n v, ht, σ, hσ => by
    have hv : (Value.int v).Inhabits (int n v).ty := by
      rw [ty_of_note (e := int n v) ht]
      exact ⟨v, rfl⟩
    exact .value hσ.inhabited hv ⟨hv, hσ⟩
  | str n v, ht, σ, hσ => by
    have hv : (Value.str v).Inhabits (str n v).ty := by
      rw [ty_of_note (e := str n v) ht]
      exact ⟨v, rfl⟩
    exact .value hσ.inhabited hv ⟨hv, hσ⟩
  | bool n v, ht, σ, hσ => by
    have hv : (Value.bool v).Inhabits (bool n v).ty := by
      rw [ty_of_note (e := bool n v) ht]
      exact ⟨v, rfl⟩
    exact .value hσ.inhabited hv ⟨hv, hσ⟩
  | null n, ht, σ, hσ => by
    have hv : Value.null.Inhabits (null n).ty := by
      rw [ty_of_note (e := null n) ht]
      trivial
    exact .value hσ.inhabited hv ⟨hv, hσ⟩
  | var n x, ht, σ, hσ => by
    obtain ⟨t, hn, hx⟩ := ht
    simp only [watch]
    refine .bind (.lookUp hσ.inhabited .read x) fun b τ h => ?_
    obtain ⟨rfl, hb⟩ := h
    obtain ⟨hty, hv⟩ := hσ.find? hx hb
    have hv : b.value.Inhabits (var n x).ty := by
      rw [ty_of_note (e := var n x) hn, ← hty]
      exact hv
    exact .value hσ.inhabited hv ⟨hv, hσ⟩
  | unary n op e, ht, σ, hσ => by
    obtain ⟨hn, hty, he⟩ := ht
    simp only [watch]
    refine .bind (watch_safe hk hi e he σ hσ) fun v τ ⟨hv, hτ⟩ => ?_
    rw [hty] at hv
    obtain ⟨u, hu, hui⟩ := op.apply_inhabits hv
    refine .bind (.ofExcept (P := fun a υ => u = a ∧ τ = υ) (.inl ⟨u, hu, rfl, rfl⟩)) ?_
    rintro _ _ ⟨rfl, rfl⟩
    have hui : u.Inhabits (unary n op e).ty := by
      rw [ty_of_note (e := unary n op e) hn]
      exact hui
    exact .value hτ.inhabited hui ⟨hui, hτ⟩
  | binary n op l r, ht, σ, hσ => by
    obtain ⟨⟨t, hn, hop⟩, hl, hr⟩ := ht
    simp only [watch]
    refine .bind (watch_safe hk hi l hl σ hσ) fun v τ ⟨hv, hτ⟩ => ?_
    refine .bind (.ofExcept (P := fun _ υ => τ = υ)
      (.inl ⟨(), BinaryOp.leftOperand_ok hop hv, rfl⟩)) ?_
    rintro _ _ rfl
    refine .bind (watch_safe hk hi r hr τ hτ) fun w υ ⟨hw, hυ⟩ => ?_
    refine .bind (.ofExcept (P := fun a κ => a.Inhabits t ∧ υ = κ) ?_) ?_
    · exact (BinaryOp.apply_inhabits hop hv hw).imp (fun ⟨u, hu, hui⟩ => ⟨u, hu, hui, rfl⟩) id
    rintro u _ ⟨hui, rfl⟩
    have hui : u.Inhabits (binary n op l r).ty := by
      rw [ty_of_note (e := binary n op l r) hn]
      exact hui
    exact .value hυ.inhabited hui ⟨hui, hυ⟩
  | paren n e, ht, σ, hσ => by
    simp only [watch]
    refine .bind (watch_safe hk hi e ht.2 σ hσ) fun v τ ⟨hv, hτ⟩ => ?_
    have hv : v.Inhabits (paren n e).ty := by
      rw [ty_of_note (e := paren n e) ht.1]
      exact hv
    exact .value hτ.inhabited hv ⟨hv, hτ⟩
  | list n es, ht, σ, hσ => by
    simp only [watch]
    refine .bind (watchAll_safe hk hi es ht.2 σ hσ) fun vs τ ⟨hvs, hτ⟩ => ?_
    have hv : (Value.list vs).Inhabits (list n es).ty := by
      rw [ty_of_note (e := list n es) ht.1]
      exact hvs.join
    exact .value hτ.inhabited hv ⟨hv, hτ⟩
  | call n f es symbol, ht, σ, hσ => by
    obtain ⟨s, rfl, hs, hn, ha⟩ := ht
    obtain ⟨g, hg, rfl, hgt⟩ := hk _ _ hs
    simp only [watch, Option.getD_some, Watched.lookUpFunction, hg]
    refine .bind (.pure (P := fun a υ => g = a ∧ σ = υ) ⟨rfl, rfl⟩) ?_
    rintro _ _ ⟨rfl, rfl⟩
    refine .bind (watchArgs_safe hk hi g.header.params es ha σ hσ) fun params τ h => ?_
    obtain ⟨hty, hin, hτ⟩ := h
    refine .bind (hi g _ τ S hgt ?_ ?_ hτ) fun v υ ⟨hv, hυ⟩ => ?_
    · rw [Table.mapValues_ofList, hty]
      rfl
    · intro b hb
      rcases Table.mem_of_mem_foldl_insert hb with hb | hb
      · exact hin b hb
      · cases hb
    · have hv : v.Inhabits (call n f es (some g.header.signature.symbol)).ty := by
        rw [ty_of_note (e := call n f es _) hn]; exact hv
      exact .value hυ.inhabited hv ⟨hv, hυ⟩

theorem watchAll_safe {R : Rules} {functions : Table Function} {invoke : Watched.Invoke}
    (hk : Knows R functions) (hi : CallsSafe R invoke) {S : Scopes} : (es : List Expr) →
    TypedAll R S es → ∀ σ : Scene, σ.Conforms R S →
    (watchAll functions invoke es σ).Safe R fun vs τ =>
      Value.InhabitAll vs (es.map ty) ∧ τ.Conforms R S
  | [], _, σ, hσ => .pure ⟨trivial, hσ⟩
  | e :: es, ht, σ, hσ => by
    simp only [watchAll]
    refine .bind (watch_safe hk hi e ht.1 σ hσ) fun v τ ⟨hv, hτ⟩ => ?_
    refine .bind (watchAll_safe hk hi es ht.2 τ hτ) fun vs υ ⟨hvs, hυ⟩ => ?_
    exact .pure ⟨⟨hv, hvs⟩, hυ⟩

theorem watchArgs_safe {R : Rules} {functions : Table Function} {invoke : Watched.Invoke}
    (hk : Knows R functions) (hi : CallsSafe R invoke) {S : Scopes} : (ps : List Param) →
    (es : List Expr) → TypedArgs R S (ps.map fun p => (p.name, p.ty)) es → ∀ σ : Scene,
    σ.Conforms R S → (watchArgs functions invoke ps es σ).Safe R fun params τ =>
      (params.map fun b => (b.1, b.2.ty)) = (ps.map fun p => (p.name, p.ty)) ∧
        (∀ b ∈ params, b.2.value.Inhabits b.2.ty) ∧ τ.Conforms R S
  | [], [], _, σ, hσ => .pure ⟨rfl, by simp, hσ⟩
  | p :: ps, e :: es, ht, σ, hσ => by
    simp only [watchArgs]
    refine .bind (watch_safe hk hi e ht.1 σ hσ) fun v τ ⟨hv, hτ⟩ => ?_
    refine .bind (.passed hτ.inhabited ht.2.1 hv) fun _ _ h => ?_
    obtain ⟨rfl, hv⟩ := h
    refine .bind (watchArgs_safe hk hi ps es ht.2.2 _ hτ) fun more υ ⟨hm, hin, hυ⟩ => ?_
    refine .pure ⟨by simp [hm], ?_, hυ⟩
    simp only [List.mem_cons, forall_eq_or_imp]
    exact ⟨hv, hin⟩
  | [], _ :: _, ht, _, _ | _ :: _, [], ht, _, _ => ht.elim

end

end Expr

/-! ## Statements -/

namespace Eval

/-- What a function with the given result type may return. -/
def Returns (result : Ty) : Option Value → Prop
  | none => result = .void
  | some v => result ≠ .void ∧ v.Inhabits result

/-- How statements end that see `S`, and behind which `S'` is in sight. -/
structure Ends (R : Rules) (result : Ty) (S S' : Scopes) (returns : Bool) (flow : Flow)
    (τ : Scene) : Prop where
  scope : ∃ scope, τ.Conforms R (scope :: S.tail)
  normal : flow = .normal → τ.Conforms R S' ∧ returns = false
  returned : ∀ r, flow = .returned r → Returns result r

theorem Scene.Conforms.ne_nil {R : Rules} {S : Scopes} {σ : Scene} (h : σ.Conforms R S) :
    S ≠ [] := by
  obtain ⟨outer, rfl, -⟩ := h.scopes
  simp

theorem Scene.Conforms.innermost {R : Rules} {S : Scopes} {σ : Scene} (h : σ.Conforms R S) :
    ∃ scope, σ.Conforms R (scope :: S.tail) := by
  obtain ⟨scope, scopes, rfl⟩ := List.exists_cons_of_ne_nil h.ne_nil
  exact ⟨scope, h⟩

namespace Ends

variable {R : Rules} {result : Ty} {S S' : Scopes} {returns : Bool} {flow : Flow} {τ : Scene}

theorem ofNormal (h : τ.Conforms R S') (hS : S'.tail = S.tail) :
    Ends R result S S' false .normal τ :=
  ⟨hS ▸ h.innermost, fun _ => ⟨h, rfl⟩, nofun⟩

theorem ofReturned {r : Option Value} (h : τ.Conforms R S) (hr : Returns result r) :
    Ends R result S S' returns (.returned r) τ := by
  refine ⟨h.innermost, nofun, fun _ he => ?_⟩
  cases he
  exact hr

/-- A block in a scope of its own. -/
theorem pop (hS : S ≠ []) (h : Ends R result ([] :: S) S' returns flow τ) :
    Ends R result S S returns flow { τ with locals := τ.locals.tail } := by
  obtain ⟨scope, hc⟩ := h.scope
  have hp := hc.pop hS
  exact ⟨hp.innermost, fun hn => ⟨hp, (h.normal hn).2⟩, h.returned⟩

theorem weaken (h : Ends R result S S' returns flow τ) : Ends R result S S' false flow τ :=
  ⟨h.scope, fun hn => ⟨(h.normal hn).1, rfl⟩, h.returned⟩

end Ends

section Loops

variable {R : Rules} {result : Ty} {S S' : Scopes} {x : String} {t : Ty} {body : Watched Flow}
  {returns : Bool}

/-- One round of a loop. -/
theorem Report.Safe.round
    (hb : ∀ τ : Scene, τ.Conforms R ([(x, t)] :: S) →
      (body τ).Safe R (Ends R result ([(x, t)] :: S) S' returns))
    {v : Value} (hv : v.Inhabits t) {σ : Scene} (hσ : σ.Conforms R S) :
    (Watched.inScope (do Watched.define x ⟨t, v⟩; body) σ).Safe R (Ends R result S S false) := by
  refine inScope hσ (P := Ends R result ([] :: S) S' false) (fun τ hτ => ?_)
    fun flow τ h => h.pop hσ.ne_nil
  refine bind (define (b := ⟨t, v⟩) hτ hv ?_) fun _ υ hυ => ?_
  · intro hl
    have := hσ.ne_nil
    simp_all
  · exact (hb υ hυ).mono fun flow κ h => ⟨h.scope, fun hn => ⟨(h.normal hn).1, rfl⟩, h.returned⟩

theorem Report.Safe.forItems
    (hb : ∀ τ : Scene, τ.Conforms R ([(x, t)] :: S) →
      (body τ).Safe R (Ends R result ([(x, t)] :: S) S' returns))
    {vs : List Value} (hvs : ∀ v ∈ vs, v.Inhabits t) {σ : Scene} (hσ : σ.Conforms R S) :
    (Watched.forItems x t body vs σ).Safe R (Ends R result S S false) := by
  induction vs generalizing σ with
  | nil => exact .pure (.ofNormal hσ rfl)
  | cons v vs ih =>
    simp only [List.mem_cons, forall_eq_or_imp] at hvs
    simp only [Watched.forItems]
    refine bind (round hb hvs.1 hσ) fun flow τ h => ?_
    cases flow with
    | normal => exact ih hvs.2 (h.normal rfl).1
    | returned r => exact .pure ⟨h.scope, (fun hn => by cases hn), h.returned⟩

end Loops

end Eval

namespace Stmt

theorem tail_extend (S : Scopes) (s : Stmt) : (s.extend S).tail = S.tail := by
  cases s with
  | declare n x t e => cases S <;> rfl
  | _ => rfl

mutual

theorem watch_safe {R : Rules} {functions : Table Function} {invoke : Watched.Invoke}
    (hk : Knows R functions) (hi : CallsSafe R invoke) {result : Ty} : (s : Stmt) →
    ∀ {S : Scopes}, s.Typed R result S → ∀ σ : Scene, σ.Conforms R S →
    (s.watch functions invoke result σ).Safe R (Ends R result S (s.extend S) s.returns)
  | print n e, S, ht, σ, hσ => by
    simp only [watch]
    refine .bind (Expr.watch_safe hk hi e ht σ hσ) fun v τ ⟨_, hτ⟩ => ?_
    refine .bind (.modify (P := fun _ υ => υ.Conforms R S) (hτ.print v)) fun _ υ hυ => ?_
    exact .pure (.ofNormal hυ rfl)
  | forEach n x e body, S, ht, σ, hσ => by
    obtain ⟨he, t, htt, hbody⟩ := ht
    simp only [watch, htt, Option.getD_some]
    refine .bind (Expr.watch_safe hk hi e he σ hσ) fun v τ ⟨hv, hτ⟩ => ?_
    refine .iterate hτ.inhabited hv htt fun vs hvs => ?_
    exact .forItems (fun υ hυ => watchAll_safe hk hi body hbody υ hυ) hvs hτ
  | cond n e yes none, S, ht, σ, hσ => by
    obtain ⟨he, hb, hyes⟩ := ht
    simp only [watch]
    refine .bind (Expr.watch_safe hk hi e he σ hσ) fun v τ ⟨hv, hτ⟩ => ?_
    rw [hb] at hv
    obtain ⟨b, rfl⟩ := hv
    refine .bind (.ofExcept (P := fun a υ => b = a ∧ τ = υ) (.inl ⟨b, rfl, rfl, rfl⟩)) ?_
    rintro _ _ ⟨rfl, rfl⟩
    cases b with
    | true =>
      exact .inScope hτ (fun υ hυ => watchAll_safe hk hi yes hyes υ hυ)
        fun flow υ h => (h.pop hτ.ne_nil).weaken
    | false => exact .pure (.ofNormal hτ rfl)
  | cond n e yes (some no), S, ht, σ, hσ => by
    obtain ⟨he, hb, hyes, hno⟩ := ht
    simp only [watch]
    refine .bind (Expr.watch_safe hk hi e he σ hσ) fun v τ ⟨hv, hτ⟩ => ?_
    rw [hb] at hv
    obtain ⟨b, rfl⟩ := hv
    refine .bind (.ofExcept (P := fun a υ => b = a ∧ τ = υ) (.inl ⟨b, rfl, rfl, rfl⟩)) ?_
    rintro _ _ ⟨rfl, rfl⟩
    cases b with
    | true =>
      refine .inScope hτ (fun υ hυ => watchAll_safe hk hi yes hyes υ hυ) fun flow υ h => ?_
      have h := h.pop hτ.ne_nil
      exact ⟨h.scope, fun hn => ⟨(h.normal hn).1, by simp [returns, (h.normal hn).2]⟩, h.returned⟩
    | false =>
      refine .inScope hτ (fun υ hυ => watchAll_safe hk hi no hno υ hυ) fun flow υ h => ?_
      have h := h.pop hτ.ne_nil
      exact ⟨h.scope, fun hn => ⟨(h.normal hn).1, by simp [returns, (h.normal hn).2]⟩, h.returned⟩
  | declare n x none e, S, ht, σ, hσ => by
    obtain ⟨he, -, -, hg⟩ := ht
    simp only [watch]
    refine .bind (Expr.watch_safe hk hi e he σ hσ) fun v τ ⟨hv, hτ⟩ => ?_
    refine .bind (.define (b := ⟨e.ty, v⟩) hτ hv hg) fun _ υ hυ => ?_
    exact .pure (.ofNormal hυ (tail_extend S (declare n x none e)))
  | declare n x (some t) e, S, ht, σ, hσ => by
    obtain ⟨he, hf, -, hg⟩ := ht
    simp only [watch]
    refine .bind (Expr.watch_safe hk hi e he σ hσ) fun v τ ⟨hv, hτ⟩ => ?_
    refine .bind (.passed hτ.inhabited (hf t rfl) hv) fun _ _ h => ?_
    obtain ⟨rfl, hv⟩ := h
    refine .bind (.define (b := ⟨t.ty, v⟩) hτ hv hg) fun _ υ hυ => ?_
    exact .pure (.ofNormal hυ (tail_extend S (declare n x (some t) e)))
  | assign n x e, S, ht, σ, hσ => by
    obtain ⟨he, t, hx, hf⟩ := ht
    simp only [watch]
    refine .bind (Expr.watch_safe hk hi e he σ hσ) fun v τ ⟨hv, hτ⟩ => ?_
    refine .bind (.assign hτ hx hf hv) fun _ υ hυ => ?_
    exact .pure (.ofNormal hυ rfl)
  | call n e, S, ht, σ, hσ => by
    simp only [watch]
    refine .bind (Expr.watch_safe hk hi e ht σ hσ) fun v τ ⟨_, hτ⟩ => ?_
    exact .pure (.ofNormal hτ rfl)
  | define _ _ _, S, _, σ, hσ | invalid _ _, S, _, σ, hσ => by
    simp only [watch]
    exact .pure (.ofNormal hσ rfl)
  | ret _ none, S, ht, σ, hσ => by
    simp only [watch]
    exact .pure (.ofReturned hσ ht)
  | ret n (some e), S, ht, σ, hσ => by
    obtain ⟨hv, he, hf⟩ := ht
    simp only [watch]
    refine .bind (Expr.watch_safe hk hi e he σ hσ) fun v τ ⟨hvi, hτ⟩ => ?_
    refine .bind (.passed hτ.inhabited hf hvi) fun _ _ h => ?_
    obtain ⟨rfl, hvi⟩ := h
    exact .pure (.ofReturned hτ ⟨hv, hvi⟩)

theorem watchAll_safe {R : Rules} {functions : Table Function} {invoke : Watched.Invoke}
    (hk : Knows R functions) (hi : CallsSafe R invoke) {result : Ty} : (ss : List Stmt) →
    ∀ {S : Scopes}, TypedAll R result S ss → ∀ σ : Scene, σ.Conforms R S →
    (watchAll functions invoke result ss σ).Safe R
      (Ends R result S (extendAll S ss) (lastReturns ss))
  | [], S, _, σ, hσ => .pure (.ofNormal hσ rfl)
  | s :: ss, S, ht, σ, hσ => by
    simp only [watchAll]
    refine .bind (watch_safe hk hi s ht.1 σ hσ) fun flow τ h => ?_
    cases flow with
    | returned v => exact .pure ⟨h.scope, nofun, h.returned⟩
    | normal =>
      refine (watchAll_safe hk hi ss ht.2 τ (h.normal rfl).1).mono fun flow υ h' => ?_
      obtain ⟨h1, h2, h3⟩ := h'
      rw [tail_extend] at h1
      refine ⟨h1, fun hn => ⟨(h2 hn).1, ?_⟩, h3⟩
      cases ss with
      | nil => exact (h.normal rfl).2
      | cons s' ss => exact (h2 hn).2

end

end Stmt

/-! ## Calls and programs -/

theorem Eval.invoke_safe {R : Rules} {functions : Table Function} (hk : Knows R functions)
    (depth : Nat) : CallsSafe R (Watched.invoke functions depth) := by
  induction depth with
  | zero => exact fun f params σ S _ _ _ _ _ => ⟨by simp [Watched.invoke], trivial⟩
  | succ depth ih =>
    intro f params σ S hf hp hin hσ
    simp only [Watched.invoke]
    have hcall : (Watched.inCall params (do
        Watched.record (.stored none)
        Stmt.watchAll functions (Watched.invoke functions depth) f.header.resultTy f.body) σ).Safe R
        fun flow τ => flow.value.Inhabits f.header.resultTy ∧ τ.Conforms R S := by
      refine .inCall hσ hin
        (P := fun flow τ => flow.value.Inhabits f.header.resultTy ∧ ∃ S', τ.Conforms R S')
        (fun τ hτ => .bind (.record hτ.inhabited (by simp)) fun _ _ h => ?_) fun flow τ h => ?_
      · obtain ⟨rfl, -⟩ := h
        rw [hp] at hτ
        refine (Stmt.watchAll_safe hk ih f.body hf.body τ hτ).mono fun flow υ h => ?_
        obtain ⟨⟨scope, hυ⟩, hn, hr⟩ := h
        refine ⟨?_, _, hυ⟩
        cases flow with
        | normal =>
          have hl := (hn rfl).2
          by_cases hv : f.header.resultTy = .void
          · rw [hv]; rfl
          · rw [hf.returns hv] at hl; cases hl
        | returned r =>
          have hr := hr r rfl
          cases r with
          | none => rw [show f.header.resultTy = .void from hr]; rfl
          | some v => exact hr.2
      · obtain ⟨hv, S', hτ⟩ := h
        exact ⟨hv, hσ.leave hτ⟩
    exact .bind hcall fun flow τ h => .pure h

namespace Program

variable {fits : Ty → Ty → Prop} {p : Program}

theorem knows (ht : p.Typed fits) : Knows ⟨p.signatures, p.globals, fits⟩ p.functionTable := by
  intro symbol s hs
  obtain ⟨f, hf, he⟩ := List.mem_map.1 (Table.mem_of_find?_ofList hs)
  cases he
  refine ⟨f, ?_, rfl, ht.functions f hf⟩
  refine Table.find?_ofList (b := (f.header.symbol, f)) ?_ (List.mem_map.2 ⟨f, hf, rfl⟩)
  rw [List.map_map]
  exact (List.nodup_cons.1 ht.symbols).2

/-- The runs of a well-typed program are safe. -/
theorem watch_safe (ht : p.Typed fits) (depth : Nat) :
    (p.watch depth).Safe ⟨p.signatures, p.globals, fits⟩ fun _ τ => τ.Inhabited := by
  have hk := knows ht
  have hi := invoke_safe hk depth
  obtain ⟨body, span⟩ := p
  cases body with
  | expression e =>
    refine .bind (Expr.watch_safe hk hi e ht.body _ (Scene.initial_conforms _)) fun v τ ⟨_, hτ⟩ => ?_
    exact .modify (hτ.print v).inhabited
  | statements ss =>
    refine .bind (Stmt.watchAll_safe hk hi ss ht.body _ (Scene.initial_conforms _)) fun flow τ h => ?_
    obtain ⟨scope, hτ⟩ := h.scope
    exact .pure hτ.inhabited

/-- Types are kept in the run that goes at most `depth` calls deep. -/
structure TypeSafe (p : Program) (depth : Nat) : Prop where
  watched : p.run depth = (p.watch depth).printed
  /-- Each expression has a value of its type. -/
  values : ∀ m ∈ (p.watch depth).moments, ∀ e v, m.event = .evaluated e v → v.Inhabits e.ty
  /-- Each variable holds a value of its type, whenever something happens and at the end. -/
  held : ∀ m ∈ (p.watch depth).moments, ∀ b ∈ m.scene.bindings, b.value.Inhabits b.ty
  heldAtEnd : ∀ τ, (p.watch depth).result = .ok ((), τ) →
    ∀ b ∈ τ.bindings, b.value.Inhabits b.ty
  operands : ∀ operator operand, p.run depth ≠ .error (.fault (.invalidOperand operator operand))
  /-- What cannot be looped over is the value of an expression of type `object`. -/
  iterables : ∀ text, p.run depth = .error (.fault (.notIterable text)) →
    ∃ m ∈ (p.watch depth).moments.getLast?, ∃ e v,
      m.event = .iterated e v ∧ e.ty = .object ∧ v.display = text

/-- Type safety of programs without diagnostics that store into wider types only. -/
theorem run_typeSafe {source file : String} (hd : (parse source file).check.diagnostics = [])
    (hw : (parse source file).Widening) (depth : Nat) :
    (parse source file).check.TypeSafe depth := by
  have hlaw : ∀ ms, Lawful ⟨(parse source file).check.signatures,
      (parse source file).check.globals, fun t s => s.Widens t⟩ ms :=
    fun _ _ _ _ _ _ _ hs hv => hv.widen hs
  obtain ⟨hm, hr⟩ := watch_safe (parse_widening hd hw) depth (hlaw _)
  have hhalt : ∀ h, (parse source file).check.run depth = .error h →
      h.Allowed ((parse source file).check.watch depth).moments := by
    intro h he
    rw [watch_of_run_error he] at hr
    exact hr
  refine ⟨run_eq_watch depth _, fun m h => (hm m h).value, fun m h => (hm m h).scene,
    fun τ hτ => ?_, fun operator operand he => hhalt _ he, fun text he => hhalt _ he⟩
  rw [hτ] at hr
  exact hr

/-- A program that stores an `int` under `object` and loops over an `object`. -/
theorem run_typeSafe_sum :
    let source := "function sum(xs: list<int>): int \x7b var total = 0 for (x in xs) \x7b " ++
      "total = total + x \x7d return total \x7d var o: object = sum([1, 2]) for (y in o) \x7b print(y) \x7d"
    (parse source "sum.cat").check.diagnostics = [] ∧ (parse source "sum.cat").Widening ∧
      (parse source "sum.cat").check.TypeSafe 5 :=
  ⟨by decide +kernel, by decide +kernel, run_typeSafe (by decide +kernel) (by decide +kernel) 5⟩

end Program

end CatScript
