import CatScript.Eval.Run

/-!
# Frames of a run

Branches, the rounds of a loop and calls open scopes and leave them again, also when a return or a
fault leads out of them. Leaving a scope is refused where a call has no other, and ending a call
cuts the scopes at its base, so a scope left too often or too seldom would go unnoticed. Neither
happens: a run ends with the scopes and the base it began with.

Scopes are counted from the global one, which has the number 0. A call begins its frame at the
base. It sees that frame and the globals, so the scopes between them, which belong to its callers,
are out of its reach, and of the globals it can change values only.

Results:
* `Expr.eval_undisturbing`: an expression changes nothing but values of globals.
* `Stmt.exec_containing`: a statement adds names to the innermost scope only, and leaves the frames
  of the callers alone.
* `Eval.frames_balanced`: both for every run, however it ends.
-/
namespace CatScript

namespace Table

variable {α : Type}

def names (t : Table α) : List String := t.map (·.1)

/-- A name that is bound already keeps its place. -/
theorem names_insert {t : Table α} {name : String} (h : t.contains name = true) (a : α) :
    (t.insert name a).names = t.names := by
  induction t with
  | nil => cases h
  | cons b t ih =>
    obtain ⟨k, v⟩ := b
    by_cases hk : k = name
    · simp [names, insert, hk]
    · have hc : contains t name = true := by simpa [contains, find?, hk] using h
      simpa [names, insert, hk] using ih hc

theorem names_assignIn? {name : String} {a : α} {scopes scopes' : List (Table α)}
    (h : assignIn? name a scopes = some scopes') : scopes'.map names = scopes.map names := by
  induction scopes generalizing scopes' with
  | nil => cases h
  | cons scope scopes ih =>
    simp only [assignIn?] at h
    split at h
    · next hc =>
      cases h
      simp only [List.map_cons, names_insert hc]
    · obtain ⟨rest, hr, rfl⟩ := Option.map_eq_some_iff.1 h
      simp only [List.map_cons, ih hr]

end Table

namespace Eval

namespace Store

/-! ## Scopes by number -/

/-- The scope of a number, counted from the global one. -/
def scope? (s : Store) (i : Nat) : Option (Table Value) := s.scopes.reverse[i]?

/-- The names that the scope of a number binds. -/
def names? (s : Store) (i : Nat) : Option (List String) := (s.scope? i).map Table.names

variable {s t u : Store}

theorem scope?_append {inner outer : List (Table Value)} (h : s.scopes = inner ++ outer) {i : Nat}
    (hi : i < outer.length) : s.scope? i = outer.reverse[i]? := by
  rw [scope?, h, List.reverse_append, List.getElem?_append_left (by simpa using hi)]

theorem scope?_of_le {i : Nat} (h : s.scopes.length ≤ i) : s.scope? i = none := by
  rw [scope?, List.getElem?_eq_none (by simpa using h)]

theorem names?_congr (h : t.scopes.map Table.names = s.scopes.map Table.names) (i : Nat) :
    t.names? i = s.names? i := by
  simp only [names?, scope?, ← List.getElem?_map, List.map_reverse, h]

/-- Two stores with the same scopes outside of the innermost ones. -/
theorem scope?_congr {inner inner' outer : List (Table Value)} (h : s.scopes = inner ++ outer)
    (h' : t.scopes = inner' ++ outer) {i : Nat} (hi : i < outer.length) :
    t.scope? i = s.scope? i := by
  rw [scope?_append h hi, scope?_append h' hi]

/-- A scope further in changes none of the numbers. -/
theorem scope?_cons {scope : Table Value} (h : t.scopes = scope :: s.scopes) {i : Nat}
    (hi : i < s.scopes.length) : t.scope? i = s.scope? i := by
  have hs : s.scopes = [] ++ s.scopes := rfl
  have ht : t.scopes = [scope] ++ s.scopes := h
  exact scope?_congr hs ht hi

/-! ## What a run may change -/

/-- As many scopes as before, and the frame where it was. -/
structure Balanced (s t : Store) : Prop where
  length : t.scopes.length = s.scopes.length
  base : t.base = s.base

/-- Only the globals may have changed, and they have the names they had. -/
structure Undisturbed (s t : Store) : Prop extends Balanced s t where
  scopes : ∀ i, 0 < i → t.scope? i = s.scope? i
  globals : t.names? 0 = s.names? 0

/-- Between the globals and the frame nothing has changed, and only the innermost scope may have
names that it did not have. -/
structure Contained (s t : Store) : Prop extends Balanced s t where
  between : ∀ i, 0 < i → i < s.base → t.scope? i = s.scope? i
  names : ∀ i, i + 1 < s.scopes.length → t.names? i = s.names? i

theorem Balanced.trans (h : Balanced s t) (h' : Balanced t u) : Balanced s u :=
  ⟨h'.length.trans h.length, h'.base.trans h.base⟩

namespace Undisturbed

theorem refl (s : Store) : Undisturbed s s := ⟨⟨rfl, rfl⟩, fun _ _ => rfl, rfl⟩

theorem trans (h : Undisturbed s t) (h' : Undisturbed t u) : Undisturbed s u :=
  ⟨h.toBalanced.trans h'.toBalanced, fun i hi => (h'.scopes i hi).trans (h.scopes i hi),
    h'.globals.trans h.globals⟩

theorem contained (h : Undisturbed s t) : Contained s t := by
  refine ⟨h.toBalanced, fun i hi _ => h.scopes i hi, fun i _ => ?_⟩
  cases i with
  | zero => exact h.globals
  | succ i => rw [names?, names?, h.scopes (i + 1) (by omega)]

end Undisturbed

namespace Contained

theorem refl (s : Store) : Contained s s := (Undisturbed.refl s).contained

theorem trans (h : Contained s t) (h' : Contained t u) : Contained s u := by
  refine ⟨h.toBalanced.trans h'.toBalanced, fun i hi hb => ?_, fun i hi => ?_⟩
  · rw [h'.between i hi (h.base ▸ hb), h.between i hi hb]
  · rw [h'.names i (h.length ▸ hi), h.names i hi]

/-- A binding of the innermost scope lies outside of the callers' frames. -/
theorem define (h : s.base < s.scopes.length) (name : String) (v : Value) :
    Contained s (s.define name v) := by
  obtain ⟨scope, scopes, hs⟩ := List.exists_cons_of_length_pos (Nat.zero_lt_of_lt h)
  have hd : (s.define name v).scopes = [scope.insert name v] ++ scopes := by
    simp only [Store.define, hs, List.singleton_append]
  have hb : (s.define name v).base = s.base := by simp only [Store.define, hs]
  have hl : s.scopes.length = scopes.length + 1 := by simp [hs]
  have hs' : s.scopes = [scope] ++ scopes := hs
  have hsame (i : Nat) (hi : i < scopes.length) : (s.define name v).scope? i = s.scope? i :=
    scope?_congr hs' hd hi
  refine ⟨⟨by simp [hd, hl], hb⟩, fun i _ hi => hsame i (by omega), fun i hi => ?_⟩
  rw [names?, names?, hsame i (by omega)]

end Contained

/-- Of the last scope only the values change. -/
theorem assignLast?_spec {name : String} {v : Value} {scopes scopes' : List (Table Value)}
    (h : assignLast? name v scopes = some scopes') :
    scopes'.dropLast = scopes.dropLast ∧ scopes'.map Table.names = scopes.map Table.names := by
  fun_induction assignLast? name v scopes generalizing scopes' with
  | case1 => cases h
  | case2 scope hc =>
    cases h
    exact ⟨rfl, by simp only [List.map_cons, Table.names_insert hc]⟩
  | case3 => cases h
  | case4 scope next scopes ih =>
    obtain ⟨rest, hr, rfl⟩ := Option.map_eq_some_iff.1 h
    obtain ⟨hd, hn⟩ := ih hr
    have hne : rest ≠ [] := by
      rintro rfl
      cases hn
    refine ⟨?_, by simp only [List.map_cons, hn]⟩
    rw [List.dropLast_cons_of_ne_nil hne, hd, List.dropLast_cons_cons]

theorem Contained.assign {name : String} {v : Value} (h : s.base < s.scopes.length)
    (ha : s.assign? name v = some t) : Contained s t := by
  have hsplit : s.scopes = s.locals ++ s.outer := (List.take_append_drop _ _).symm
  have houter : s.outer.length = s.base := by
    simp only [outer, List.length_drop]
    omega
  unfold assign? at ha
  split at ha
  · next locals' hl =>
    cases ha
    have hnames : (locals' ++ s.outer).map Table.names = s.scopes.map Table.names := by
      rw [hsplit, List.map_append, List.map_append, Table.names_assignIn? hl]
    refine ⟨⟨by simpa using congrArg List.length hnames, rfl⟩, fun i _ hi => ?_, fun i _ => ?_⟩
    · exact scope?_congr hsplit rfl (houter ▸ hi)
    · exact names?_congr hnames i
  · split at ha
    · obtain ⟨scopes', hl, rfl⟩ := Option.map_eq_some_iff.1 ha
      obtain ⟨hdrop, hnames⟩ := assignLast?_spec hl
      refine ⟨⟨by simpa using congrArg List.length hnames, rfl⟩, fun i hi _ => ?_, fun i _ => ?_⟩
      · -- a scope with a positive number is not the last one
        obtain ⟨j, rfl⟩ : ∃ j, i = j + 1 := ⟨i - 1, by omega⟩
        simp only [scope?, ← List.getElem?_tail, List.tail_reverse, hdrop]
      · exact names?_congr hnames i
    · cases ha

/-- A scope that is opened and left takes with it all that a run has added. -/
theorem Contained.pop (h : s.base < s.scopes.length) (hc : Contained s.push t) :
    Contained s t.pop := by
  obtain ⟨⟨hl, hb⟩, hbetween, hnames⟩ := hc
  have hlen : t.scopes.length = s.scopes.length + 1 := hl
  have hbase : t.base = s.base := hb
  obtain ⟨scope, scopes, hs⟩ := List.exists_cons_of_length_pos (l := t.scopes) (by omega)
  have hpop : t.pop = { t with scopes := scopes } := by
    unfold Store.pop
    rw [if_pos (by omega), hs, List.tail_cons]
  have hcons : t.scopes = scope :: t.pop.scopes := by rw [hs, hpop]
  have hsl : t.pop.scopes.length = s.scopes.length := by
    rw [hcons, List.length_cons] at hlen
    omega
  have hsame (i : Nat) (hi : i < s.scopes.length) : t.pop.scope? i = t.scope? i :=
    (scope?_cons hcons (hsl ▸ hi)).symm
  have hpush (i : Nat) (hi : i < s.scopes.length) : s.push.scope? i = s.scope? i :=
    scope?_cons rfl hi
  refine ⟨⟨hsl, by rw [hpop, hbase]⟩, fun i hi hib => ?_, fun i hi => ?_⟩
  · rw [hsame i (by omega), hbetween i hi hib, hpush i (by omega)]
  · have hn := hnames i (by simpa [push] using Nat.lt_of_succ_lt hi)
    simp only [names?] at hn ⊢
    rw [hsame i (by omega), hn, hpush i (by omega)]

/-- A call leaves its caller's scopes as they were, except for the values of globals. -/
theorem Undisturbed.leave {bindings : Table Value} (h : s.base < s.scopes.length)
    (hc : Contained (s.enter bindings) t) : Undisturbed s (t.leave s.base) := by
  obtain ⟨⟨hl, hb⟩, hbetween, hnames⟩ := hc
  have hlen : t.scopes.length = s.scopes.length + 1 := hl
  have hbase : t.base = s.scopes.length := hb
  obtain ⟨scope, scopes, hs⟩ := List.exists_cons_of_length_pos (l := t.scopes) (by omega)
  have hleave : t.leave s.base = { t with scopes := scopes, base := s.base } := by
    unfold Store.leave
    rw [hlen, hbase, Nat.add_sub_cancel_left, hs, List.drop_one, List.tail_cons]
  have hcons : t.scopes = scope :: (t.leave s.base).scopes := by rw [hs, hleave]
  have hsl : (t.leave s.base).scopes.length = s.scopes.length := by
    rw [hcons, List.length_cons] at hlen
    omega
  have hsame (i : Nat) (hi : i < s.scopes.length) : (t.leave s.base).scope? i = t.scope? i :=
    (scope?_cons hcons (hsl ▸ hi)).symm
  have henter (i : Nat) (hi : i < s.scopes.length) : (s.enter bindings).scope? i = s.scope? i :=
    scope?_cons rfl hi
  refine ⟨⟨hsl, by rw [hleave]⟩, fun i hi => ?_, ?_⟩
  · by_cases hil : i < s.scopes.length
    · rw [hsame i hil, hbetween i hi hil, henter i hil]
    · rw [scope?_of_le (by omega), scope?_of_le (by omega)]
  · have hn := hnames 0 (by simpa [enter] using Nat.zero_lt_of_lt h)
    simp only [names?] at hn ⊢
    rw [hsame 0 (by omega), hn, henter 0 (by omega)]

end Store

open Store

/-! ## Actions -/

/-- The store in which an action has ended. -/
def endStore {α : Type} : EStateM.Result Halt Store α → Store
  | .ok _ s | .error _ s => s

/-- A relation between the stores before and behind an action that can be carried along a run. -/
structure Framing (R : Store → Store → Prop) : Prop where
  refl : ∀ s, R s s
  trans : ∀ {s t u}, R s t → R t u → R s u
  balanced : ∀ {s t}, R s t → Balanced s t

theorem undisturbed_framing : Framing Undisturbed :=
  ⟨.refl, .trans, Undisturbed.toBalanced⟩

theorem contained_framing : Framing Contained :=
  ⟨.refl, .trans, Contained.toBalanced⟩

/-- Whatever an action ends in, `R` holds between the stores before and behind it. -/
def Leaves {α : Type} (R : Store → Store → Prop) (a : Action α) : Prop :=
  ∀ s : Store, s.base < s.scopes.length → R s (endStore (a s))

namespace Leaves

variable {α β : Type} {R : Store → Store → Prop} {a : Action α}

theorem mono {R' : Store → Store → Prop} (h : Leaves R a) (hR : ∀ {s t}, R s t → R' s t) :
    Leaves R' a :=
  fun s hs => hR (h s hs)

theorem pure (hR : Framing R) (v : α) : Leaves R (Pure.pure v) := fun s _ => hR.refl s

theorem fail (hR : Framing R) (f : Fault) : Leaves R (Eval.fail f : Action α) :=
  fun s _ => hR.refl s

theorem ofExcept (hR : Framing R) (r : Except Fault α) : Leaves R (Action.ofExcept r) := by
  cases r with
  | ok v => exact pure hR v
  | error f => exact fail hR f

theorem bind (hR : Framing R) {f : α → Action β} (ha : Leaves R a) (hf : ∀ v, Leaves R (f v)) :
    Leaves R (a >>= f) := by
  intro s hs
  have h := ha s hs
  show R s (endStore (EStateM.bind a f s))
  unfold EStateM.bind
  cases hr : a s with
  | error e t =>
    rw [hr] at h
    exact h
  | ok v t =>
    rw [hr] at h
    obtain ⟨hlength, hbase⟩ : Balanced s t := hR.balanced h
    exact hR.trans h (hf v t (by omega))

theorem lookUp (hR : Framing R) (x : String) : Leaves R (Eval.lookUp x) := by
  intro s _
  rw [lookUp_apply]
  cases s.find? x <;> exact hR.refl s

theorem lookUpFunction (hR : Framing R) (symbol : String) : Leaves R (Eval.lookUpFunction symbol) := by
  intro s _
  rw [lookUpFunction_apply]
  cases s.functions.find? symbol <;> exact hR.refl s

theorem items (hR : Framing R) (v : Value) : Leaves R (Eval.items v) := by
  cases v with
  | list vs => exact pure hR vs
  | _ => exact fail hR _

theorem print (v : Value) : Leaves Contained (modify (Store.print · v)) :=
  fun _ _ => ⟨⟨rfl, rfl⟩, fun _ _ _ => rfl, fun _ _ => rfl⟩

theorem define (x : String) (v : Value) : Leaves Contained (modify (Store.define · x v)) :=
  fun _ hs => .define hs x v

theorem assign (x : String) (v : Value) : Leaves Contained (Eval.assign x v) := by
  intro s hs
  rw [assign_apply]
  cases ha : s.assign? x v with
  | none => exact .refl s
  | some t => exact .assign hs ha

theorem endStore_ending (f : Store → Store) (s : Store) :
    endStore (ending a f s) = f (endStore (a s)) := by
  unfold ending
  cases a s <;> rfl

theorem inScope (ha : Leaves Contained a) : Leaves Contained (Eval.inScope a) := by
  intro s hs
  rw [Eval.inScope, endStore_ending]
  have hpush : s.push.base < s.push.scopes.length := Nat.lt_succ_of_lt hs
  exact .pop hs (ha s.push hpush)

theorem inCall (bindings : Table Value) (ha : Leaves Contained a) :
    Leaves Undisturbed (Eval.inCall bindings a) := by
  intro s hs
  rw [Eval.inCall, endStore_ending]
  have henter : (s.enter bindings).base < (s.enter bindings).scopes.length := Nat.lt_succ_self _
  exact .leave hs (ha (s.enter bindings) henter)

theorem forItems (x : String) {body : Action Flow} (hbody : Leaves Contained body)
    (vs : List Value) : Leaves Contained (Eval.forItems x body vs) := by
  induction vs with
  | nil => exact pure contained_framing _
  | cons v vs ih =>
    simp only [Eval.forItems]
    refine bind contained_framing
      (inScope (bind contained_framing (define x v) fun _ => hbody)) fun flow => ?_
    cases flow with
    | normal => exact ih
    | returned r => exact pure contained_framing _

end Leaves

end Eval

open Eval Store

/-! ## Expressions and statements -/

namespace Expr

mutual

theorem eval_undisturbing {invoke : Invoke}
    (hc : ∀ f bindings, Leaves Undisturbed (invoke f bindings)) :
    (e : Expr) → Leaves Undisturbed (e.eval invoke)
  | int _ _ | str _ _ | bool _ _ | null _ => by
    simp only [eval]
    exact .pure undisturbed_framing _
  | var _ x => by
    simp only [eval]
    exact .lookUp undisturbed_framing x
  | unary _ op e => by
    simp only [eval]
    exact .bind undisturbed_framing (eval_undisturbing hc e) fun _ => .ofExcept undisturbed_framing _
  | binary _ op l r => by
    simp only [eval]
    refine .bind undisturbed_framing (eval_undisturbing hc l) fun _ => ?_
    refine .bind undisturbed_framing (.ofExcept undisturbed_framing _) fun _ => ?_
    exact .bind undisturbed_framing (eval_undisturbing hc r) fun _ => .ofExcept undisturbed_framing _
  | paren _ e => by
    simp only [eval]
    exact eval_undisturbing hc e
  | list _ es => by
    simp only [eval]
    exact .bind undisturbed_framing (evalAll_undisturbing hc es) fun _ => .pure undisturbed_framing _
  | call _ f es symbol => by
    simp only [eval]
    refine .bind undisturbed_framing (.lookUpFunction undisturbed_framing _) fun function => ?_
    refine .bind undisturbed_framing (evalArgs_undisturbing hc function.header.params es)
      fun bindings => ?_
    exact hc function _

theorem evalAll_undisturbing {invoke : Invoke}
    (hc : ∀ f bindings, Leaves Undisturbed (invoke f bindings)) :
    (es : List Expr) → Leaves Undisturbed (evalAll invoke es)
  | [] => .pure undisturbed_framing _
  | e :: es => by
    simp only [evalAll]
    refine .bind undisturbed_framing (eval_undisturbing hc e) fun _ => ?_
    exact .bind undisturbed_framing (evalAll_undisturbing hc es) fun _ => .pure undisturbed_framing _

theorem evalArgs_undisturbing {invoke : Invoke}
    (hc : ∀ f bindings, Leaves Undisturbed (invoke f bindings)) :
    (ps : List Param) → (es : List Expr) → Leaves Undisturbed (evalArgs invoke ps es)
  | [], [] | [], _ :: _ | _ :: _, [] => .pure undisturbed_framing _
  | p :: ps, e :: es => by
    simp only [evalArgs]
    refine .bind undisturbed_framing (eval_undisturbing hc e) fun _ => ?_
    exact .bind undisturbed_framing (evalArgs_undisturbing hc ps es)
      fun _ => .pure undisturbed_framing _

end

/-- What holds behind an expression holds behind the part of a statement that it is. -/
theorem eval_containing {invoke : Invoke}
    (hc : ∀ f bindings, Leaves Undisturbed (invoke f bindings)) (e : Expr) :
    Leaves Contained (e.eval invoke) :=
  (eval_undisturbing hc e).mono Undisturbed.contained

end Expr

namespace Stmt

mutual

theorem exec_containing {invoke : Invoke}
    (hc : ∀ f bindings, Leaves Undisturbed (invoke f bindings)) :
    (s : Stmt) → Leaves Contained (s.exec invoke)
  | print _ e => by
    simp only [exec]
    refine .bind contained_framing (e.eval_containing hc) fun v => ?_
    exact .bind contained_framing (.print v) fun _ => .pure contained_framing _
  | forEach _ x e body => by
    simp only [exec]
    refine .bind contained_framing (e.eval_containing hc) fun v => ?_
    refine .bind contained_framing (.items contained_framing v) fun vs => ?_
    exact .forItems x (execAll_containing hc body) vs
  | cond _ e yes none => by
    simp only [exec]
    refine .bind contained_framing (e.eval_containing hc) fun v => ?_
    refine .bind contained_framing (.ofExcept contained_framing _) fun b => ?_
    cases b with
    | true => exact .inScope (execAll_containing hc yes)
    | false => exact .pure contained_framing _
  | cond _ e yes (some no) => by
    simp only [exec]
    refine .bind contained_framing (e.eval_containing hc) fun v => ?_
    refine .bind contained_framing (.ofExcept contained_framing _) fun b => ?_
    cases b with
    | true => exact .inScope (execAll_containing hc yes)
    | false => exact .inScope (execAll_containing hc no)
  | declare _ x _ e => by
    simp only [exec]
    refine .bind contained_framing (e.eval_containing hc) fun v => ?_
    exact .bind contained_framing (.define x v) fun _ => .pure contained_framing _
  | assign _ x e => by
    simp only [exec]
    refine .bind contained_framing (e.eval_containing hc) fun v => ?_
    exact .bind contained_framing (.assign x v) fun _ => .pure contained_framing _
  | call _ e | ret _ (some e) => by
    simp only [exec]
    exact .bind contained_framing (e.eval_containing hc) fun _ => .pure contained_framing _
  | define _ _ _ | ret _ none | invalid _ _ => by
    simp only [exec]
    exact .pure contained_framing _

theorem execAll_containing {invoke : Invoke}
    (hc : ∀ f bindings, Leaves Undisturbed (invoke f bindings)) :
    (ss : List Stmt) → Leaves Contained (execAll invoke ss)
  | [] => .pure contained_framing _
  | s :: ss => by
    simp only [execAll]
    refine .bind contained_framing (exec_containing hc s) fun flow => ?_
    cases flow with
    | normal => exact execAll_containing hc ss
    | returned v => exact .pure contained_framing _

end

end Stmt

/-- The bound on the depth of calls stops a run at a call, where the frames are as they were. -/
theorem Eval.invoke_undisturbing (depth : Nat) (f : Function) (bindings : Table Value) :
    Leaves Undisturbed (invoke depth f bindings) := by
  induction depth generalizing f bindings with
  | zero => exact fun s _ => .refl s
  | succ depth ih =>
    simp only [invoke]
    exact .bind undisturbed_framing (.inCall bindings (Stmt.execAll_containing ih f.body))
      fun _ => .pure undisturbed_framing _

/-- From every store whose frame has a scope, and in whatever way it ends, an expression leaves all
scopes but the globals as they are and the globals their names, and statements leave the scopes
between the globals and the frame as they are and all scopes but the innermost one their names. The
number of scopes and the base are what they were. -/
theorem Eval.frames_balanced (depth : Nat) (s : Store) (h : s.base < s.scopes.length) :
    (∀ e : Expr, Undisturbed s (endStore (e.eval (invoke depth) s))) ∧
      ∀ body : List Stmt, Contained s (endStore (Stmt.execAll (invoke depth) body s)) :=
  ⟨fun e => e.eval_undisturbing (invoke_undisturbing depth) s h,
    fun body => Stmt.execAll_containing (invoke_undisturbing depth) body s h⟩

/-- A loop in a called function that changes a global and then fails in a branch: the scopes of the
loop and of the branch are gone, the caller's variable is as it was, and the global has its new
value. -/
theorem Eval.frames_balanced_fault :
    let s : Store := ⟨[[("p", .int 1)], [("a", .int 7)], [("n", .int 0)]], 2, [], []⟩
    let blank : Expr.Note := .fresh .nowhere []
    let quotient : Expr := .binary blank .div (.var blank "p") (.int blank 0)
    let body : List Stmt :=
      [.forEach ⟨.nowhere, []⟩ "i" (.list blank [.int blank 4])
        [.assign ⟨.nowhere, []⟩ "n" (.var blank "i"),
         .cond ⟨.nowhere, []⟩ (.bool blank true) [.print ⟨.nowhere, []⟩ quotient] none]]
    s.base < s.scopes.length ∧ Undisturbed s (endStore (quotient.eval (invoke 0) s)) ∧
      Contained s (endStore (Stmt.execAll (invoke 0) body s)) ∧
      Stmt.execAll (invoke 0) body s = .error (.fault .divisionByZero)
        { s with scopes := [[("p", .int 1)], [("a", .int 7)], [("n", .int 4)]] } := by
  intro s blank quotient body
  obtain ⟨heval, hexec⟩ := frames_balanced 0 s (by decide)
  exact ⟨by decide, heval quotient, hexec body, rfl⟩

end CatScript
