import CatScript.Proofs.Eval.Erasure
import CatScript.Proofs.Typing.Sited

/-!
# What names reach

The declarations on the stack of a ledger, and what a run does to them. A run that keeps to the
declarations in sight finds under a name the binding made by the name's origin, or nothing, if
the origin is a global variable that has not been declared yet and a function uses it.

`Stack.Sees` relates a stack to the declarations in sight. In the main program these are the
stack. Inside a function they are the scopes of the call and some of the globals. `Ledger.Holds`
gives the declarations on the stack and says that the entries so far are as they should be.
`Meets` is what a run has to meet, and the rules for it say what the parts of the evaluator do:
a use of a name, an assignment, a scope and a call leave the declarations on the stack as they
were.
-/
namespace CatScript

open Typing

/-! ## Faults of operators -/

/-- Faults that come from values and not from names. -/
def Eval.Fault.OfValues : Eval.Fault → Prop
  | .unknownFunction _ | .unboundVariable _ => False
  | _ => True

open Eval (Fault)

theorem Value.asInt_error {operator : String} {v : Value} {f : Fault}
    (h : v.asInt operator = .error f) : f.OfValues := by
  cases v <;> cases h <;> trivial

theorem Value.asBool_error {operator : String} {v : Value} {f : Fault}
    (h : v.asBool operator = .error f) : f.OfValues := by
  cases v <;> cases h <;> trivial

theorem Eval.Fault.error_of_map {α β : Type} {r : Except Fault α} {g : α → β} {f : Fault}
    (h : r.map g = .error f) : r = .error f := by
  cases r with
  | ok a => cases h
  | error f' => cases h; rfl

theorem UnaryOp.apply_error {op : UnaryOp} {v : Value} {f : Fault}
    (h : op.apply v = .error f) : f.OfValues := by
  cases op with
  | negate => exact Value.asInt_error (Eval.Fault.error_of_map h)
  | not => exact Value.asBool_error (Eval.Fault.error_of_map h)

namespace BinaryOp

theorem onInts_error {op : BinaryOp} {a b : Int64} {f : Fault} (h : op.onInts a b = .error f) :
    f.OfValues := by
  cases op with
  | div =>
    simp only [onInts] at h
    split at h
    · cases h; trivial
    · cases h
  | _ => cases h

theorem onNumbers_error {op : BinaryOp} {v w : Value} {f : Fault}
    (h : op.onNumbers v w = .error f) : f.OfValues := by
  unfold onNumbers at h
  cases hv : v.asInt op.text with
  | error f' => rw [hv] at h; cases h; exact Value.asInt_error hv
  | ok a =>
    cases hw : w.asInt op.text with
    | error f' => rw [hv, hw] at h; cases h; exact Value.asInt_error hw
    | ok b => rw [hv, hw] at h; exact onInts_error h

theorem apply_error {op : BinaryOp} {v w : Value} {f : Fault} (h : op.apply v w = .error f) :
    f.OfValues := by
  cases op with
  | eq | ne => cases h
  | add =>
    simp only [apply] at h
    split at h
    · cases h
    · exact onNumbers_error h
  | _ => exact onNumbers_error h

theorem leftOperand_error {op : BinaryOp} {v : Value} {f : Fault}
    (h : op.leftOperand v = .error f) : f.OfValues := by
  cases op with
  | add | sub | eq | ne => cases h
  | _ => exact Value.asInt_error (Eval.Fault.error_of_map h)

end BinaryOp

namespace Eval

/-! ## Declarations on the stack -/

namespace Stack

variable {G : Table Declaration} {D : List (Table Declaration)} {t : Stack Declaration}

/-- The stack of a run at a place that sees the declarations `D`, in a program with global
variables `G`. -/
inductive Sees (G : Table Declaration) : List (Table Declaration) → Stack Declaration → Prop where
  | main {t : Stack Declaration} : t.base = 0 → t.scopes ≠ [] → Sees G t.scopes t
  | call {t : Stack Declaration} {g : Table Declaration} : 0 < t.base →
      t.base < t.scopes.length → (∀ x d, g.find? x = some d → G.find? x = some d) →
      Sees G (t.locals ++ [g]) t

namespace Sees

theorem lt (h : Sees G D t) : t.base < t.scopes.length := by
  cases h with
  | main hb hs =>
    have := List.length_pos_iff.2 hs
    omega
  | call _ hl _ => exact hl

theorem ne_nil (h : Sees G D t) : t.scopes ≠ [] := by
  have := h.lt
  exact List.length_pos_iff.1 (by omega)

/-- One scope is in sight in the main block only. -/
theorem length_eq_one (h : Sees G D t) : D.length = 1 ↔ t.scopes.length = 1 := by
  cases h with
  | main hb hs => rfl
  | call hb hl hg =>
    simp only [locals, List.length_append, List.length_take, List.length_cons, List.length_nil]
    omega

theorem push (h : Sees G D t) : Sees G ([] :: D) t.push := by
  cases h with
  | main hb hs => exact .main (t := t.push) hb (List.cons_ne_nil _ _)
  | @call _ g hb hl hg =>
    have he : t.push.locals = [] :: t.locals := by
      have hn : t.scopes.length + 1 - t.base = (t.scopes.length - t.base) + 1 := by omega
      simp only [locals, Stack.push, List.length_cons, hn, List.take_succ_cons]
    have := call (G := G) (t := t.push) hb (by simp only [Stack.push, List.length_cons]; omega) hg
    rwa [he] at this

/-- Entering a function that sees its parameters and the globals in `g`. -/
theorem enter (h : Sees G D t) (params : Table Declaration) {g : Table Declaration}
    (hg : ∀ x d, g.find? x = some d → G.find? x = some d) :
    Sees G [params, g] (t.enter params) := by
  have hlt := h.lt
  have hl : (t.enter params).locals = [params] := by
    simp [locals, Stack.enter]
  have := call (G := G) (t := t.enter params) (by simp only [Stack.enter]; omega)
    (by simp [Stack.enter]) hg
  rwa [hl] at this

theorem define (h : Sees G D t) (x : String) (d : Declaration) :
    Sees G (Table.insertIn x d D) (t.define x d) := by
  obtain ⟨scope, scopes, hs⟩ := List.exists_cons_of_ne_nil h.ne_nil
  cases h with
  | main hb _ => exact .main (t := t.define x d) hb (by simp [Stack.define, hs, Table.insertIn])
  | @call _ g hb hl hg =>
    have he : (t.define x d).locals ++ [g] = Table.insertIn x d (t.locals ++ [g]) := by
      rw [hs, List.length_cons] at hl
      have hn : scopes.length + 1 - t.base = (scopes.length - t.base) + 1 := by omega
      simp only [locals, Stack.define, hs, Table.insertIn, List.length_cons, hn,
        List.take_succ_cons, List.cons_append]
    rw [← he]
    exact .call hb (by simpa [Stack.define, hs, Table.insertIn] using hl) hg

/-- A name that is in sight finds the binding of its innermost declaration, if any. -/
theorem find?_eq (h : Sees G D t) (hG : Below G t.scopes) {x : String} {d e : Declaration}
    (hd : Table.findIn? x D = some d) (he : t.find? x = some e) : e = d := by
  cases h with
  | main hb hs =>
    have hl : t.locals = t.scopes := by simp [locals, hb]
    simp only [Stack.find?, hl, hd, Option.some_or, Option.some.injEq] at he
    exact he.symm
  | @call _ g hb hl hg =>
    rw [Table.findIn?_append] at hd
    unfold Stack.find? at he
    cases hf : Table.findIn? x t.locals with
    | some c =>
      rw [hf] at hd he
      cases hd
      cases he
      rfl
    | none =>
      rw [hf, Option.none_or] at hd he
      rw [if_pos hb] at he
      obtain ⟨scope, hlast, he⟩ := Option.bind_eq_some_iff.1 he
      simp only [Table.findIn?_cons, Table.findIn?_nil, Option.or_none] at hd
      have h1 := hG scope hlast x e he
      rw [hg x d hd, Option.some.injEq] at h1
      exact h1.symm

/-- A name that is in sight and finds nothing is a global variable used by a function. -/
theorem find?_none (h : Sees G D t) {x : String} {d : Declaration}
    (hd : Table.findIn? x D = some d) (hn : t.find? x = none) :
    0 < t.base ∧ G.find? x = some d ∧ ∀ scope ∈ t.scopes.getLast?, scope.find? x = none := by
  unfold Stack.find? at hn
  rw [Option.or_eq_none_iff] at hn
  cases h with
  | main hb hs =>
    have hl : t.locals = t.scopes := by simp [locals, hb]
    rw [hl, hd] at hn
    cases hn.1
  | @call _ g hb hl hg =>
    rw [Table.findIn?_append, hn.1, Option.none_or] at hd
    simp only [Table.findIn?_cons, Table.findIn?_nil, Option.or_none] at hd
    rw [if_pos hb] at hn
    refine ⟨hb, hg x d hd, fun scope hs => ?_⟩
    have := hn.2
    rw [Option.mem_def.1 hs] at this
    exact this

end Sees

end Stack

/-! ## What a ledger says -/

/-- Every name that was used has reached a binding made by its origin. -/
def Sure (origin : Place → String → Option Declaration) (entries : List Entry) : Prop :=
  ∀ m ∈ entries, ∀ x reached, m.event = .used x reached →
    ∃ d, reached = some d ∧ origin m.place x = some d

/-- The declarations of variables in the main block, under their names. -/
def TopLevel (G : Table Declaration) : Prop := ∀ x d, G.find? x = some d → ∃ i, d = .variable [i] x

/-- Why a run may stop, with the entries made until then. A name that reaches nothing is used in
a function and comes from a global variable that has not been declared before. -/
def Halt.Expected (origin : Place → String → Option Declaration) (G : Table Declaration)
    (entries : List Entry) : Halt → Prop
  | .fault (.unknownFunction _) => False
  | .fault (.unboundVariable x) =>
    ∃ m earlier d, entries = m :: earlier ∧ Sure origin earlier ∧ m.called = true ∧
      m.event = .used x none ∧ origin m.place x = some d ∧ G.find? x = some d ∧
      ∀ n ∈ earlier, n.event ≠ .declared d
  | _ => Sure origin entries

/-- A name that reaches nothing is where the run stops. -/
theorem Halt.Expected.used {origin : Place → String → Option Declaration} {G : Table Declaration}
    {entries : List Entry} {h : Halt} (he : h.Expected origin G entries) (m : Entry)
    (hm : m ∈ entries) (x : String) (reached : Option Declaration)
    (hu : m.event = .used x reached) :
    (∃ d, reached = some d ∧ origin m.place x = some d) ∨
      (reached = none ∧ h = .fault (.unboundVariable x)) := by
  cases h with
  | tooDeep => exact .inl (he m hm x reached hu)
  | fault f =>
    cases f with
    | unknownFunction symbol => exact he.elim
    | unboundVariable y =>
      obtain ⟨last, earlier, d, rfl, hsure, -, hlast, -⟩ := he
      rcases List.mem_cons.1 hm with rfl | hm
      · rw [hlast] at hu
        cases hu
        exact .inr ⟨rfl, rfl⟩
      · exact .inl (hsure m hm x reached hu)
    | _ => exact .inl (he m hm x reached hu)

/-- A ledger with the declarations `t` on its stack. Global variables that have been declared are
in the global scope, and it has no others. -/
structure Ledger.Holds (origin : Place → String → Option Declaration) (G : Table Declaration)
    (t : Stack Declaration) (l : Ledger) : Prop where
  stack : l.stack.map Cell.origin = t
  globals : Below G t.scopes
  declared : ∀ m ∈ l.entries, ∀ i x, m.event = .declared (.variable [i] x) →
    ∃ scope ∈ t.scopes.getLast?, scope.find? x = some (.variable [i] x)
  sure : Sure origin l.entries

variable {origin : Place → String → Option Declaration} {G : Table Declaration}
  {t t' : Stack Declaration} {l : Ledger}

namespace Ledger.Holds

theorem initial (origin : Place → String → Option Declaration) (G : Table Declaration) :
    Ledger.initial.Holds origin G ⟨[[]], 0⟩ := by
  refine ⟨rfl, fun scope hs x d hx => ?_, by simp [Ledger.initial], by simp [Ledger.initial, Sure]⟩
  cases hs
  cases hx

/-- A change of the stack that leaves the global scope as it is. -/
theorem change (h : l.Holds origin G t) {f : Stack Cell → Stack Cell}
    (hs : (f l.stack).map Cell.origin = t') (hl : t'.scopes.getLast? = t.scopes.getLast?) :
    (l.change f).Holds origin G t' := by
  refine ⟨hs, ?_, ?_, h.sure⟩
  · unfold Below
    rw [hl]
    exact h.globals
  · rw [hl]
    exact h.declared

theorem print (h : l.Holds origin G t) (v : Value) : (l.print v).Holds origin G t :=
  ⟨h.stack, h.globals, h.declared, h.sure⟩

theorem find?_eq (h : l.Holds origin G t) (x : String) :
    t.find? x = (l.stack.find? x).map Cell.origin := by
  rw [← h.stack, Stack.find?_map]

theorem record (h : l.Holds origin G t) (m : Entry)
    (hd : ∀ i x, m.event = .declared (.variable [i] x) →
      ∃ scope ∈ t.scopes.getLast?, scope.find? x = some (.variable [i] x))
    (hu : ∀ x reached, m.event = .used x reached →
      ∃ d, reached = some d ∧ origin m.place x = some d) :
    Ledger.Holds origin G t { l with entries := m :: l.entries } := by
  refine ⟨h.stack, h.globals, fun n hn => ?_, fun n hn => ?_⟩
  · rcases List.mem_cons.1 hn with rfl | hn
    · exact hd
    · exact h.declared n hn
  · rcases List.mem_cons.1 hn with rfl | hn
    · exact hu
    · exact h.sure n hn

/-- Binding a variable in the innermost scope. In the global scope that is one of the globals. -/
theorem define (h : l.Holds origin G t) {x : String} {c : Cell}
    (hx : t.scopes.length = 1 → G.find? x = some c.origin) :
    (l.change (Stack.define · x c)).Holds origin G (t.define x c.origin) := by
  have hs : (l.stack.define x c).map Cell.origin = t.define x c.origin := by
    rw [Stack.map_define, h.stack]
  by_cases hl : t.scopes.length = 1
  · obtain ⟨scope, ht⟩ := List.length_eq_one_iff.1 hl
    have hx := hx hl
    have hlast : (t.define x c.origin).scopes.getLast? = some (scope.insert x c.origin) := by
      simp [Stack.define, ht, Table.insertIn]
    have hscope : ∀ y d, scope.find? y = some d → G.find? y = some d :=
      h.globals scope (by simp [ht])
    refine ⟨hs, ?_, ?_, h.sure⟩
    · intro scope' hm y d hy
      rw [hlast] at hm
      cases hm
      rw [Table.find?_insert] at hy
      split at hy
      · next he => cases hy; rw [he]; exact hx
      · exact hscope y d hy
    · intro m hm i y he
      obtain ⟨scope', hm', hy⟩ := h.declared m hm i y he
      rw [ht] at hm'
      cases hm'
      refine ⟨_, hlast, ?_⟩
      rw [Table.find?_insert]
      split
      -- what has been declared under this name is the variable that is bound now
      · next hyx =>
        subst hyx
        have := hscope y _ hy
        rwa [hx] at this
      · exact hy
  · refine h.change hs ?_
    obtain ⟨scopes, base⟩ := t
    obtain _ | ⟨scope, _ | ⟨next, rest⟩⟩ := scopes
    · rfl
    · exact absurd rfl hl
    · simp [Stack.define, Table.insertIn, List.getLast?_cons_cons]

end Ledger.Holds

/-! ## Runs -/

/-- A run that stops for an expected reason, or ends as `post` says. -/
def Meets {α : Type} (origin : Place → String → Option Declaration) (G : Table Declaration)
    (r : EStateM.Result Halt Ledger α) (post : α → Ledger → Prop) : Prop :=
  match r with
  | .ok a l => post a l
  | .error h l => h.Expected origin G l.entries

namespace Meets

variable {α β : Type}

theorem mono {r : EStateM.Result Halt Ledger α} {P Q : α → Ledger → Prop}
    (h : Meets origin G r P) (hPQ : ∀ a l, P a l → Q a l) : Meets origin G r Q := by
  cases r with
  | ok a l => exact hPQ a l h
  | error e l => exact h

theorem pure {a : α} {P : α → Ledger → Prop} (h : P a l) :
    Meets origin G ((Pure.pure a : Traced α) l) P := h

theorem bind {w : Traced α} {k : α → Traced β} {P : α → Ledger → Prop} {Q : β → Ledger → Prop}
    (hw : Meets origin G (w l) P) (hk : ∀ a l', P a l' → Meets origin G (k a l') Q) :
    Meets origin G ((w >>= k) l) Q := by
  show Meets origin G (EStateM.bind w k l) Q
  unfold EStateM.bind
  cases hr : w l with
  | ok a l' =>
    rw [hr] at hw
    exact hk a l' hw
  | error e l' =>
    rw [hr] at hw
    exact hw

theorem fail {f : Fault} {P : α → Ledger → Prop} (hf : f.OfValues) (hl : l.Holds origin G t) :
    Meets origin G ((Traced.fail f : Traced α) l) P := by
  cases f with
  | unknownFunction symbol => exact hf.elim
  | unboundVariable x => exact hf.elim
  | _ => exact hl.sure

theorem ofExcept {r : Except Fault α} (hf : ∀ f, r = .error f → f.OfValues)
    (hl : l.Holds origin G t) :
    Meets origin G (Traced.ofExcept r l) fun _ l' => l'.Holds origin G t := by
  cases r with
  | ok a => exact pure hl
  | error f => exact fail (hf f rfl) hl

theorem items (v : Value) (hl : l.Holds origin G t) :
    Meets origin G (Traced.items v l) fun _ l' => l'.Holds origin G t := by
  cases v with
  | list vs => exact pure hl
  | _ => exact fail trivial hl

/-- A name in sight reaches the binding made by its origin. -/
theorem reach (hG : TopLevel G) {D : List (Table Declaration)} {here : Place} {x : String}
    (hl : l.Holds origin G t) (ht : Stack.Sees G D t) (hx : Settled origin here D [x]) :
    Meets origin G (Traced.reach here x l) fun c l' =>
      l'.Holds origin G t ∧ t.find? x = some c.origin := by
  obtain ⟨d, ho, hd⟩ := hx x (List.mem_singleton_self x)
  have hf := hl.find?_eq x
  rw [Erases.reach_eq]
  cases hc : l.stack.find? x with
  | some c =>
    rw [hc] at hf
    have hcd : c.origin = d := ht.find?_eq hl.globals hd hf
    refine pure ⟨hl.record _ nofun fun y reached he => ?_, hf⟩
    cases he
    exact ⟨d, by rw [Option.map_some, hcd], ho⟩
  | none =>
    rw [hc] at hf
    obtain ⟨hb, hd, hlast⟩ := ht.find?_none hd hf
    obtain ⟨i, rfl⟩ := hG x d hd
    refine ⟨_, _, _, rfl, hl.sure, ?_, rfl, ho, hd, fun m hm he => ?_⟩
    · rw [← hl.stack] at hb
      simpa using hb
    · obtain ⟨scope, hs, hx⟩ := hl.declared m hm i x he
      rw [hlast scope hs] at hx
      cases hx

theorem define {here : Place} {x : String} {c : Cell} (hl : l.Holds origin G t)
    (hx : t.scopes.length = 1 → G.find? x = some c.origin)
    (hd : ∀ i y, c.origin = .variable [i] y → y = x ∧ t.scopes.length = 1) :
    Meets origin G (Traced.define here x c l) fun _ l' =>
      l'.Holds origin G (t.define x c.origin) := by
  refine (hl.define hx).record _ (fun i y hm => ?_) nofun
  have he : c.origin = .variable [i] y := by
    simpa using hm
  obtain ⟨rfl, hlen⟩ := hd i y he
  obtain ⟨scope, hs⟩ := List.length_eq_one_iff.1 hlen
  refine ⟨scope.insert y c.origin, by simp [Stack.define, hs, Table.insertIn], ?_⟩
  rw [Table.find?_insert_self, he]

/-- An assignment leaves all declarations as they are. -/
theorem assign (hG : TopLevel G) {D : List (Table Declaration)} {here : Place} {x : String}
    {v : Value} (hl : l.Holds origin G t) (ht : Stack.Sees G D t)
    (hx : Settled origin here D [x]) :
    Meets origin G (Traced.assign here x v l) fun _ l' => l'.Holds origin G t := by
  refine bind (reach hG hl ht hx) fun c l' h => ?_
  obtain ⟨hl', hf⟩ := h
  refine hl'.change ?_ rfl
  have ha := Stack.assign?_map Cell.origin l'.stack x ⟨c.origin, v⟩
  rw [hl'.stack, Stack.assign?_find? hf] at ha
  obtain ⟨s, hs, hm⟩ := Option.map_eq_some_iff.1 ha.symm
  simp only [hs, Option.getD_some]
  exact hm

/-- Leaving a scope, or a call, that was entered with the declarations `t`. -/
theorem ending {w : Traced α} {P Q : α → Ledger → Prop} {f : Stack Cell → Stack Cell}
    (hw : Meets origin G (w l) P) (hPQ : ∀ a l', P a l' → Q a (l'.change f)) :
    Meets origin G (Traced.ending w f l) Q := by
  unfold Traced.ending
  cases hr : w l with
  | ok a l' =>
    rw [hr] at hw
    exact hPQ a l' hw
  | error e l' =>
    rw [hr] at hw
    exact hw

theorem inScope {w : Traced α} (hl : l.Holds origin G t) (ht : t.base < t.scopes.length)
    (hw : ∀ l' : Ledger, l'.Holds origin G t.push → Meets origin G (w l') fun _ l'' =>
      ∃ scope, l''.Holds origin G ⟨scope :: t.scopes, t.base⟩) :
    Meets origin G (Traced.inScope w l) fun _ l' => l'.Holds origin G t := by
  obtain ⟨next, rest, hs⟩ := List.exists_cons_of_length_pos (l := t.scopes) (by omega)
  have hpush : (l.change Stack.push).Holds origin G t.push :=
    hl.change (by rw [Stack.map_push, hl.stack]) (by simp [Stack.push, hs])
  refine ending (hw _ hpush) fun a l' h => ?_
  obtain ⟨scope, hl'⟩ := h
  refine hl'.change ?_ (by simp [hs])
  rw [Stack.map_pop, hl'.stack]
  have hgt : (scope :: t.scopes).length > t.base + 1 := by
    simp only [List.length_cons]
    omega
  simp only [Stack.pop, if_pos hgt, List.tail_cons]

theorem inCall {w : Traced α} {params : Table Cell} (hl : l.Holds origin G t)
    (ht : t.scopes ≠ [])
    (hw : ∀ l' : Ledger, l'.Holds origin G (t.enter (params.mapValues Cell.origin)) →
      Meets origin G (w l') fun _ l'' =>
        ∃ scope, l''.Holds origin G ⟨scope :: t.scopes, t.scopes.length⟩) :
    Meets origin G (Traced.inCall params w l) fun _ l' => l'.Holds origin G t := by
  obtain ⟨next, rest, hs⟩ := List.exists_cons_of_ne_nil ht
  have henter : (l.change (Stack.enter · params)).Holds origin G
      (t.enter (params.mapValues Cell.origin)) :=
    hl.change (by rw [Stack.map_enter, hl.stack]) (by simp [Stack.enter, hs])
  refine ending (hw _ henter) fun a l' h => ?_
  obtain ⟨scope, hl'⟩ := h
  refine hl'.change ?_ (by simp [hs])
  have hb : l.stack.base = t.base := by rw [← hl.stack, Stack.map_base]
  rw [Stack.map_leave, hl'.stack, hb]
  simp [Stack.leave]

end Meets

end Eval

end CatScript
