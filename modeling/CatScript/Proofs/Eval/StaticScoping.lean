import CatScript.Proofs.Eval.Reach
import CatScript.Proofs.Eval.TypeSafety

/-!
# Static scoping

In a run of a program without diagnostics every name reaches the binding that was made by the
declaration which checking has resolved it to. There is one exception. A function can be called
before a global variable that it uses has been declared, since functions are known in their whole
block, and then the run stops.

The argument follows the declarations on the stack of the ledger along the run. Expressions and
calls leave them as they are, and a statement changes the innermost scope only, so what holds of
the whole stack in front of a call holds of it behind the call.

Results:
* `Program.run_staticallyScoped`: names reach the bindings of their origins, calls find their
  functions, and a name is unbound only in a function that uses a global variable too early.
-/
namespace CatScript

open Typing

namespace Eval

/-- A function whose names have the origins that its parameters and some of the globals give
them. -/
def Placed.Sited (origin : Place → String → Option Declaration) (G : Table Declaration)
    (q : Placed) : Prop :=
  ∃ g : Table Declaration, (∀ x d, g.find? x = some d → G.find? x = some d) ∧
    Stmt.SitedAll origin G (q.place ++ [0]) 0 [q.function.header.declarations q.place, g]
      q.function.body

/-- The functions of a program with the signatures of the rules. -/
def KnowsPlaces (origin : Place → String → Option Declaration) (G : Table Declaration) (R : Rules)
    (functions : Table Placed) : Prop :=
  ∀ symbol s, R.functions.find? symbol = some s →
    ∃ q, functions.find? symbol = some q ∧ q.function.header.signature = s ∧
      q.function.Typed R ∧ q.Sited origin G

/-- Calls leave the declarations on the stack as they are. -/
def CallsMeet (origin : Place → String → Option Declaration) (G : Table Declaration) (R : Rules)
    (invoke : Traced.Invoke) : Prop :=
  ∀ (q : Placed) (params : Table Cell) (l : Ledger) (D : List (Table Declaration))
    (t : Stack Declaration), q.function.Typed R → q.Sited origin G →
    params.mapValues Cell.origin = q.function.header.declarations q.place →
    l.Holds origin G t → Stack.Sees G D t →
    Meets origin G (invoke q params l) fun _ l' => l'.Holds origin G t

end Eval

open Eval

/-! ## Expressions -/

theorem Settled.mono {origin : Place → String → Option Declaration} {here : Place}
    {D : List (Table Declaration)} {names names' : List String}
    (h : Settled origin here D names) (hs : ∀ x ∈ names', x ∈ names) :
    Settled origin here D names' :=
  fun x hx => h x (hs x hx)

/-- The parameters that a call binds are those that its function declares. -/
theorem Header.mapValues_parameters (h : Header) (place : Place) {bindings : List (String × Value)}
    (hb : bindings.map (·.1) = h.params.map (·.name)) :
    Table.mapValues Cell.origin
        (.ofList (bindings.map fun b => (b.1, ⟨.parameter place b.1, b.2⟩))) =
      h.declarations place := by
  rw [Table.mapValues_ofList, List.map_map, declarations]
  have hl := congrArg (List.map fun x => (x, Declaration.parameter place x)) hb
  rw [List.map_map, List.map_map] at hl
  exact congrArg Table.ofList hl

namespace Expr

mutual

theorem trace_meets {origin : Place → String → Option Declaration} {G : Table Declaration}
    {R : Rules} {functions : Table Placed} {invoke : Traced.Invoke} (hG : TopLevel G)
    (hk : KnowsPlaces origin G R functions) (hi : CallsMeet origin G R invoke) {S : Scopes}
    {here : Place} {D : List (Table Declaration)} {t : Stack Declaration} (ht : Stack.Sees G D t) :
    (e : Expr) → e.Typed R S → Settled origin here D e.names →
    ∀ l : Ledger, l.Holds origin G t →
    Meets origin G (e.trace functions invoke here l) fun _ l' => l'.Holds origin G t
  | int _ _, _, _, l, hl | str _ _, _, _, l, hl | bool _ _, _, _, l, hl | null _, _, _, l, hl => by
    simp only [trace]
    exact .pure hl
  | var n x, _, hn, l, hl => by
    simp only [trace]
    exact .bind (.reach hG hl ht hn) fun c l' h => .pure h.1
  | unary n op e, hty, hn, l, hl => by
    simp only [trace]
    exact .bind (trace_meets hG hk hi ht e hty.2.2 hn l hl) fun v l' hl' =>
      .ofExcept (fun f => UnaryOp.apply_error) hl'
  | binary n op a b, hty, hn, l, hl => by
    simp only [trace]
    have ha := hn.mono fun x hx => List.mem_append_left _ hx
    have hb := hn.mono fun x hx => List.mem_append_right _ hx
    refine .bind (trace_meets hG hk hi ht a hty.2.1 ha l hl) fun v l₁ h₁ => ?_
    refine .bind (.ofExcept (fun f => BinaryOp.leftOperand_error) h₁) fun _ l₂ h₂ => ?_
    refine .bind (trace_meets hG hk hi ht b hty.2.2 hb l₂ h₂) fun w l₃ h₃ => ?_
    exact .ofExcept (fun f => BinaryOp.apply_error) h₃
  | paren n e, hty, hn, l, hl => by
    simp only [trace]
    exact trace_meets hG hk hi ht e hty.2 hn l hl
  | list n es, hty, hn, l, hl => by
    simp only [trace]
    exact .bind (traceAll_meets hG hk hi ht es hty.2 hn l hl) fun vs l' hl' => .pure hl'
  | call n f es symbol, hty, hn, l, hl => by
    obtain ⟨s, rfl, hs, -, ha⟩ := hty
    obtain ⟨q, hq, rfl, hqt, hqs⟩ := hk _ _ hs
    simp only [trace, Option.getD_some, Traced.lookUpFunction, hq]
    refine .bind (.pure (P := fun a l' => q = a ∧ l = l') ⟨rfl, rfl⟩) fun _ _ h => ?_
    obtain ⟨rfl, rfl⟩ := h
    refine .bind (traceArgs_meets hG hk hi ht q.function.header.params es ha hn l hl)
      fun bindings l' h => ?_
    exact hi q _ l' D t hqt hqs (q.function.header.mapValues_parameters q.place h.1) h.2 ht

theorem traceAll_meets {origin : Place → String → Option Declaration} {G : Table Declaration}
    {R : Rules} {functions : Table Placed} {invoke : Traced.Invoke} (hG : TopLevel G)
    (hk : KnowsPlaces origin G R functions) (hi : CallsMeet origin G R invoke) {S : Scopes}
    {here : Place} {D : List (Table Declaration)} {t : Stack Declaration} (ht : Stack.Sees G D t) :
    (es : List Expr) → TypedAll R S es → Settled origin here D (namesOfAll es) →
    ∀ l : Ledger, l.Holds origin G t →
    Meets origin G (traceAll functions invoke here es l) fun _ l' => l'.Holds origin G t
  | [], _, _, l, hl => .pure hl
  | e :: es, hty, hn, l, hl => by
    simp only [traceAll]
    have he := hn.mono fun x hx => List.mem_append_left _ hx
    have hes := hn.mono fun x hx => List.mem_append_right _ hx
    refine .bind (trace_meets hG hk hi ht e hty.1 he l hl) fun v l₁ h₁ => ?_
    exact .bind (traceAll_meets hG hk hi ht es hty.2 hes l₁ h₁) fun vs l₂ h₂ => .pure h₂

theorem traceArgs_meets {origin : Place → String → Option Declaration} {G : Table Declaration}
    {R : Rules} {functions : Table Placed} {invoke : Traced.Invoke} (hG : TopLevel G)
    (hk : KnowsPlaces origin G R functions) (hi : CallsMeet origin G R invoke) {S : Scopes}
    {here : Place} {D : List (Table Declaration)} {t : Stack Declaration} (ht : Stack.Sees G D t) :
    (ps : List Param) → (es : List Expr) → TypedArgs R S (ps.map fun p => (p.name, p.ty)) es →
    Settled origin here D (namesOfAll es) → ∀ l : Ledger, l.Holds origin G t →
    Meets origin G (traceArgs functions invoke here ps es l) fun bindings l' =>
      bindings.map (·.1) = ps.map (·.name) ∧ l'.Holds origin G t
  | [], [], _, _, l, hl => .pure ⟨rfl, hl⟩
  | p :: ps, e :: es, hty, hn, l, hl => by
    simp only [traceArgs]
    have he := hn.mono fun x hx => List.mem_append_left _ hx
    have hes := hn.mono fun x hx => List.mem_append_right _ hx
    refine .bind (trace_meets hG hk hi ht e hty.1 he l hl) fun v l₁ h₁ => ?_
    refine .bind (traceArgs_meets hG hk hi ht ps es hty.2.2 hes l₁ h₁) fun more l₂ h₂ => ?_
    exact .pure ⟨by simp [h₂.1], h₂.2⟩
  | [], _ :: _, hty, _, _, _ | _ :: _, [], hty, _, _, _ => hty.elim

end

end Expr

/-! ## Statements -/

namespace Eval

variable {origin : Place → String → Option Declaration} {G : Table Declaration}
  {D : List (Table Declaration)} {t : Stack Declaration} {l : Ledger}

/-- The declarations `t` are on the stack, with whatever the innermost scope has got. -/
def Ledger.HoldsOuter (origin : Place → String → Option Declaration) (G : Table Declaration)
    (t : Stack Declaration) (l : Ledger) : Prop :=
  ∃ scope, l.Holds origin G ⟨scope :: t.scopes.tail, t.base⟩

theorem Ledger.Holds.outer (h : l.Holds origin G t) (ht : Stack.Sees G D t) :
    l.HoldsOuter origin G t := by
  obtain ⟨scopes, base⟩ := t
  obtain ⟨scope, rest, rfl⟩ := List.exists_cons_of_ne_nil ht.ne_nil
  exact ⟨scope, h⟩

/-- A loop leaves the stack as it is, if its body does so up to the innermost scope. -/
theorem Meets.forItems {here : Place} {x : String} {body : Traced Flow}
    (ht : Stack.Sees G D t)
    (hb : ∀ l' : Ledger, l'.Holds origin G (t.push.define x (.loop here x)) →
      Meets origin G (body l') fun _ l'' => l''.HoldsOuter origin G t.push)
    (vs : List Value) (hl : l.Holds origin G t) :
    Meets origin G (Traced.forItems here x body vs l) fun _ l' => l'.Holds origin G t := by
  induction vs generalizing l with
  | nil => exact .pure hl
  | cons v vs ih =>
    simp only [Traced.forItems]
    have hround : Meets origin G
        (Traced.inScope (do Traced.define here x ⟨.loop here x, v⟩; body) l)
        fun _ l' => l'.Holds origin G t := by
      refine .inScope hl ht.lt fun l' hl' => .bind (.define hl' ?_ ?_) fun _ l'' h => hb l'' h
      · intro hlen
        have := List.length_pos_iff.2 ht.ne_nil
        simp only [Stack.push, List.length_cons] at hlen
        omega
      · intro i y hm
        cases hm
    refine .bind hround fun flow l' hl' => ?_
    cases flow with
    | normal => exact ih hl'
    | returned r => exact .pure hl'

end Eval

namespace Stmt

/-- The declarations on the stack behind a statement. -/
def leaves (here : Place) (t : Stack Declaration) (s : Stmt) : Stack Declaration :=
  ⟨s.declared here t.scopes, t.base⟩

theorem leaves_sees {G : Table Declaration} {D : List (Table Declaration)} {t : Stack Declaration}
    (h : Stack.Sees G D t) (here : Place) (s : Stmt) :
    Stack.Sees G (s.declared here D) (s.leaves here t) := by
  cases s with
  | declare n x ty e => exact h.define x _
  | _ => exact h

theorem tail_leaves (here : Place) (t : Stack Declaration) (s : Stmt) :
    (s.leaves here t).scopes.tail = t.scopes.tail := by
  cases s with
  | declare n x ty e =>
    obtain ⟨scopes, base⟩ := t
    cases scopes <;> rfl
  | _ => rfl

mutual

theorem trace_meets {origin : Place → String → Option Declaration} {G : Table Declaration}
    {R : Rules} {functions : Table Placed} {invoke : Traced.Invoke} (hG : TopLevel G)
    (hk : KnowsPlaces origin G R functions) (hi : CallsMeet origin G R invoke) {result : Ty} :
    (s : Stmt) → ∀ {S : Scopes} {here : Place} {D : List (Table Declaration)}
    {t : Stack Declaration}, s.Typed R result S → s.Sited origin G here D → Stack.Sees G D t →
    ∀ l : Ledger, l.Holds origin G t →
    Meets origin G (s.trace functions invoke here l) fun flow l' =>
      l'.HoldsOuter origin G t ∧ (flow = .normal → l'.Holds origin G (s.leaves here t))
  | print n e, S, here, D, t, hty, hs, ht, l, hl => by
    simp only [trace]
    refine .bind (Expr.trace_meets hG hk hi ht e hty hs l hl) fun v l' hl' => ?_
    exact .pure ⟨(hl'.print v).outer ht, fun _ => hl'.print v⟩
  | forEach n x e body, S, here, D, t, hty, hs, ht, l, hl => by
    obtain ⟨he, u, -, hbody⟩ := hty
    simp only [trace]
    refine .bind (Expr.trace_meets hG hk hi ht e he hs.1 l hl) fun v l₁ h₁ => ?_
    refine .bind (.items v h₁) fun vs l₂ h₂ => ?_
    have hloop := Meets.forItems ht (fun l' hl' =>
      traceAll_meets hG hk hi body hbody hs.2 (ht.push.define x (.loop here x)) l' hl') vs h₂
    exact hloop.mono fun flow l' hl' => ⟨hl'.outer ht, fun _ => hl'⟩
  | cond n e yes none, S, here, D, t, hty, hs, ht, l, hl => by
    obtain ⟨he, -, hyes⟩ := hty
    simp only [trace]
    refine .bind (Expr.trace_meets hG hk hi ht e he hs.1 l hl) fun v l₁ h₁ => ?_
    refine .bind (.ofExcept (fun f => Value.asBool_error) h₁) fun b l₂ h₂ => ?_
    cases b with
    | true =>
      have h := Meets.inScope h₂ ht.lt fun l' hl' =>
        traceAll_meets hG hk hi yes hyes hs.2 ht.push l' hl'
      exact h.mono fun flow l' hl' => ⟨hl'.outer ht, fun _ => hl'⟩
    | false => exact .pure ⟨h₂.outer ht, fun _ => h₂⟩
  | cond n e yes (some no), S, here, D, t, hty, hs, ht, l, hl => by
    obtain ⟨he, -, hyes, hno⟩ := hty
    simp only [trace]
    refine .bind (Expr.trace_meets hG hk hi ht e he hs.1 l hl) fun v l₁ h₁ => ?_
    refine .bind (.ofExcept (fun f => Value.asBool_error) h₁) fun b l₂ h₂ => ?_
    cases b with
    | true =>
      have h := Meets.inScope h₂ ht.lt fun l' hl' =>
        traceAll_meets hG hk hi yes hyes hs.2.1 ht.push l' hl'
      exact h.mono fun flow l' hl' => ⟨hl'.outer ht, fun _ => hl'⟩
    | false =>
      have h := Meets.inScope h₂ ht.lt fun l' hl' =>
        traceAll_meets hG hk hi no hno hs.2.2 ht.push l' hl'
      exact h.mono fun flow l' hl' => ⟨hl'.outer ht, fun _ => hl'⟩
  | declare n x ty e, S, here, D, t, hty, hs, ht, l, hl => by
    obtain ⟨hn, ha⟩ := hs
    simp only [trace]
    refine .bind (Expr.trace_meets hG hk hi ht e hty.1 hn l hl) fun v l₁ h₁ => ?_
    have hlen := ht.length_eq_one
    unfold Anchored at ha
    refine .bind (.define h₁ (fun h => ?_) fun i y he => ?_) fun _ l₂ h₂ => .pure ⟨?_, fun _ => h₂⟩
    · rwa [if_pos (hlen.2 h)] at ha
    · cases he
      refine ⟨rfl, ?_⟩
      split at ha
      · next h => exact hlen.1 h
      · exact absurd rfl ha
    · have := h₂.outer (ht.define x (.variable here x))
      unfold Ledger.HoldsOuter at this ⊢
      rwa [show (t.define x (.variable here x)).scopes.tail = t.scopes.tail from
        tail_leaves here t (declare n x ty e)] at this
  | assign n x e, S, here, D, t, hty, hs, ht, l, hl => by
    have hn := hs.mono fun y hy => List.mem_cons_of_mem x hy
    have hx : Settled _ here D [x] := hs.mono fun y hy => by
      rw [List.mem_singleton.1 hy]
      exact List.mem_cons_self ..
    simp only [trace]
    refine .bind (Expr.trace_meets hG hk hi ht e hty.1 hn l hl) fun v l₁ h₁ => ?_
    refine .bind (.assign hG h₁ ht hx) fun _ l₂ h₂ => ?_
    exact .pure ⟨h₂.outer ht, fun _ => h₂⟩
  | call n e, S, here, D, t, hty, hs, ht, l, hl => by
    simp only [trace]
    refine .bind (Expr.trace_meets hG hk hi ht e hty hs l hl) fun v l' hl' => ?_
    exact .pure ⟨hl'.outer ht, fun _ => hl'⟩
  | define _ _ _, S, here, D, t, _, _, ht, l, hl | invalid _ _, S, here, D, t, _, _, ht, l, hl => by
    simp only [trace]
    exact .pure ⟨hl.outer ht, fun _ => hl⟩
  | ret n none, S, here, D, t, _, _, ht, l, hl => by
    simp only [trace]
    exact .pure ⟨hl.outer ht, fun _ => hl⟩
  | ret n (some e), S, here, D, t, hty, hs, ht, l, hl => by
    simp only [trace]
    refine .bind (Expr.trace_meets hG hk hi ht e hty.2.1 hs l hl) fun v l' hl' => ?_
    exact .pure ⟨hl'.outer ht, fun _ => hl'⟩

theorem traceAll_meets {origin : Place → String → Option Declaration} {G : Table Declaration}
    {R : Rules} {functions : Table Placed} {invoke : Traced.Invoke} (hG : TopLevel G)
    (hk : KnowsPlaces origin G R functions) (hi : CallsMeet origin G R invoke) {result : Ty} :
    (ss : List Stmt) → ∀ {S : Scopes} {block : Place} {i : Nat} {D : List (Table Declaration)}
    {t : Stack Declaration}, TypedAll R result S ss → SitedAll origin G block i D ss →
    Stack.Sees G D t → ∀ l : Ledger, l.Holds origin G t →
    Meets origin G (traceAll functions invoke block i ss l) fun _ l' => l'.HoldsOuter origin G t
  | [], _, _, _, _, _, _, _, ht, l, hl => .pure (hl.outer ht)
  | s :: ss, S, block, i, D, t, hty, hs, ht, l, hl => by
    simp only [traceAll]
    refine .bind (trace_meets hG hk hi s hty.1 hs.1 ht l hl) fun flow l' h => ?_
    cases flow with
    | returned v => exact .pure h.1
    | normal =>
      refine (traceAll_meets hG hk hi ss hty.2 hs.2 (leaves_sees ht (block ++ [i]) s) l'
        (h.2 rfl)).mono fun flow l'' h' => ?_
      unfold Ledger.HoldsOuter at h' ⊢
      rwa [tail_leaves] at h'

end

end Stmt

/-! ## Calls and programs -/

theorem Eval.invoke_meets {origin : Place → String → Option Declaration} {G : Table Declaration}
    {R : Rules} {functions : Table Placed} (hG : TopLevel G)
    (hk : KnowsPlaces origin G R functions) (depth : Nat) :
    CallsMeet origin G R (Traced.invoke functions depth) := by
  induction depth with
  | zero => exact fun q params l D t _ _ _ hl _ => hl.sure
  | succ depth ih =>
    intro q params l D t hty hq hp hl ht
    obtain ⟨g, hg, hs⟩ := hq
    simp only [Traced.invoke]
    refine .bind (.inCall hl ht.ne_nil fun l' hl' => ?_) fun flow l' hl' => .pure hl'
    rw [hp] at hl'
    exact Stmt.traceAll_meets hG hk ih q.function.body hty.body hs (ht.enter _ hg) l' hl'

namespace Stmt

mutual

theorem placed_sited {origin : Place → String → Option Declaration} {G : Table Declaration} :
    (s : Stmt) → ∀ {here : Place} {D : List (Table Declaration)}, s.Sited origin G here D →
    D ≠ [] → ∀ q ∈ s.placed here, q.Sited origin G
  | define n h body, here, D, hs, hD => by
    obtain ⟨hG, hbody⟩ := hs
    obtain ⟨g, hg⟩ : ∃ g, D.getLast? = some g :=
      Option.isSome_iff_exists.1 (by simp [List.getLast?_isSome, hD])
    rw [hg] at hbody
    intro q hq
    rcases List.mem_cons.1 hq with rfl | hq
    · exact ⟨g, hG g hg, hbody⟩
    · exact placedAll_sited body hbody (by simp) q hq
  | forEach n x e body, here, D, hs, _ => placedAll_sited body hs.2 (by simp)
  | cond n e yes none, here, D, hs, _ => placedAll_sited yes hs.2 (by simp)
  | cond n e yes (some no), here, D, hs, _ => by
    intro q hq
    rcases List.mem_append.1 hq with hq | hq
    · exact placedAll_sited yes hs.2.1 (by simp) q hq
    · exact placedAll_sited no hs.2.2 (by simp) q hq
  | print _ _, _, _, _, _ | declare _ _ _ _, _, _, _, _ | assign _ _ _, _, _, _, _
  | call _ _, _, _, _, _ | ret _ _, _, _, _, _ | invalid _ _, _, _, _, _ => by simp [placed]

theorem placedAll_sited {origin : Place → String → Option Declaration} {G : Table Declaration} :
    (ss : List Stmt) → ∀ {block : Place} {i : Nat} {D : List (Table Declaration)},
    SitedAll origin G block i D ss → D ≠ [] → ∀ q ∈ placedAll block i ss, q.Sited origin G
  | [], _, _, _, _, _ => by simp [placedAll]
  | s :: ss, block, i, D, hs, hD => by
    intro q hq
    rcases List.mem_append.1 hq with hq | hq
    · exact placed_sited s hs.1 hD q hq
    · refine placedAll_sited ss hs.2 ?_ q hq
      rw [← List.length_pos_iff, length_declared, List.length_pos_iff]
      exact hD

end

end Stmt

namespace Program

variable {p : Program}

theorem topLevel (p : Program) : TopLevel p.globalDeclarations := by
  intro x d h
  obtain ⟨k, _, _, _, rfl, -⟩ := Stmt.find?_globalsFrom h
  exact ⟨0 + k, rfl⟩

/-- The functions of a program without diagnostics, found by symbol. -/
theorem knowsPlaces {fits : Ty → Ty → Prop} (hd : p.check.diagnostics = [])
    (ht : p.check.Typed fits) :
    KnowsPlaces p.origin? p.globalDeclarations ⟨p.check.signatures, p.check.globals, fits⟩
      p.check.placedTable := by
  intro symbol s hs
  obtain ⟨f, hf, hsig, hty⟩ := knows ht symbol s hs
  have htable : p.check.placedTable.mapValues Placed.function = p.check.functionTable :=
    mapValues_placedTable p.check
  rw [← htable, Table.find?_mapValues] at hf
  obtain ⟨q, hq, rfl⟩ := Option.map_eq_some_iff.1 hf
  refine ⟨q, hq, hsig, hty, ?_⟩
  obtain ⟨q', hm, he⟩ := List.mem_map.1 (Table.mem_of_find?_ofList hq)
  cases he
  have hsited : Stmt.SitedAll p.origin? p.globalDeclarations [] 0 [[]] p.check.statements := by
    have h := check_sited hd
    obtain ⟨body, span⟩ := p
    cases body with
    | expression e => trivial
    | statements ss => exact h
  exact Stmt.placedAll_sited _ hsited (by simp) q hm

/-- The run of a program without diagnostics stops for expected reasons only. -/
theorem trace_meets {fits : Ty → Ty → Prop} (hd : p.check.diagnostics = [])
    (ht : p.check.Typed fits) (depth : Nat) :
    Meets p.origin? p.globalDeclarations (p.check.trace depth) fun _ l =>
      Sure p.origin? l.entries := by
  have hG := topLevel p
  have hk := knowsPlaces hd ht
  have hi := invoke_meets hG hk depth
  have hl := Ledger.Holds.initial p.origin? p.globalDeclarations
  have hsees : Stack.Sees p.globalDeclarations [[]] ⟨[[]], 0⟩ :=
    .main (t := ⟨[[]], 0⟩) rfl (by simp)
  have hs := check_sited hd
  have hb := ht.body
  obtain ⟨body, span⟩ := p
  cases body with
  | expression e =>
    exact .bind (Expr.trace_meets hG hk hi hsees _ hb hs _ hl) fun v l h => (h.print v).sure
  | statements ss =>
    exact .bind (Stmt.traceAll_meets hG hk hi _ hb hs hsees _ hl) fun flow l ⟨_, h⟩ => h.sure

/-- Names mean in a run what checking has resolved them to. -/
structure StaticallyScoped (p : Program) (depth : Nat) : Prop where
  traced : p.check.run depth = p.check.tracedRun depth
  functions : ∀ symbol, p.check.run depth ≠ .error (.fault (.unknownFunction symbol))
  /-- A name that is read or assigned to reaches the binding made by its declaration, unless it
  is unbound and the run stops. -/
  used : ∀ m ∈ p.check.entries depth, ∀ x reached, m.event = .used x reached →
    (∃ d, reached = some d ∧ p.origin? m.place x = some d) ∨
      (reached = none ∧ p.check.run depth = .error (.fault (.unboundVariable x)))
  /-- An unbound name is the last one used. It is used in a function and comes from a variable of
  the main block that has not been declared before. -/
  unbound : ∀ x, p.check.run depth = .error (.fault (.unboundVariable x)) →
    ∃ m earlier i n t e, p.check.entries depth = m :: earlier ∧ m.event = .used x none ∧
      m.called = true ∧ p.origin? m.place x = some (.variable [i] x) ∧
      p.statements[i]? = some (.declare n x t e) ∧
      ∀ m' ∈ earlier, m'.event ≠ .declared (.variable [i] x)

/-- Static scoping of programs without diagnostics. -/
theorem run_staticallyScoped {source file : String}
    (hd : (parse source file).check.diagnostics = []) (depth : Nat) :
    (parse source file).StaticallyScoped depth := by
  generalize hp : parse source file = p at hd ⊢
  have ht : p.check.Typed fun t s => t.accepts s = true := by
    subst hp
    exact parse_typed hd
  have htraced := run_eq_trace depth p.check
  have hmeets := trace_meets hd ht depth
  cases hr : p.check.trace depth with
  | ok a l =>
    have hrun : p.check.run depth = .ok ("\n".intercalate l.output.reverse) := by
      rw [htraced, tracedRun, hr]
    have hentries : p.check.entries depth = l.entries := by rw [entries, hr]
    rw [hr] at hmeets
    refine ⟨htraced, fun symbol he => ?_, fun m hm x reached he => .inl ?_, fun x he => ?_⟩
    · rw [hrun] at he
      cases he
    · exact hmeets m (hentries ▸ hm) x reached he
    · rw [hrun] at he
      cases he
  | error h l =>
    have hrun : p.check.run depth = .error h := by rw [htraced, tracedRun, hr]
    have hentries : p.check.entries depth = l.entries := by rw [entries, hr]
    rw [hr] at hmeets
    refine ⟨htraced, fun symbol he => ?_, fun m hm x reached he => ?_, fun x he => ?_⟩
    · rw [hrun] at he
      cases he
      exact hmeets
    · rw [hrun, Except.error.injEq]
      exact Halt.Expected.used hmeets m (hentries ▸ hm) x reached he
    · rw [hrun] at he
      cases he
      obtain ⟨m, earlier, d, hm, -, hc, hu, ho, hg, hn⟩ := hmeets
      obtain ⟨k, n, t, e, rfl, hk⟩ := Stmt.find?_globalsFrom hg
      rw [Nat.zero_add] at ho hn
      exact ⟨m, earlier, k, n, t, e, hentries.trans hm, hu, hc, ho, hk, hn⟩

/-- A function that uses two global variables, called from a block that hides one of them and
before the other has been declared. -/
theorem run_staticallyScoped_early :
    let source := "var a = 1 if (true) \x7b var a = 5 print(f(a)) \x7d var x = 2 function f(n: int): int " ++
      "\x7b for (i in [n]) \x7b n = n + i + a \x7d return n + x \x7d"
    let p := parse source "early.cat"
    (p.check.diagnostics = [] ∧
      ["n", "i", "a"].map (p.origin? [3, 0, 0, 0, 0]) =
        [some (.parameter [3] "n"), some (.loop [3, 0, 0] "i"), some (.variable [0] "a")] ∧
      p.origin? [1, 0, 1] "a" = some (.variable [1, 0, 0] "a") ∧
      p.origin? [3, 0, 1] "x" = some (.variable [2] "x") ∧
      p.check.run 5 = .error (.fault (.unboundVariable "x"))) ∧ p.StaticallyScoped 5 := by
  intro source p
  refine ⟨?facts, run_staticallyScoped (And.left ?facts) 5⟩
  decide +kernel

end Program

end CatScript
