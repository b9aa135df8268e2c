import CatScript.Proofs.Typing.Checked
import Mathlib.Data.List.Forall2

/-!
# Calls and the functions they mean

A call means the function of its name that stands directly in the innermost statement list
around it that has one. It does not matter whether the function stands before or behind the
call, nor which variables have that name.

Checking declares the functions of a list before it checks the list's statements, and a scope
of the context belongs to each list around a place. `Lists` says that the two hold the same
functions, and `Surrounds` carries it along the walk.

Results:
* `Program.check_lexical`: without diagnostics, functions have symbols of their own and each
  call carries the symbol of the function it means.
-/
namespace CatScript

open Typing Context

/-! ## Calls and definitions of a program -/

/-- A call in a program, with the statement lists around it, innermost first. -/
structure CallSite where
  name : String
  symbol : Option String
  around : List (List Stmt)

namespace Expr

mutual

/-- The calls of an expression inside the given statement lists. -/
def calls (around : List (List Stmt)) : Expr → List CallSite
  | int _ _ | str _ _ | bool _ _ | null _ | var _ _ => []
  | unary _ _ e | paren _ e => e.calls around
  | binary _ _ l r => l.calls around ++ r.calls around
  | list _ es => callsOfAll around es
  | call _ f es symbol => ⟨f, symbol, around⟩ :: callsOfAll around es

def callsOfAll (around : List (List Stmt)) : List Expr → List CallSite
  | [] => []
  | e :: es => e.calls around ++ callsOfAll around es

end

end Expr

namespace Stmt

mutual

/-- The calls of a statement inside the given statement lists. -/
def calls (around : List (List Stmt)) : Stmt → List CallSite
  | print _ e | call _ e | declare _ _ _ e | assign _ _ e => e.calls around
  | forEach _ _ e body => e.calls around ++ callsOfAll (body :: around) body
  | cond _ e yes none => e.calls around ++ callsOfAll (yes :: around) yes
  | cond _ e yes (some no) =>
    e.calls around ++ callsOfAll (yes :: around) yes ++ callsOfAll (no :: around) no
  | define _ _ body => callsOfAll (body :: around) body
  | ret _ none => []
  | ret _ (some e) => e.calls around
  | invalid _ _ => []

def callsOfAll (around : List (List Stmt)) : List Stmt → List CallSite
  | [] => []
  | s :: ss => s.calls around ++ callsOfAll around ss

end

/-- The function that the statement is, if it has the given name. -/
def definition? (name : String) : Stmt → Option Function
  | define _ h body => if h.name = name then some ⟨h, body⟩ else none
  | _ => none

/-- The functions of a name that stand directly in a statement list. -/
def definitionsOf (name : String) (ss : List Stmt) : List Function :=
  ss.filterMap (definition? name)

/-- The functions that a name means inside the given statement lists: those of the innermost
list that has any. -/
def meant (name : String) : List (List Stmt) → List Function
  | [] => []
  | block :: blocks =>
    match definitionsOf name block with
    | [] => meant name blocks
    | f :: fs => f :: fs

theorem mem_functionsOfAll_of_definitionsOf {name : String} {ss : List Stmt} {f : Function}
    (h : f ∈ definitionsOf name ss) : f ∈ functionsOfAll ss := by
  obtain ⟨s, hs, hf⟩ := List.mem_filterMap.1 h
  rw [functionsOfAll_eq, List.mem_flatMap]
  refine ⟨s, hs, ?_⟩
  cases s with
  | define n h body =>
    simp only [definition?] at hf
    split at hf
    · cases hf
      exact List.mem_cons_self ..
    · cases hf
  | _ => cases hf

end Stmt

/-- The calls of a program. An expression program is a list of no statements. -/
def Program.calls (p : Program) : List CallSite :=
  match p.body with
  | .expression e => e.calls [[]]
  | .statements ss => Stmt.callsOfAll [ss] ss

/-! ## Scopes and the statement lists they belong to -/

namespace Typing

/-- A scope that binds the functions that stand directly in a statement list. -/
def Lists (scope : Table Entity) (block : List Stmt) : Prop :=
  ∀ name,
    (∃ f, scope.find? name = some (.function f.header.signature) ∧
      Stmt.definitionsOf name block = [f]) ∨
    ((∀ s, scope.find? name ≠ some (.function s)) ∧ Stmt.definitionsOf name block = [])

/-- The function that checking finds for a call is the one that the call means. -/
theorem meant_of_signatureIn? {name : String} {s : Signature} {scopes : List (Table Entity)}
    {around : List (List Stmt)} (h : List.Forall₂ Lists scopes around)
    (hs : signatureIn? name scopes = some s) :
    ∃ f, Stmt.meant name around = [f] ∧ f.header.signature = s ∧
      ∃ block ∈ around, f ∈ Stmt.functionsOfAll block := by
  induction h with
  | nil => cases hs
  | @cons scope block scopes blocks hl _ ih =>
    rcases hl name with ⟨f, hf, hb⟩ | ⟨hf, hb⟩
    · simp only [signatureIn?, hf] at hs
      cases hs
      have hm : f ∈ Stmt.definitionsOf name block := by rw [hb]; exact List.mem_cons_self ..
      exact ⟨f, by simp only [Stmt.meant, hb], rfl, block, List.mem_cons_self ..,
        Stmt.mem_functionsOfAll_of_definitionsOf hm⟩
    · have hs : signatureIn? name scopes = some s := by
        unfold signatureIn? at hs
        split at hs
        · next hf' => exact absurd hf' (hf _)
        · exact hs
      obtain ⟨f, hm, hsig, outer, ho, hfo⟩ := ih hs
      exact ⟨f, by simp only [Stmt.meant, hb, hm], hsig, outer, List.mem_cons_of_mem _ ho, hfo⟩

/-- A new variable is no function. -/
theorem Lists.insert_variable {scope : Table Entity} {block : List Stmt} {x : String} {t : Ty}
    (h : Lists scope block) (hx : scope.find? x = none) :
    Lists (scope.insert x (.variable t)) block := by
  intro name
  by_cases hn : name = x
  · subst hn
    rcases h name with ⟨f, hf, -⟩ | ⟨-, hb⟩
    · rw [hx] at hf
      cases hf
    · exact .inr ⟨fun s => by rw [Table.find?_insert_self]; nofun, hb⟩
  · rw [Table.find?_insert_of_ne _ hn]
    exact h name

/-- `Γ` has one scope more than `outer`, and no function in it. -/
structure Context.Opens (outer : List (Table Entity)) (Γ : Context) : Prop where
  outer : Γ.outer = outer
  inner : ∀ name s, Γ.inner.find? name ≠ some (.function s)

theorem Context.opens_push (Γ : Context) : Γ.push.Opens Γ.scopes := ⟨rfl, nofun⟩

theorem Context.opens_enter (Γ : Context) (result : Ty) : (Γ.enter result).Opens Γ.scopes :=
  ⟨rfl, nofun⟩

theorem Context.Opens.bind {outer : List (Table Entity)} {Γ : Context} (h : Γ.Opens outer)
    (x : String) (t : Ty) (span : Span) : (Typing.bind Γ x t span).2.Opens outer := by
  unfold Typing.bind
  split
  · next hd =>
    obtain ⟨-, rfl⟩ := declare_eq hd
    refine ⟨h.outer, fun name s => ?_⟩
    rw [Table.find?_insert]
    split
    · nofun
    · exact h.inner name s
  · exact h

theorem Context.Opens.bindAll {outer : List (Table Entity)} {Γ : Context} (h : Γ.Opens outer)
    (span : Span) (ps : List Param) : (Typing.bindAll Γ span ps).2.Opens outer := by
  induction ps generalizing Γ with
  | nil => exact h
  | cons p ps ih => exact ih (h.bind p.name p.ty span)

end Typing

/-! ## The functions declared in front of a block -/

namespace Stmt

/-- What a name is bound to in front of a block, and which functions of the checked block have
it: a function of the block takes a name that was free, and any other name is left alone. -/
def Declares (inner inner' : Table Entity) (block : List Stmt) (name : String) : Prop :=
  (inner.find? name = none ∧ ∃ f, inner'.find? name = some (.function f.header.signature) ∧
    definitionsOf name block = [f]) ∨
  (inner'.find? name = inner.find? name ∧ definitionsOf name block = [])

theorem Declares.of_bound {inner inner' : Table Entity} {block : List Stmt} {name : String}
    {entity : Entity} (h : Declares inner inner' block name)
    (hb : inner.find? name = some entity) :
    inner'.find? name = some entity ∧ definitionsOf name block = [] := by
  rcases h with ⟨hn, -⟩ | ⟨he, hd⟩
  · rw [hb] at hn
    cases hn
  · exact ⟨he.trans hb, hd⟩

theorem definition?_check_of_ne_define (name : String) (Γ : Context) (slot : Hoisted) {s : Stmt}
    (hs : ∀ n h body, s ≠ define n h body) : definition? name (s.check Γ slot).1 = none := by
  cases s with
  | define n h body => exact absurd rfl (hs n h body)
  | cond n e yes no => cases no <;> simp only [check, definition?]
  | ret n e => cases e <;> simp only [check, definition?]
  | _ => simp only [check, definition?]

/-- A function is declared under a name that is free in the innermost scope. -/
theorem declareFunction_eq {Γ Δ : Context} {s : Signature} {symbol : String} {span : Span}
    (h : Γ.declareFunction s span = .ok (symbol, Δ)) :
    Γ.inner.find? s.name = none ∧
      Δ.inner = Γ.inner.insert s.name (.function { s with symbol := symbol }) := by
  simp only [declareFunction] at h
  split at h
  · cases h
  · next hΘ =>
    cases h
    obtain ⟨hfree, rfl⟩ := declare_eq hΘ
    exact ⟨hfree, rfl⟩

/-- Hoisting binds the functions of a block, with the symbols they have in the checked block. -/
theorem hoist_declares {ss : List Stmt} {Γ Δ : Context}
    (hd : diagnosticsOfAll (checkAll Δ (hoist Γ ss).1 ss).1 = []) (name : String) :
    Declares Γ.inner (hoist Γ ss).2.inner (checkAll Δ (hoist Γ ss).1 ss).1 name := by
  induction ss generalizing Γ Δ with
  | nil => exact .inr ⟨rfl, rfl⟩
  | cons s ss ih =>
    simp only [hoist, checkAll, diagnosticsOfAll, List.append_eq_nil_iff, List.head?_cons,
      Option.getD_some, List.tail_cons] at hd ⊢
    by_cases hdef : ∃ n h body, s = define n h body
    · obtain ⟨n, h, body, rfl⟩ := hdef
      cases hdecl : Γ.declareFunction h.signature n.span with
      | error d =>
        -- a second function of the name is reported on it
        simp [hoistOne, hdecl, check, diagnostics, Note.report, Hoisted.errors] at hd
      | ok r =>
        obtain ⟨symbol, Γ'⟩ := r
        have hone : hoistOne Γ (define n h body) = (.symbol symbol, Γ') := by
          simp only [hoistOne, hdecl]
        rw [hone] at hd ⊢
        obtain ⟨hfree, hinner⟩ := declareFunction_eq hdecl
        have hnames := ih hd.2
        rw [hinner] at hnames
        by_cases hn : h.name = name
        · subst hn
          obtain ⟨hf, hrest⟩ := hnames.of_bound (Table.find?_insert_self ..)
          let f : Function := ⟨(Hoisted.symbol symbol).header h,
            (checkBlock (bindAll (Δ.enter h.resultTy) n.span h.params).2 body).1⟩
          refine .inl ⟨hfree, f, hf, ?_⟩
          unfold definitionsOf at hrest ⊢
          rw [List.filterMap_cons, hrest]
          simp only [check, definition?, Hoisted.header, if_true]
          rfl
        · unfold Declares at hnames ⊢
          rw [Table.find?_insert_of_ne _ (Ne.symm hn : name ≠ h.signature.name)] at hnames
          simpa only [definitionsOf, check, List.filterMap_cons, definition?, Hoisted.header, hn,
            if_false] using hnames
    · have hdef : ∀ n h body, s ≠ define n h body := fun n h body he => hdef ⟨n, h, body, he⟩
      have hone : hoistOne Γ s = (.nothing, Γ) := by
        cases s with
        | define n h body => exact absurd rfl (hdef n h body)
        | _ => rfl
      rw [hone] at hd ⊢
      have hrest := ih hd.2
      unfold Declares definitionsOf at hrest ⊢
      rwa [List.filterMap_cons, definition?_check_of_ne_define name _ _ hdef]

end Stmt

/-! ## Calls of checked statements -/

/-- A call that carries the symbol of the function it means, which is one of `functions`. -/
def CallSite.Resolved (functions : List Function) (c : CallSite) : Prop :=
  ∃ f ∈ functions, Stmt.meant c.name c.around = [f] ∧ c.symbol = some f.header.symbol

namespace Typing

/-- The statement lists around a place that is checked with the given scopes, of a program with the
given functions. -/
structure Surrounds (functions : List Function) (scopes : List (Table Entity))
    (around : List (List Stmt)) : Prop where
  lists : List.Forall₂ Lists scopes around
  functions : ∀ block ∈ around, ∀ f ∈ Stmt.functionsOfAll block, f ∈ functions

namespace Surrounds

variable {functions : List Function} {Γ Δ : Context} {around : List (List Stmt)}

/-- Entering a block. -/
theorem hoist {body : List Stmt} {outer : List (Table Entity)}
    (h : Surrounds functions outer around) (hΓ : Γ.Opens outer)
    (hd : Stmt.diagnosticsOfAll (Stmt.checkBlock Γ body).1 = [])
    (hf : ∀ f ∈ Stmt.functionsOfAll (Stmt.checkBlock Γ body).1, f ∈ functions) :
    Surrounds functions (Typing.hoist Γ body).2.scopes
      ((Stmt.checkBlock Γ body).1 :: around) := by
  refine ⟨?_, by simpa using ⟨hf, h.functions⟩⟩
  rw [scopes, (hoist_grows Γ body).outer, hΓ.outer]
  refine .cons (fun name => ?_) h.lists
  rcases Stmt.hoist_declares hd name with ⟨-, hfun⟩ | ⟨he, hnone⟩
  · exact .inl hfun
  · exact .inr ⟨fun s => he ▸ hΓ.inner name s, hnone⟩

/-- The statement behind a checked one stands in the same lists. -/
theorem check {block : List Stmt} (h : Surrounds functions Γ.scopes (block :: around))
    (slot : Hoisted) (s : Stmt) : Surrounds functions (s.check Γ slot).2.scopes (block :: around) := by
  by_cases hs : ∃ n x t e, s = .declare n x t e
  · obtain ⟨n, x, t, e, rfl⟩ := hs
    simp only [Stmt.check, Typing.bind]
    split
    · next hd =>
      obtain ⟨hx, rfl⟩ := declare_eq hd
      cases h.lists with
      | cons hl ht => exact ⟨.cons (hl.insert_variable hx) ht, h.functions⟩
    · exact h
  · rwa [Stmt.check_scopes Γ slot s fun n x t e he => hs ⟨n, x, t, e, he⟩]

end Surrounds

end Typing

namespace Expr

mutual

theorem check_calls {functions : List Function} {Γ : Context} {around : List (List Stmt)}
    (h : Surrounds functions Γ.scopes around) : (e : Expr) → (e.check Γ).diagnostics = [] →
    ∀ c ∈ (e.check Γ).calls around, c.Resolved functions
  | int _ _, _ | str _ _, _ | bool _ _, _ | null _, _ => by simp [check, calls]
  | var n x, _ => by
    simp only [check]
    split <;> simp [calls]
  | unary n op e, hd => by
    simp only [check, diagnostics, List.append_eq_nil_iff] at hd
    exact check_calls h e hd.2
  | binary n op l r, hd => by
    simp only [check, diagnostics, List.append_eq_nil_iff] at hd
    intro c hc
    rcases List.mem_append.1 hc with hc | hc
    · exact check_calls h l hd.1.2 c hc
    · exact check_calls h r hd.2 c hc
  | paren n e, hd => by
    simp only [check, diagnostics, List.append_eq_nil_iff] at hd
    exact check_calls h e hd.2
  | list n es, hd => by
    simp only [check, diagnostics, List.append_eq_nil_iff] at hd
    exact checkAll_calls h es hd.2
  | call n f es symbol, hd => by
    simp only [check] at hd ⊢
    cases hs : Γ.signatureOf? f with
    | none => simp [hs, diagnostics, Note.typed] at hd
    | some s =>
      simp only [hs, diagnostics, List.append_eq_nil_iff] at hd
      intro c hc
      rcases List.mem_cons.1 hc with rfl | hc
      · obtain ⟨g, hm, rfl, block, hb, hg⟩ := meant_of_signatureIn? h.lists hs
        exact ⟨g, h.functions block hb g hg, hm, rfl⟩
      · exact checkAll_calls h es hd.2 c hc

theorem checkAll_calls {functions : List Function} {Γ : Context} {around : List (List Stmt)}
    (h : Surrounds functions Γ.scopes around) : (es : List Expr) →
    diagnosticsOfAll (checkAll Γ es) = [] →
    ∀ c ∈ callsOfAll around (checkAll Γ es), c.Resolved functions
  | [], _ => by simp [checkAll, callsOfAll]
  | e :: es, hd => by
    simp only [checkAll, diagnosticsOfAll, List.append_eq_nil_iff] at hd
    intro c hc
    rcases List.mem_append.1 hc with hc | hc
    · exact check_calls h e hd.1 c hc
    · exact checkAll_calls h es hd.2 c hc

end

end Expr

namespace Stmt

mutual

theorem check_calls {fs : List Function} : (s : Stmt) → ∀ {Γ : Context} {slot : Hoisted}
    {block : List Stmt} {around : List (List Stmt)}, Surrounds fs Γ.scopes (block :: around) →
    (s.check Γ slot).1.diagnostics = [] → (∀ f ∈ (s.check Γ slot).1.functions, f ∈ fs) →
    ∀ c ∈ (s.check Γ slot).1.calls (block :: around), c.Resolved fs
  | print n e, _, _, _, _, h, hd, _ | call n e, _, _, _, _, h, hd, _
  | assign n x e, _, _, _, _, h, hd, _ | ret n (some e), _, _, _, _, h, hd, _ => by
    simp only [check, diagnostics, List.append_eq_nil_iff] at hd
    exact Expr.check_calls h e hd.2
  | declare n x t e, _, _, _, _, h, hd, _ => by
    cases t <;> simp only [check, diagnostics, List.append_eq_nil_iff] at hd <;>
      exact Expr.check_calls h e hd.2
  | forEach n x e body, Γ, _, _, _, h, hd, hf => by
    simp only [check, diagnostics, List.append_eq_nil_iff] at hd
    have hopen := Γ.opens_push.bind x (loopTyping (e.check Γ)).1 n.span
    have hin := h.hoist hopen hd.2 hf
    intro c hc
    rcases List.mem_append.1 hc with hc | hc
    · exact Expr.check_calls h e hd.1.2 c hc
    · exact checkAll_calls body hin hd.2 hf c hc
  | cond n e yes none, Γ, _, _, _, h, hd, hf => by
    simp only [check, diagnostics, List.append_eq_nil_iff] at hd
    have hin := h.hoist Γ.opens_push hd.2 hf
    intro c hc
    rcases List.mem_append.1 hc with hc | hc
    · exact Expr.check_calls h e hd.1.2 c hc
    · exact checkAll_calls yes hin hd.2 hf c hc
  | cond n e yes (some no), Γ, _, _, _, h, hd, hf => by
    simp only [check, diagnostics, List.append_eq_nil_iff] at hd
    simp only [check, functions, List.mem_append] at hf
    have hin := h.hoist Γ.opens_push hd.1.2 fun f hm => hf f (.inl hm)
    -- the other branch is checked from the scopes that lie around this one
    have hback := (checkBlock_grows Γ.push yes).pop.1
    have hin' := h.hoist (hback ▸ Context.opens_push _) hd.2 fun f hm => hf f (.inr hm)
    intro c hc
    rcases List.mem_append.1 hc with hc | hc
    · rcases List.mem_append.1 hc with hc | hc
      · exact Expr.check_calls h e hd.1.1.2 c hc
      · exact checkAll_calls yes hin hd.1.2 (fun f hm => hf f (.inl hm)) c hc
    · exact checkAll_calls no hin' hd.2 (fun f hm => hf f (.inr hm)) c hc
  | define n hdr body, Γ, _, _, _, h, hd, hf => by
    simp only [check, diagnostics, List.append_eq_nil_iff] at hd
    simp only [check, functions, List.mem_cons, forall_eq_or_imp] at hf
    have hopen := (Γ.opens_enter hdr.resultTy).bindAll n.span hdr.params
    exact checkAll_calls body (h.hoist hopen hd.2 hf.2) hd.2 hf.2
  | ret _ none, _, _, _, _, _, _, _ | invalid _ _, _, _, _, _, _, _, _ => by simp [check, calls]

theorem checkAll_calls {fs : List Function} : (ss : List Stmt) → ∀ {Γ : Context}
    {slots : List Hoisted} {block : List Stmt} {around : List (List Stmt)},
    Surrounds fs Γ.scopes (block :: around) → diagnosticsOfAll (checkAll Γ slots ss).1 = [] →
    (∀ f ∈ functionsOfAll (checkAll Γ slots ss).1, f ∈ fs) →
    ∀ c ∈ callsOfAll (block :: around) (checkAll Γ slots ss).1, c.Resolved fs
  | [], _, _, _, _, _, _, _ => by simp [checkAll, callsOfAll]
  | s :: ss, Γ, slots, _, _, h, hd, hf => by
    simp only [checkAll, diagnosticsOfAll, List.append_eq_nil_iff] at hd
    simp only [checkAll, functionsOfAll, List.mem_append] at hf
    intro c hc
    rcases List.mem_append.1 hc with hc | hc
    · exact check_calls s h hd.1 (fun f hm => hf f (.inl hm)) c hc
    · exact checkAll_calls ss (h.check _ s) hd.2 (fun f hm => hf f (.inr hm)) c hc

end

end Stmt

/-! ## Programs -/

namespace Program

/-- Functions can be told apart by their symbols, and calls mean the nearest function. -/
structure Lexical (p : Program) : Prop where
  /-- No two functions have one symbol, and none has that of the main method. -/
  symbols : (Code.mainName :: p.functions.map (·.header.symbol)).Nodup
  /-- A call means one function and carries its symbol, which no other function has. -/
  calls : ∀ c ∈ p.calls, ∃ f, Stmt.meant c.name c.around = [f] ∧
    c.symbol = some f.header.symbol ∧
    p.functions.filter (fun g => g.header.symbol = f.header.symbol) = [f]

theorem filter_symbol {fs : List Function} (hn : (fs.map (·.header.symbol)).Nodup)
    {f : Function} (hf : f ∈ fs) :
    fs.filter (fun g => g.header.symbol = f.header.symbol) = [f] := by
  induction fs with
  | nil => cases hf
  | cons g gs ih =>
    simp only [List.map_cons, List.nodup_cons, List.mem_map, not_exists, not_and] at hn
    rcases List.mem_cons.1 hf with rfl | hf
    · rw [List.filter_cons_of_pos (by simp), List.filter_eq_nil_iff.2]
      intro g hg he
      exact hn.1 g hg (by simpa using he)
    · rw [List.filter_cons_of_neg]
      · exact ih hn.2 hf
      · simpa using fun he => hn.1 f hf he.symm

theorem check_resolved {p : Program} (hd : p.check.diagnostics = []) :
    ∀ c ∈ p.check.calls, c.Resolved p.check.functions := by
  obtain ⟨body, span⟩ := p
  cases body with
  | expression e =>
    have hin : Surrounds [] Context.empty.scopes [[]] :=
      ⟨.cons (fun name => .inr ⟨nofun, rfl⟩) .nil, by simp [Stmt.functionsOfAll]⟩
    exact Expr.check_calls hin e hd
  | statements ss =>
    let functions := Stmt.functionsOfAll (Stmt.checkBlock .empty ss).1
    have houter : Surrounds functions [] [] := ⟨.nil, by simp⟩
    have hin : Surrounds functions (hoist .empty ss).2.scopes [(Stmt.checkBlock .empty ss).1] :=
      houter.hoist ⟨rfl, nofun⟩ hd fun f hf => hf
    exact Stmt.checkAll_calls ss hin hd fun f hf => hf

/-- Symbols and calls of a source without diagnostics. -/
theorem check_lexical {source file : String} (hd : (parse source file).check.diagnostics = []) :
    (parse source file).check.Lexical := by
  have hsym := check_symbols (parse_named source file) hd
  refine ⟨hsym, fun c hc => ?_⟩
  obtain ⟨f, hf, hm, hs⟩ := check_resolved hd c hc
  exact ⟨f, hm, hs, filter_symbol (List.nodup_cons.1 hsym).2 hf⟩

/-- A function hides one of its name from a call in front of it, behind a variable of that name. -/
theorem check_lexical_hidden :
    let source := "function g(): int \x7b return 2 \x7d function h(): int \x7b if (true) \x7b var g = 3 " ++
      "print(g()) \x7d function g(): int \x7b return 1 \x7d return g() \x7d print(h() + g())"
    (parse source "hidden.cat").check.diagnostics = [] ∧
      (parse source "hidden.cat").check.calls.map (fun c => (c.name, c.symbol)) =
        [("g", some "g#1"), ("g", some "g#1"), ("h", some "h"), ("g", some "g")] ∧
      (parse source "hidden.cat").check.Lexical := by
  intro source
  have hd : (parse source "hidden.cat").check.diagnostics = [] := by decide +kernel
  exact ⟨hd, by decide +kernel, check_lexical hd⟩

end Program

end CatScript
