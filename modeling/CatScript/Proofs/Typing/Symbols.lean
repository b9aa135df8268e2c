import CatScript.Proofs.Grammar.Names
import CatScript.Proofs.Typing.Soundness

/-!
# Symbols

Checking gives every function a symbol of its own. A function's symbol is its name with the
number of functions of that name that were declared before it, so along the walk the symbols
of each name are taken from an interval of numbers (`Fresh`), and the intervals of successive
parts of the program follow each other. Names hold no `#`, so a symbol determines its name and
its number.
-/
namespace CatScript

open Typing Context

/-! ## Symbols of a name -/

namespace Typing

/-- The symbol of the function of a name before which `n` have been declared. -/
def symbolText (name : String) : Nat → String
  | 0 => name
  | n + 1 => name ++ "#" ++ (n + 1).repr

/-- How many functions of a name have been declared. -/
def Context.count (Γ : Context) (name : String) : Nat := (Γ.counts.find? name).getD 0

theorem Context.nextSymbol_eq (Γ : Context) (name : String) :
    Γ.nextSymbol name = symbolText name (Γ.count name) := by
  unfold nextSymbol count symbolText
  split <;> simp_all

theorem repr_injective {m n : Nat} (h : m.repr = n.repr) : m = n := by
  have hd := congrArg (fun s : String => Nat.ofDigitChars 10 s.toList 0) h
  simpa [Nat.toList_repr] using hd

theorem not_mem_of_isWord {name : String} (h : IsWord name) : '#' ∉ name.toList := by
  intro hm
  have := h.2 _ hm
  revert this
  decide

private theorem append_marked_inj {a b x y : List Char} (ha : '#' ∉ a) (hb : '#' ∉ b)
    (h : a ++ '#' :: x = b ++ '#' :: y) : a = b ∧ x = y := by
  induction a generalizing b with
  | nil =>
    cases b with
    | nil => simpa using h
    | cons c b =>
      simp only [List.nil_append, List.cons_append, List.cons.injEq] at h
      exact absurd (h.1 ▸ List.mem_cons_self) hb
  | cons c a ih =>
    cases b with
    | nil =>
      simp only [List.nil_append, List.cons_append, List.cons.injEq] at h
      exact absurd (h.1 ▸ List.mem_cons_self) ha
    | cons d b =>
      simp only [List.mem_cons, not_or] at ha hb
      simp only [List.cons_append, List.cons.injEq] at h
      obtain ⟨rfl, rfl⟩ := ih ha.2 hb.2 h.2
      exact ⟨by rw [h.1], rfl⟩

theorem toList_symbolText_succ (name : String) (n : Nat) :
    (symbolText name (n + 1)).toList = name.toList ++ '#' :: (n + 1).repr.toList := by
  simp [symbolText]

theorem symbolText_inj {a b : String} {i j : Nat} (ha : IsWord a) (hb : IsWord b)
    (h : symbolText a i = symbolText b j) : a = b ∧ i = j := by
  have hl := congrArg String.toList h
  cases i with
  | zero =>
    cases j with
    | zero => exact ⟨h, rfl⟩
    | succ j =>
      rw [toList_symbolText_succ] at hl
      refine absurd ?_ (not_mem_of_isWord ha)
      show '#' ∈ (symbolText a 0).toList
      rw [hl]
      simp
  | succ i =>
    cases j with
    | zero =>
      rw [toList_symbolText_succ] at hl
      refine absurd ?_ (not_mem_of_isWord hb)
      show '#' ∈ (symbolText b 0).toList
      rw [← hl]
      simp
    | succ j =>
      rw [toList_symbolText_succ, toList_symbolText_succ] at hl
      obtain ⟨h1, h2⟩ := append_marked_inj (not_mem_of_isWord ha) (not_mem_of_isWord hb) hl
      exact ⟨String.toList_inj.1 h1, repr_injective (String.toList_inj.1 h2)⟩

/-- No function has the name of the main method. -/
theorem symbolText_ne_main {name : String} (h : IsWord name) (n : Nat) :
    symbolText name n ≠ Code.mainName := by
  intro he
  have hl := congrArg String.toList he
  obtain ⟨c, cs, hc⟩ := List.exists_cons_of_ne_nil h.1
  have hw : Token.inWord c = true := h.2 c (by simp [hc])
  have hm : Code.mainName.toList = ['<', 'm', 'a', 'i', 'n', '>'] := by decide
  have hne : c ≠ '<' := by
    rintro rfl
    revert hw
    decide
  cases n with
  | zero => simp [symbolText, hc, hm, hne] at hl
  | succ n => simp [toList_symbolText_succ, hc, hm, hne] at hl

/-! ## Intervals of symbols -/

/-- Different symbols, each with a number of its name's interval from `lo` to `hi`. -/
structure Fresh (lo hi : String → Nat) (symbols : List String) : Prop where
  le : ∀ name, lo name ≤ hi name
  nodup : symbols.Nodup
  numbered : ∀ s ∈ symbols, ∃ name n, IsWord name ∧ s = symbolText name n ∧ lo name ≤ n ∧ n < hi name

namespace Fresh

variable {lo mid hi : String → Nat} {a b : List String}

theorem nil (lo : String → Nat) : Fresh lo lo [] := ⟨fun _ => Nat.le_refl _, List.nodup_nil, by simp⟩

theorem append (ha : Fresh lo mid a) (hb : Fresh mid hi b) : Fresh lo hi (a ++ b) := by
  refine ⟨fun n => Nat.le_trans (ha.le n) (hb.le n), ?_, fun s hs => ?_⟩
  · refine List.nodup_append.2 ⟨ha.nodup, hb.nodup, ?_⟩
    rintro s hs t ht rfl
    obtain ⟨x, i, hx, rfl, -, hi'⟩ := ha.numbered s hs
    obtain ⟨y, j, hy, he, hj, -⟩ := hb.numbered _ ht
    obtain ⟨rfl, rfl⟩ := symbolText_inj hx hy he
    omega
  · rcases List.mem_append.1 hs with hs | hs
    · obtain ⟨x, i, hx, he, h1, h2⟩ := ha.numbered s hs
      exact ⟨x, i, hx, he, h1, Nat.lt_of_lt_of_le h2 (hb.le x)⟩
    · obtain ⟨x, i, hx, he, h1, h2⟩ := hb.numbered s hs
      exact ⟨x, i, hx, he, Nat.le_trans (ha.le x) h1, h2⟩

theorem of_eq {hi' : String → Nat} (h : Fresh lo hi a) (he : hi' = hi) : Fresh lo hi' a := he ▸ h

theorem perm (h : Fresh lo hi a) (hp : a.Perm b) : Fresh lo hi b :=
  ⟨h.le, hp.nodup h.nodup, fun s hs => h.numbered s (hp.mem_iff.2 hs)⟩

end Fresh

/-! ## Symbols of the functions declared in a block -/

namespace Context

@[simp] theorem count_push (Γ : Context) : Γ.push.count = Γ.count := rfl

@[simp] theorem count_enter (Γ : Context) (result : Ty) : (Γ.enter result).count = Γ.count := rfl

@[simp] theorem count_pop (Γ : Context) : Γ.pop.count = Γ.count := by
  unfold pop
  split <;> rfl

@[simp] theorem count_leave (Γ outer : Context) : (Γ.leave outer).count = Γ.count :=
  count_pop Γ

theorem count_declare {Γ Δ : Context} {x : String} {entity : Entity} {span : Span}
    (h : Γ.declare x entity span = .ok Δ) : Δ.counts = Γ.counts := by
  obtain ⟨-, rfl⟩ := declare_eq h
  rfl

end Context

@[simp] theorem count_bind (Γ : Context) (x : String) (t : Ty) (span : Span) :
    (bind Γ x t span).2.count = Γ.count := by
  unfold bind
  split
  · next h => unfold count; rw [count_declare h]
  · rfl

@[simp] theorem count_bindAll (Γ : Context) (span : Span) (ps : List Param) :
    (bindAll Γ span ps).2.count = Γ.count := by
  induction ps generalizing Γ with
  | nil => rfl
  | cons p ps ih => simp only [bindAll, ih, count_bind]

/-- The symbols that declaring the statements of a block gave. -/
def Hoisted.symbols : List Hoisted → List String
  | [] => []
  | .symbol s :: slots => s :: symbols slots
  | _ :: slots => symbols slots

theorem fresh_declareFunction {Γ Δ : Context} {s : Signature} {symbol : String} {span : Span}
    (hw : IsWord s.name) (h : Γ.declareFunction s span = .ok (symbol, Δ)) :
    Fresh Γ.count Δ.count [symbol] := by
  simp only [declareFunction] at h
  split at h
  · cases h
  · cases h
    have hc : ∀ x, ((Γ.counts.insert s.name (Γ.count s.name + 1)).find? x).getD 0 =
        if x = s.name then Γ.count s.name + 1 else Γ.count x := by
      intro x
      rw [Table.find?_insert]
      split <;> rfl
    refine ⟨fun x => ?_, by simp, ?_⟩
    · refine Nat.le_trans ?_ (Nat.le_of_eq (hc x).symm)
      split
      · next hx => rw [hx]; omega
      · omega
    · intro t ht
      rw [List.mem_singleton.1 ht]
      refine ⟨s.name, Γ.count s.name, hw, nextSymbol_eq Γ s.name, Nat.le_refl _, ?_⟩
      refine Nat.lt_of_lt_of_eq ?_ (hc s.name).symm
      simp

theorem hoist_fresh {ss : List Stmt} (Γ : Context)
    (hw : ∀ n h body, Stmt.define n h body ∈ ss → IsWord h.name) :
    Fresh Γ.count (hoist Γ ss).2.count (Hoisted.symbols (hoist Γ ss).1) := by
  induction ss generalizing Γ with
  | nil => exact .nil _
  | cons s ss ih =>
    have ih := ih (hoistOne Γ s).2 fun n h body hm => hw n h body (List.mem_cons_of_mem _ hm)
    simp only [hoist]
    cases s with
    | define n h body =>
      cases hd : Γ.declareFunction h.signature n.span with
      | error d =>
        simp only [hoistOne, hd, Hoisted.symbols] at ih ⊢
        exact ih
      | ok r =>
        simp only [hoistOne, hd, Hoisted.symbols] at ih ⊢
        exact (fresh_declareFunction (hw n h body (List.mem_cons_self ..)) hd).append ih
    | _ => exact ih

end Typing

/-! ## Symbols of checked statements -/

namespace Stmt

/-- The symbol of the function that the statement is. -/
def ownSymbols : Stmt → List String
  | define _ h _ => [h.symbol]
  | _ => []

/-- The symbols of the functions inside the statement. -/
def innerSymbols : Stmt → List String
  | define _ _ body => (functionsOfAll body).map (·.header.symbol)
  | s => s.functions.map (·.header.symbol)

theorem symbols_functions (s : Stmt) :
    s.functions.map (·.header.symbol) = s.ownSymbols ++ s.innerSymbols := by
  cases s with
  | define n h body => rfl
  | _ => simp only [ownSymbols, innerSymbols, List.nil_append]

theorem symbols_functionsOfAll (ss : List Stmt) :
    ((functionsOfAll ss).map (·.header.symbol)).Perm
      (ss.flatMap ownSymbols ++ ss.flatMap innerSymbols) := by
  induction ss with
  | nil => exact .refl _
  | cons s ss ih =>
    simp only [functionsOfAll, List.map_append, symbols_functions, List.flatMap_cons]
    refine (ih.append_left _).trans ?_
    simp only [List.append_assoc]
    refine List.Perm.append_left _ ?_
    exact List.perm_append_comm_assoc ..

/-- Without a diagnostic, the functions of a block have the symbols under which they were
declared. -/
theorem ownSymbols_checkAll {ss : List Stmt} (Γ Δ : Context)
    (hd : diagnosticsOfAll (checkAll Δ (hoist Γ ss).1 ss).1 = []) :
    (checkAll Δ (hoist Γ ss).1 ss).1.flatMap ownSymbols = Hoisted.symbols (hoist Γ ss).1 := by
  induction ss generalizing Γ Δ with
  | nil => rfl
  | cons s ss ih =>
    simp only [hoist, checkAll, diagnosticsOfAll, List.append_eq_nil_iff, List.head?_cons,
      Option.getD_some, List.tail_cons] at hd
    have ih := ih (hoistOne Γ s).2 _ hd.2
    simp only [hoist, checkAll, List.head?_cons, Option.getD_some, List.tail_cons,
      List.flatMap_cons, ih]
    cases s with
    | define n h body =>
      simp only [hoistOne] at hd ⊢
      cases hdecl : Γ.declareFunction h.signature n.span with
      | error d => simp [hdecl, check, diagnostics, Note.report, Hoisted.errors] at hd
      | ok r => simp [check, ownSymbols, Hoisted.header, Hoisted.symbols]
    | cond n e yes no => cases no <;> simp [check, ownSymbols, hoistOne, Hoisted.symbols]
    | ret n e => cases e <;> simp [check, ownSymbols, hoistOne, Hoisted.symbols]
    | _ => simp [check, ownSymbols, hoistOne, Hoisted.symbols]

private theorem isWord_of_mem {ss : List Stmt} (hn : NamedAll ss) {Γ : Context}
    {slots : List Hoisted} (hd : diagnosticsOfAll (checkAll Γ slots ss).1 = []) {n : Stmt.Note}
    {h : Header} {body : List Stmt} (hm : define n h body ∈ ss) : IsWord h.name := by
  induction ss generalizing Γ slots with
  | nil => cases hm
  | cons s ss ih =>
    simp only [checkAll, diagnosticsOfAll, List.append_eq_nil_iff] at hd
    rcases List.mem_cons.1 hm with rfl | hm
    · simp only [check, diagnostics, Note.report, List.append_eq_nil_iff] at hd
      exact hn.1.1 hd.1.1.1.1
    · exact ih hn.2 hd.2 hm

private theorem checkBlock_fresh_of {body : List Stmt} {Γ : Context} (hn : NamedAll body)
    (hd : diagnosticsOfAll (checkBlock Γ body).1 = [])
    (ih : ∀ (Δ : Context) slots, diagnosticsOfAll (checkAll Δ slots body).1 = [] →
      Fresh Δ.count (checkAll Δ slots body).2.count
        ((checkAll Δ slots body).1.flatMap innerSymbols)) :
    Fresh Γ.count (checkBlock Γ body).2.count
      ((functionsOfAll (checkBlock Γ body).1).map (·.header.symbol)) := by
  have hh := hoist_fresh Γ fun n h b hm => isWord_of_mem hn hd hm
  have ha := hh.append (ih _ _ hd)
  rw [← ownSymbols_checkAll Γ _ hd] at ha
  exact ha.perm (symbols_functionsOfAll _).symm

mutual

theorem check_fresh : (s : Stmt) → ∀ (Γ : Context) (slot : Hoisted), s.Named →
    (s.check Γ slot).1.diagnostics = [] →
    Fresh Γ.count (s.check Γ slot).2.count (s.check Γ slot).1.innerSymbols
  | print _ _, Γ, _, _, _ | call _ _, Γ, _, _, _ | assign _ _ _, Γ, _, _, _
  | ret _ none, Γ, _, _, _ | ret _ (some _), Γ, _, _, _ | invalid _ _, Γ, _, _, _ => .nil Γ.count
  | declare n x t e, Γ, _, _, _ => by
    simp only [check, count_bind]
    exact .nil Γ.count
  | forEach n x e body, Γ, _, hn, hd => by
    simp only [check, diagnostics, List.append_eq_nil_iff] at hd
    have h := checkBlock_fresh_of hn hd.2 fun Δ slots hd => checkAll_fresh body Δ slots hn hd
    rw [count_bind, count_push] at h
    exact h.of_eq (count_pop _)
  | cond n e yes none, Γ, _, hn, hd => by
    simp only [check, diagnostics, List.append_eq_nil_iff] at hd
    have h := checkBlock_fresh_of hn hd.2 fun Δ slots hd => checkAll_fresh yes Δ slots hn hd
    rw [count_push] at h
    exact h.of_eq (count_pop _)
  | cond n e yes (some no), Γ, _, hn, hd => by
    simp only [check, diagnostics, List.append_eq_nil_iff] at hd
    have h := checkBlock_fresh_of hn.1 hd.1.2 fun Δ slots hd => checkAll_fresh yes Δ slots hn.1 hd
    have h' := checkBlock_fresh_of hn.2 hd.2 fun Δ slots hd => checkAll_fresh no Δ slots hn.2 hd
    rw [count_push] at h
    rw [count_push, count_pop] at h'
    simp only [check, innerSymbols, functions, List.map_append]
    exact (h.append h').of_eq (count_pop _)
  | define n h body, Γ, _, hn, hd => by
    simp only [check, diagnostics, List.append_eq_nil_iff] at hd
    have h := checkBlock_fresh_of hn.2 hd.2 fun Δ slots hd => checkAll_fresh body Δ slots hn.2 hd
    rw [count_bindAll, count_enter] at h
    exact h.of_eq (count_leave _ _)

theorem checkAll_fresh : (ss : List Stmt) → ∀ (Γ : Context) (slots : List Hoisted), NamedAll ss →
    diagnosticsOfAll (checkAll Γ slots ss).1 = [] →
    Fresh Γ.count (checkAll Γ slots ss).2.count ((checkAll Γ slots ss).1.flatMap innerSymbols)
  | [], Γ, slots, _, _ => .nil Γ.count
  | s :: ss, Γ, slots, hn, hd => by
    simp only [checkAll, diagnosticsOfAll, List.append_eq_nil_iff] at hd
    simp only [checkAll, List.flatMap_cons]
    exact (check_fresh s Γ _ hn.1 hd.1).append (checkAll_fresh ss _ _ hn.2 hd.2)

end

/-- The functions of a checked program have symbols of their own. -/
theorem checkBlock_fresh {body : List Stmt} {Γ : Context} (hn : NamedAll body)
    (hd : diagnosticsOfAll (checkBlock Γ body).1 = []) :
    Fresh Γ.count (checkBlock Γ body).2.count
      ((functionsOfAll (checkBlock Γ body).1).map (·.header.symbol)) :=
  checkBlock_fresh_of hn hd fun Δ slots hd => checkAll_fresh body Δ slots hn hd

end Stmt

end CatScript
