import CatScript.Proofs.Eval.Renaming
import CatScript.Proofs.Typing.Symbols

/-!
# The place of a function among the statements

The functions of a list are declared before its statements are checked, so a definition may stand
before or behind a statement that uses it. Only a declaration of a variable between them can be told,
since a body sees the variables that are declared in front of its definition.

Swapping two statements swaps the order in which the scopes inside them are checked, and with it the
numbers in the symbols of the functions there. Everything else stays: the global scope binds the same
names, if in another order, and neither statement changes the context that the other one is checked
in. So the checked programs are the same up to symbols, and symbols at the same place correspond
(`Corresponds`).

Results:
* `Neighbours.renamed_swap`: two statements that declare no variable are checked to the same in
  either order, up to symbols.
* `Neighbours.parallel_swap`: the checked programs act alike, if one of the two is a definition.
* `Program.define_swap`: both for whole programs.
-/
namespace CatScript

open Typing Context

/-! ## Cutting a check -/

theorem Typing.hoist_append (Γ : Context) (ss ts : List Stmt) :
    hoist Γ (ss ++ ts) = ((hoist Γ ss).1 ++ (hoist (hoist Γ ss).2 ts).1,
      (hoist (hoist Γ ss).2 ts).2) := by
  induction ss generalizing Γ with
  | nil => rfl
  | cons s ss ih => simp only [List.cons_append, hoist, ih]

theorem Stmt.checkAll_append {ss : List Stmt} {slots : List Hoisted} (Γ : Context)
    (hl : slots.length = ss.length) (slots' : List Hoisted) (ts : List Stmt) :
    checkAll Γ (slots ++ slots') (ss ++ ts) =
      ((checkAll Γ slots ss).1 ++ (checkAll (checkAll Γ slots ss).2 slots' ts).1,
        (checkAll (checkAll Γ slots ss).2 slots' ts).2) := by
  induction ss generalizing Γ slots with
  | nil =>
    obtain rfl := List.length_eq_zero_iff.1 hl
    rfl
  | cons s ss ih =>
    obtain ⟨slot, slots, rfl⟩ := List.exists_cons_of_length_eq_add_one hl
    simp only [List.cons_append, checkAll, List.head?_cons, List.tail_cons,
      ih _ (Nat.succ.inj hl)]

/-! ## Swapping two declarations of functions -/

variable {R : String → String → Prop}

namespace Typing

/-- Whether a function can be declared is seen from the innermost scope. -/
theorem find?_of_hoistOne {Γ : Context} {n : Stmt.Note} {h : Header} {body : List Stmt}
    (he : (hoistOne Γ (.define n h body)).1.errors = []) : Γ.inner.find? h.name = none := by
  rw [← Table.contains_eq_false]
  cases hc : Γ.inner.contains h.name with
  | false => rfl
  | true => simp [hoistOne, declareFunction, declare, Header.signature, hc, Hoisted.errors] at he

theorem hoistOne_of_find? {Γ : Context} {n : Stmt.Note} {h : Header} (body : List Stmt)
    (hf : Γ.inner.find? h.name = none) :
    hoistOne Γ (.define n h body) =
      (.symbol (Γ.nextSymbol h.name),
        { Γ with
          inner := Γ.inner.insert h.name
            (.function { h.signature with symbol := Γ.nextSymbol h.name })
          counts := Γ.counts.insert h.name ((Γ.counts.find? h.name).getD 0 + 1) }) := by
  have hc : Γ.inner.contains h.name = false := Table.contains_eq_false.2 hf
  simp [hoistOne, declareFunction, declare, hc, Header.signature]

theorem hoistOne_of_ne_define {s : Stmt} (hs : ∀ n h body, s ≠ .define n h body) (Γ : Context) :
    hoistOne Γ s = (.nothing, Γ) := by
  cases s with
  | define n h body => exact absurd rfl (hs n h body)
  | _ => rfl

/-- Two functions of different names, declared in either order. -/
theorem ScopeRenamed.insert_swap {t u : Table Entity} {x y : String} {a a' b b' : Entity}
    (h : ScopeRenamed R t u) (ha : a.Renamed R a') (hb : b.Renamed R b') (hxy : x ≠ y) :
    ScopeRenamed R ((t.insert x a).insert y b) ((u.insert y b').insert x a') := by
  intro z
  simp only [Table.find?_insert]
  by_cases hx : z = x
  · subst hx
    simp only [if_neg hxy, if_pos]
    exact .some ha
  · by_cases hy : z = y
    · subst hy
      simp only [if_neg hx, if_pos]
      exact .some hb
    · simp only [if_neg hx, if_neg hy]
      exact h z

theorem ScopeRenamed.find?_eq_none {t u : Table Entity} {x : String} (h : ScopeRenamed R t u)
    (hx : t.find? x = none) : u.find? x = none := by
  have hrel := h x
  rw [hx] at hrel
  generalize u.find? x = b at hrel
  cases hrel
  rfl

/-- Statements that can be declared one behind the other can be declared the other way round. -/
theorem hoistOne_swap {Γ Δ : Context} (h : Γ.Renamed R Δ) (a b : Stmt)
    (hea : (hoistOne Γ a).1.errors = []) (heb : (hoistOne (hoistOne Γ a).2 b).1.errors = [])
    (hRa : Hoisted.Agree R (hoistOne Γ a).1 (hoistOne (hoistOne Δ b).2 a).1)
    (hRb : Hoisted.Agree R (hoistOne (hoistOne Γ a).2 b).1 (hoistOne Δ b).1) :
    (hoistOne (hoistOne Δ b).2 a).1.errors = [] ∧ (hoistOne Δ b).1.errors = [] ∧
      (hoistOne (hoistOne Γ a).2 b).2.Renamed R (hoistOne (hoistOne Δ b).2 a).2 := by
  by_cases hda : ∀ n hd body, a ≠ .define n hd body
  · rw [hoistOne_of_ne_define hda, hoistOne_of_ne_define hda] at *
    obtain ⟨herrors, hren⟩ := hoistOne_renamed h b hRb
    exact ⟨rfl, herrors.trans heb, hren⟩
  by_cases hdb : ∀ n hd body, b ≠ .define n hd body
  · rw [hoistOne_of_ne_define hdb, hoistOne_of_ne_define hdb] at *
    obtain ⟨herrors, hren⟩ := hoistOne_renamed h a hRa
    exact ⟨herrors.trans hea, rfl, hren⟩
  simp only [ne_eq, Classical.not_forall, not_not] at hda hdb
  obtain ⟨n, ha, body, rfl⟩ := hda
  obtain ⟨m, hb, body', rfl⟩ := hdb
  obtain ⟨hbase, hresults, hscopes⟩ := h
  obtain ⟨hinner, houter⟩ := List.forall₂_cons.1 hscopes
  have hx := find?_of_hoistOne hea
  rw [hoistOne_of_find? body hx] at heb hRa hRb ⊢
  have hyx := find?_of_hoistOne heb
  have hne : ha.name ≠ hb.name := by
    intro he
    simp [he] at hyx
  have hy : Γ.inner.find? hb.name = none := by
    rwa [Table.find?_insert_of_ne _ (Ne.symm hne)] at hyx
  have hy' := hinner.find?_eq_none hy
  rw [hoistOne_of_find? body' hy'] at hRa hRb ⊢
  rw [hoistOne_of_find? body' hyx] at hRb ⊢
  have hx' : ∀ e, (Δ.inner.insert hb.name e).find? ha.name = none := by
    intro e
    rw [Table.find?_insert_of_ne _ hne]
    exact hinner.find?_eq_none hx
  rw [hoistOne_of_find? body (hx' _)] at hRa ⊢
  refine ⟨rfl, rfl, hbase, hresults, .cons (hinner.insert_swap ?_ ?_ hne) houter⟩
  · exact .function ⟨hRa _ _ rfl rfl, rfl⟩
  · exact .function ⟨hRb _ _ rfl rfl, rfl⟩

end Typing

/-! ## Swapping two statements -/

namespace Typing.Context

/-- The contexts differ at most in the functions they have counted. -/
structure Same (Γ Δ : Context) : Prop where
  scopes : Δ.scopes = Γ.scopes
  base : Δ.base = Γ.base
  results : Δ.results = Γ.results

theorem Same.refl (Γ : Context) : Γ.Same Γ := ⟨rfl, rfl, rfl⟩

theorem Same.trans {Γ Δ Θ : Context} (h : Γ.Same Δ) (h' : Δ.Same Θ) : Γ.Same Θ :=
  ⟨h'.scopes.trans h.scopes, h'.base.trans h.base, h'.results.trans h.results⟩

theorem Renamed.of_same {Γ Δ Γ' Δ' : Context} (h : Γ.Renamed R Δ) (hΓ : Γ.Same Γ')
    (hΔ : Δ.Same Δ') : Γ'.Renamed R Δ' := by
  refine ⟨?_, ?_, ?_⟩
  · rw [hΔ.base, hΓ.base, h.base]
  · rw [hΔ.results, hΓ.results, h.results]
  · rw [hΔ.scopes, hΓ.scopes]
    exact h.scopes

end Typing.Context

namespace Stmt

/-- Whether the statement declares a variable. -/
def isDeclaration : Stmt → Bool
  | declare _ _ _ _ => true
  | _ => false

/-- Whether the statement defines a function. -/
def isDefinition : Stmt → Bool
  | define _ _ _ => true
  | _ => false

/-- No other statement changes the context for those behind it. -/
theorem check_unchanged (Γ : Context) {s : Stmt} (hs : s.isDeclaration = false)
    (slot : Hoisted) : Γ.Same (s.check Γ slot).2 := by
  have hgrows := check_grows Γ slot s
  refine ⟨check_scopes Γ slot s ?_, hgrows.base, hgrows.results⟩
  rintro n x t e rfl
  cases hs

/-- A statement without diagnostics could be declared. -/
theorem errors_of_check {s : Stmt} {Γ Δ : Context}
    (h : (s.check Γ (hoistOne Δ s).1).1.diagnostics = []) : (hoistOne Δ s).1.errors = [] := by
  cases s with
  | define n hd body =>
    simp only [check, diagnostics, Note.report, List.append_eq_nil_iff] at h
    exact h.1.1.2.1.1
  | _ => rfl

/-- The symbols of functions at the same place in two programs. -/
def Corresponds (ss ts : List Stmt) (a b : String) : Prop :=
  (a, b) ∈ (symbolsOfAll ss).zip (symbolsOfAll ts)

end Stmt

/-- Two statements of a program, and those before and behind them. -/
structure Neighbours where
  pre : List Stmt
  first : Stmt
  second : Stmt
  post : List Stmt

namespace Neighbours

open Stmt

variable (w : Neighbours)

def list : List Stmt := w.pre ++ w.first :: w.second :: w.post

def swap : Neighbours := { w with first := w.second, second := w.first }

/-! The stages of a check of the program, first of the declarations and then of the statements. -/

def hoistedPre : List Hoisted × Context := hoist .empty w.pre

def hoistedFirst : Hoisted × Context := hoistOne w.hoistedPre.2 w.first

def hoistedSecond : Hoisted × Context := hoistOne w.hoistedFirst.2 w.second

def hoistedPost : List Hoisted × Context := hoist w.hoistedSecond.2 w.post

def checkedPre : List Stmt × Context := checkAll w.hoistedPost.2 w.hoistedPre.1 w.pre

def checkedFirst : Stmt × Context := w.first.check w.checkedPre.2 w.hoistedFirst.1

def checkedSecond : Stmt × Context := w.second.check w.checkedFirst.2 w.hoistedSecond.1

def checkedPost : List Stmt × Context := checkAll w.checkedSecond.2 w.hoistedPost.1 w.post

/-- The checked program. -/
def checked : Neighbours := ⟨w.checkedPre.1, w.checkedFirst.1, w.checkedSecond.1, w.checkedPost.1⟩

theorem checkBlock_list : (checkBlock .empty w.list).1 = w.checked.list := by
  have hl : (hoist .empty w.pre).1.length = w.pre.length := (hoist_suits .empty w.pre).length_eq
  simp only [list, checkBlock, hoist_append, hoist]
  rw [checkAll_append _ hl]
  rfl

theorem symbols_list :
    symbolsOfAll w.list = symbolsOfAll w.pre ++ (w.first.symbols ++ (w.second.symbols ++
      symbolsOfAll w.post)) := by
  simp only [list, symbolsOfAll_append, symbolsOfAll_cons]

theorem diagnostics_list : diagnosticsOfAll w.list = [] ↔
    diagnosticsOfAll w.pre = [] ∧ w.first.diagnostics = [] ∧ w.second.diagnostics = [] ∧
      diagnosticsOfAll w.post = [] := by
  simp only [list, diagnosticsOfAll_eq, List.flatMap_append, List.flatMap_cons,
    List.append_eq_nil_iff]

theorem diagnostics_swap : diagnosticsOfAll w.swap.list = [] ↔ diagnosticsOfAll w.list = [] := by
  rw [diagnostics_list, diagnostics_list]
  exact and_congr_right fun _ => and_left_comm

variable {w}

theorem same_first (hfirst : w.first.isDeclaration = false) :
    w.checkedPre.2.Same w.checkedFirst.2 :=
  check_unchanged _ hfirst w.hoistedFirst.1

theorem same_second (hfirst : w.first.isDeclaration = false)
    (hsecond : w.second.isDeclaration = false) : w.checkedPre.2.Same w.checkedSecond.2 :=
  (same_first hfirst).trans (check_unchanged _ hsecond w.hoistedSecond.1)

variable (w)

/-- Both orders give out as many symbols. -/
theorem length_symbols_swap : (symbolsOfAll w.checked.list).length =
    (symbolsOfAll w.swap.checked.swap.list).length := by
  simp only [symbols_list, List.length_append, checked, swap, checkedPre, checkedFirst,
    checkedSecond, checkedPost, length_symbols_check, length_symbols_checkAll]

/-- Without diagnostics, two statements that declare no variable are checked to the same in either
order, up to symbols. -/
theorem renamed_swap (hfirst : w.first.isDeclaration = false)
    (hsecond : w.second.isDeclaration = false) (hd : diagnosticsOfAll w.checked.list = [])
    (hR : List.Forall₂ R (symbolsOfAll w.checked.list) (symbolsOfAll w.swap.checked.swap.list)) :
    RenamedAll R w.checked.list w.swap.checked.swap.list := by
  have hempty : Context.empty.Renamed R .empty := ⟨rfl, rfl, .cons (fun _ => .none) .nil⟩
  -- the symbols that correspond, part by part
  rw [symbols_list, symbols_list] at hR
  obtain ⟨hRpre, hR⟩ := forall₂_append_inv hR (by
    simp only [checked, swap, checkedPre, length_symbols_checkAll])
  obtain ⟨hRfirst, hR⟩ := forall₂_append_inv hR (by
    simp only [checked, swap, checkedFirst, checkedSecond, length_symbols_check])
  obtain ⟨hRsecond, hRpost⟩ := forall₂_append_inv hR (by
    simp only [checked, swap, checkedFirst, checkedSecond, length_symbols_check])
  obtain ⟨-, hdfirst, hdsecond, -⟩ := w.checked.diagnostics_list.1 hd
  -- declarations
  have hsuitsPre := hoist_suits .empty w.pre
  obtain ⟨hpreErrors, hpre⟩ :=
    hoist_renamed hempty w.pre (agree_of_symbolsOfAll hsuitsPre hsuitsPre hRpre)
  obtain ⟨hfirstErrors, hsecondErrors, hboth⟩ := hoistOne_swap hpre w.first w.second
    (errors_of_check hdfirst) (errors_of_check hdsecond)
    (agree_of_symbols ⟨_, rfl⟩ hRfirst) (agree_of_symbols ⟨_, rfl⟩ hRsecond)
  obtain ⟨hpostErrors, hall⟩ := hoist_renamed hboth w.post
    (agree_of_symbolsOfAll (hoist_suits _ w.post) (hoist_suits _ w.post) hRpost)
  -- statements
  obtain ⟨hcpre, hctx⟩ := checkAll_renamed w.pre _ _ _ _ hall hpreErrors hRpre
  have hfirst' : w.swap.second.isDeclaration = false := hfirst
  have hsecond' : w.swap.first.isDeclaration = false := hsecond
  obtain ⟨hcfirst, -⟩ := check_renamed w.first (hctx.of_same (.refl _) (same_first hsecond'))
    (hfirstErrors.trans (errors_of_check hdfirst).symm) hRfirst
  obtain ⟨hcsecond, -⟩ := check_renamed w.second (hctx.of_same (same_first hfirst) (.refl _))
    (hsecondErrors.trans (errors_of_check hdsecond).symm) hRsecond
  obtain ⟨hcpost, -⟩ := checkAll_renamed w.post _ _ _ _
    (hctx.of_same (same_second hfirst hsecond) (same_second hsecond' hfirst')) hpostErrors hRpost
  exact hcpre.append ⟨_, _, rfl, hcfirst, _, _, rfl, hcsecond, hcpost⟩

end Neighbours

/-! ## Running in either order -/

namespace Stmt

mutual

theorem diagnostics_body : (s : Stmt) → s.diagnostics = [] → ∀ f ∈ s.functions,
    diagnosticsOfAll f.body = []
  | print _ _, _ | call _ _, _ | assign _ _ _, _ | declare _ _ _ _, _ | ret _ none, _
  | ret _ (some _), _ | invalid _ _, _ => nofun
  | forEach _ _ _ body, h | cond _ _ body none, h => by
    simp only [diagnostics, List.append_eq_nil_iff] at h
    exact diagnosticsOfAll_body body h.2
  | cond _ _ yes (some no), h => by
    simp only [diagnostics, List.append_eq_nil_iff] at h
    exact List.forall_mem_append.2 ⟨diagnosticsOfAll_body yes h.1.2, diagnosticsOfAll_body no h.2⟩
  | define _ _ body, h => by
    simp only [diagnostics, List.append_eq_nil_iff] at h
    exact List.forall_mem_cons.2 ⟨h.2, diagnosticsOfAll_body body h.2⟩

/-- The functions of a program without diagnostics have none. -/
theorem diagnosticsOfAll_body : (ss : List Stmt) → diagnosticsOfAll ss = [] →
    ∀ f ∈ functionsOfAll ss, diagnosticsOfAll f.body = []
  | [], _ => nofun
  | s :: ss, h => by
    simp only [diagnosticsOfAll, List.append_eq_nil_iff] at h
    exact List.forall_mem_append.2 ⟨diagnostics_body s h.1, diagnosticsOfAll_body ss h.2⟩

end

/-- A definition does nothing when it is reached. -/
theorem execAll_define (invoke : Eval.Invoke) (pre : List Stmt) (n : Note) (h : Header)
    (body post : List Stmt) :
    execAll invoke (pre ++ define n h body :: post) = execAll invoke (pre ++ post) := by
  induction pre with
  | nil => simp [execAll, exec]
  | cons s pre ih => simp only [List.cons_append, execAll, ih]

end Stmt

namespace Eval

/-- The functions of a program by symbol. -/
def table (ss : List Stmt) : Table Function :=
  .ofList ((Stmt.functionsOfAll ss).map fun f => (f.header.symbol, f))

theorem find?_table {ss : List Stmt} (hn : (Stmt.symbolsOfAll ss).Nodup) {f : Function}
    (hf : f ∈ Stmt.functionsOfAll ss) : (table ss).find? f.header.symbol = some f := by
  refine Table.find?_ofList ?_ (List.mem_map.2 ⟨f, hf, rfl⟩)
  rw [List.map_map]
  exact hn

open Stmt in
theorem linked_of_renamed {ss ts us : List Stmt} (h : RenamedAll (Corresponds ss ts) ss ts)
    (hd : diagnosticsOfAll ss = []) (hn : (symbolsOfAll ss).Nodup)
    (hn' : (symbolsOfAll us).Nodup) (hmem : ∀ g ∈ functionsOfAll ts, g ∈ functionsOfAll us) :
    Linked (Corresponds ss ts) (table ss) (table us) := by
  intro a b hab
  obtain ⟨-, hall⟩ := List.forall₂_iff_zip.1 h.functions
  rw [Corresponds, symbolsOfAll, symbolsOfAll, List.zip_map] at hab
  obtain ⟨⟨f, g⟩, hfg, he⟩ := List.mem_map.1 hab
  cases he
  obtain ⟨hf, hg⟩ := List.of_mem_zip hfg
  exact ⟨f, g, find?_table hn hf, find?_table hn' (hmem g hg), hall hfg,
    diagnosticsOfAll_body ss hd f hf⟩

end Eval

namespace Stmt

theorem namedAll_iff {ss : List Stmt} : NamedAll ss ↔ ∀ s ∈ ss, s.Named := by
  induction ss with
  | nil => simp [NamedAll]
  | cons s ss ih => simp [NamedAll, ih]

end Stmt

namespace Neighbours

open Stmt Eval

variable (w : Neighbours)

theorem perm_swap : w.swap.list.Perm w.list := (List.Perm.swap ..).append_left w.pre

theorem named_swap (h : NamedAll w.list) : NamedAll w.swap.list :=
  namedAll_iff.2 fun s hs => namedAll_iff.1 h s (w.perm_swap.mem_iff.1 hs)

variable {w}

theorem renamed_swap_self (hfirst : w.first.isDeclaration = false)
    (hsecond : w.second.isDeclaration = false) (hd : diagnosticsOfAll w.checked.list = []) :
    RenamedAll (Corresponds w.checked.list w.swap.checked.swap.list) w.checked.list
      w.swap.checked.swap.list :=
  w.renamed_swap hfirst hsecond hd (List.forall₂_iff_zip.2 ⟨w.length_symbols_swap, fun h => h⟩)

theorem diagnostics_checked_swap (hfirst : w.first.isDeclaration = false)
    (hsecond : w.second.isDeclaration = false) (hd : diagnosticsOfAll w.checked.list = []) :
    diagnosticsOfAll w.swap.checked.list = [] := by
  have hren := renamed_swap_self hfirst hsecond hd
  rw [← diagnostics_swap, hren.diagnostics_eq, hd]

/-- A definition and the statement behind it act alike in either order. -/
theorem execAll_swap (hdef : w.second.isDefinition = true) (invoke : Invoke) :
    execAll invoke w.swap.list = execAll invoke w.list := by
  obtain ⟨pre, first, second, post⟩ := w
  cases second with
  | define n h body =>
    have hbehind := execAll_define invoke (pre ++ [first]) n h body post
    simp only [List.append_assoc, List.singleton_append] at hbehind
    simp only [swap, list]
    rw [execAll_define, hbehind]
  | _ => cases hdef

theorem isDefinition_check {s : Stmt} (h : s.isDefinition = true) (Γ : Context) (slot : Hoisted) :
    (s.check Γ slot).1.isDefinition = true := by
  cases s with
  | define n hd body => rfl
  | _ => cases h

/-- The symbols of a program without diagnostics are different. -/
theorem nodup_checked (hn : NamedAll w.list) (hd : diagnosticsOfAll w.checked.list = []) :
    (symbolsOfAll w.checked.list).Nodup := by
  rw [← checkBlock_list] at hd ⊢
  exact (checkBlock_fresh hn hd).nodup

/-- The checked program acts alike with a definition before or behind the next statement. -/
theorem parallel_swap (hfirst : w.first.isDefinition = true)
    (hsecond : w.second.isDeclaration = false) (hn : NamedAll w.list)
    (hd : diagnosticsOfAll w.checked.list = []) (depth : Nat) :
    Parallel (table w.checked.list) (table w.swap.checked.list)
      (execAll (invoke depth) w.checked.list) (execAll (invoke depth) w.swap.checked.list) := by
  have hfirst' : w.first.isDeclaration = false := by
    cases hw : w.first <;> simp_all [isDefinition, isDeclaration]
  have hren := renamed_swap_self hfirst' hsecond hd
  have hd' := diagnostics_checked_swap hfirst' hsecond hd
  have hmem : ∀ g ∈ functionsOfAll w.swap.checked.swap.list,
      g ∈ functionsOfAll w.swap.checked.list := by
    intro g hg
    rw [functionsOfAll_eq] at hg ⊢
    exact (w.swap.checked.perm_swap.flatMap_right functions).mem_iff.1 hg
  have hlinked := linked_of_renamed hren hd (nodup_checked hn hd)
    (nodup_checked (w.named_swap hn) hd') hmem
  have hexec := execAll_parallel hlinked (invoke_parallel hlinked depth) w.checked.list hren hd
  rwa [execAll_swap (isDefinition_check hfirst _ _)] at hexec

end Neighbours

namespace Program

open Eval

/-- A program with the statements, once it has been checked. -/
theorem check_neighbours (w : Neighbours) (span : Span) :
    check ⟨.statements w.list, span⟩ = ⟨.statements w.checked.list, span⟩ := by
  simp only [check, Neighbours.checkBlock_list]

theorem run_eq_of_parallel {ss ts : List Stmt} {span span' : Span} {depth : Nat}
    (h : Parallel (table ss) (table ts) (Stmt.execAll (invoke depth) ss)
      (Stmt.execAll (invoke depth) ts)) :
    run depth ⟨.statements ss, span⟩ = run depth ⟨.statements ts, span'⟩ := by
  have haction := h.bind fun _ => .pure ()
  have hends := haction (.initial (Stmt.functionsOfAll ss)) (.initial (Stmt.functionsOfAll ts))
    ⟨rfl, rfl⟩
  simp only [run, action, functions, statements]
  generalize (Stmt.execAll (invoke depth) ss >>= fun _ => pure ()) _ = r,
    (Stmt.execAll (invoke depth) ts >>= fun _ => pure ()) _ = r' at hends ⊢
  cases hends with
  | ok v hst => simp only [Store.printed, hst.eq]
  | error e hst => rfl

/-- It does not matter whether a function is defined before or behind a statement that declares no
variable. Of the two programs one is without diagnostics if the other is, and then both do the same
at every depth of calls: they print the same text or stop for the same reason. Functions are named
by words, as reading names them (`parse_named`). -/
theorem define_swap (pre post : List Stmt) (f s : Stmt) (span : Span)
    (hf : f.isDefinition = true) (hs : s.isDeclaration = false)
    (hn : Stmt.NamedAll (pre ++ [f, s] ++ post)) :
    let p : Program := ⟨.statements (pre ++ [f, s] ++ post), span⟩
    let q : Program := ⟨.statements (pre ++ [s, f] ++ post), span⟩
    (p.check.diagnostics = [] ↔ q.check.diagnostics = []) ∧
      (p.check.diagnostics = [] → ∀ depth, p.check.run depth = q.check.run depth) := by
  intro p q
  let w : Neighbours := ⟨pre, f, s, post⟩
  have hlist : pre ++ [f, s] ++ post = w.list := by simp [w, Neighbours.list]
  have hlist' : pre ++ [s, f] ++ post = w.swap.list := by simp [w, Neighbours.list, Neighbours.swap]
  have hp : p.check = ⟨.statements w.checked.list, span⟩ := by
    rw [← check_neighbours, ← hlist]
  have hq : q.check = ⟨.statements w.swap.checked.list, span⟩ := by
    rw [← check_neighbours, ← hlist']
  have hf' : f.isDeclaration = false := by
    cases f <;> simp_all [Stmt.isDefinition, Stmt.isDeclaration]
  rw [hp, hq]
  refine ⟨⟨fun hd => ?_, fun hd => ?_⟩, fun hd depth => ?_⟩
  · exact Neighbours.diagnostics_checked_swap (w := w) hf' hs hd
  · exact Neighbours.diagnostics_checked_swap (w := w.swap) hs hf' hd
  · exact run_eq_of_parallel (Neighbours.parallel_swap (w := w) hf hs (hlist ▸ hn) hd depth)

/-- Both statements have a function `h` inside. The one that is checked first is `h`, the other one
`h#1`, and a call of `h` means the same function in either order. -/
theorem define_swap_nested :
    let note : Stmt.Note := ⟨.nowhere, []⟩
    let call (f : String) : Stmt := .call note (.call (.fresh .nowhere []) f [] none)
    let h (v : Int64) : Stmt :=
      .define note ⟨"h", "h", [], none⟩ [.print note (.int (.fresh .nowhere []) v)]
    let f : Stmt := .define note ⟨"f", "f", [], none⟩ [h 1, call "h"]
    let s : Stmt := .cond note (.bool (.fresh .nowhere []) true) [h 2, call "h"] none
    let p : Program := ⟨.statements ([] ++ [f, s] ++ [call "f"]), .nowhere⟩
    let q : Program := ⟨.statements ([] ++ [s, f] ++ [call "f"]), .nowhere⟩
    p.check.functions.map (·.header.symbol) = ["f", "h", "h#1"] ∧
      q.check.functions.map (·.header.symbol) = ["h", "f", "h#1"] ∧
      p.check.run 2 = .ok "2\n1" ∧ q.check.diagnostics = [] ∧
      ∀ depth, p.check.run depth = q.check.run depth := by
  intro note call h f s p q
  have hwf : IsWord "f" := ⟨by decide, List.all_eq_true.1 (by decide)⟩
  have hwh : IsWord "h" := ⟨by decide, List.all_eq_true.1 (by decide)⟩
  have hn : Stmt.NamedAll ([] ++ [f, s] ++ [call "f"]) :=
    ⟨⟨fun _ => hwf, ⟨fun _ => hwh, trivial, trivial⟩, trivial, trivial⟩,
      ⟨⟨fun _ => hwh, trivial, trivial⟩, trivial, trivial⟩, trivial, trivial⟩
  have hd : p.check.diagnostics = [] := by decide +kernel
  obtain ⟨hiff, hrun⟩ := define_swap [] [call "f"] f s .nowhere rfl rfl hn
  exact ⟨by decide +kernel, by decide +kernel, by decide +kernel, hiff.1 hd, hrun hd⟩

end Program

end CatScript
