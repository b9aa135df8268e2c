import CatScript.Proofs.Typing.Symbols

/-!
# Programs without diagnostics

A source that checking finds nothing wrong with is well typed (`Program.check_typed`). The
globals of the program are read off the global scope in which checking ends, and its functions
are found by their symbols because these are all different.
-/
namespace CatScript

open Typing Context

namespace Program

theorem check_symbols {p : Program} (hn : Stmt.NamedAll p.statements)
    (hd : p.check.diagnostics = []) :
    (Code.mainName :: p.check.functions.map (·.header.symbol)).Nodup := by
  obtain ⟨body, span⟩ := p
  cases body with
  | expression e => simp [check, functions, statements, Stmt.functionsOfAll]
  | statements ss =>
    have hf := Stmt.checkBlock_fresh (Γ := .empty) hn hd
    refine List.nodup_cons.2 ⟨fun hm => ?_, hf.nodup⟩
    obtain ⟨name, n, hw, he, -, -⟩ := hf.numbered _ hm
    exact symbolText_ne_main hw n he.symm

/-- A function of a program is found by its symbol. -/
theorem find?_signatures {p : Program} (hn : (p.functions.map (·.header.symbol)).Nodup)
    {f : Function} (hf : f ∈ p.functions) :
    p.signatures.find? f.header.symbol = some f.header.signature := by
  refine Table.find?_ofList (b := (f.header.symbol, f.header.signature)) ?_
    (List.mem_map.2 ⟨f, hf, rfl⟩)
  rw [List.map_map]
  exact hn

theorem empty_reads (R : Rules) : Reads R .empty := by
  refine ⟨⟨fun b hb => by simp [empty] at hb, ?_⟩, ?_⟩
  · intro scope hs x t hx
    cases hs
    cases hx
  · intro scope hs f s hx
    rw [List.mem_singleton.1 (hs : scope ∈ [([] : Table Entity)])] at hx
    cases hx

/-- The globals of a program are the variables of the scope in which checking ends. -/
private theorem within_of_last {Γ : Context} (hb : Γ.base = none) :
    Γ.Within (((Γ.vars []).getLast?).getD []) := by
  refine ⟨fun b h => by simp [hb] at h, fun scope hs x t hx => ?_⟩
  have hv : Γ.vars [] = Γ.scopes.map Typing.vars := by
    unfold Context.vars
    rw [hb]
  rw [hv, List.getLast?_map, hs]
  exact find?_vars hx

private theorem vars_of_base_none {Γ : Context} (hb : Γ.base = none) (G G' : Table Ty) :
    Γ.vars G = Γ.vars G' := by
  simp only [Context.vars, hb]

/-- The occurrences in a program with the types of the variables in sight. -/
def sights (fits : Ty → Ty → Prop) (p : Program) : List (Occurrence × Option Ty) :=
  match p.body with
  | .expression e => e.sights [[]]
  | .statements ss => Stmt.sightsOfAll ⟨p.signatures, p.globals, fits⟩ [[]] ss

/-- A program without diagnostics is well typed, as far as what it stores fits, and has the
variables in sight that checking found. -/
theorem check_typed {p : Program} {fits : Ty → Ty → Prop} (hn : Stmt.NamedAll p.statements)
    (hd : p.check.diagnostics = [])
    (hs : ∀ store ∈ p.stores, store.1.accepts store.2 = true → fits store.1 store.2) :
    p.check.Typed fits ∧ p.check.sights fits = p.probe.found := by
  have hsym := check_symbols hn hd
  have hfind : ∀ f ∈ p.check.functions,
      p.check.signatures.find? f.header.symbol = some f.header.signature :=
    fun f hf => find?_signatures (List.nodup_cons.1 hsym).2 hf
  obtain ⟨body, span⟩ := p
  cases body with
  | expression e =>
    let R : Rules := ⟨[], [], fits⟩
    refine ⟨⟨Expr.check_typed (R := R) (empty_reads R) e hd hs,
      by simp [check, functions, statements, Stmt.functionsOfAll], hsym⟩,
      ?_⟩
    simp only [probe, Probed.found_bind, Probed.found_pure, List.append_nil]
    exact Expr.check_sights (empty_reads R) e hd
  | statements ss =>
    let p' : Program := (⟨.statements ss, span⟩ : Program).check
    let Δ := (Stmt.checkBlock .empty ss).2
    let G := ((Δ.vars []).getLast?).getD []
    let R : Rules := ⟨p'.signatures, G, fits⟩
    have hr : Reads R .empty := empty_reads R
    have hg := hoist_grows .empty ss
    have hgΔ : Grows .empty Δ := Stmt.checkBlock_grows .empty ss
    have hw : Δ.Within G := within_of_last hgΔ.base
    have hwh : (hoist .empty ss).2.Within G := (Stmt.checkAll_grows _ _ ss).within hw
    have hsound := Stmt.checkAll_sound (R := R) ss
      ⟨hr.hoist hwh hfind, hw, hd, hs, hfind⟩
    have hv : (hoist .empty ss).2.vars G = [[]] := vars_hoist hwh
    have hres : (hoist .empty ss).2.result = .void := result_of_eq hg.results
    obtain ⟨ht, hΔ, hf, hl⟩ := hsound
    rw [hv] at hl
    rw [hv, hres] at ht
    -- the scopes behind the statements do not depend on what the globals are taken to be
    have hG : p'.globals = G := by
      show ((Stmt.extendAll [[]] (Stmt.checkBlock .empty ss).1).getLast?).getD [] = G
      have hΔ' : Stmt.extendAll [[]] (Stmt.checkBlock .empty ss).1 = Δ.vars G := hv ▸ hΔ.symm
      rw [hΔ', vars_of_base_none hgΔ.base G []]
    refine ⟨⟨?_, ?_, hsym⟩, ?_⟩
    · show Stmt.TypedAll ⟨p'.signatures, p'.globals, fits⟩ .void [[]] (Stmt.checkBlock .empty ss).1
      rw [hG]
      exact ht
    · show ∀ f ∈ p'.functions, f.Typed ⟨p'.signatures, p'.globals, fits⟩
      rw [hG]
      exact hf
    · show Stmt.sightsOfAll ⟨p'.signatures, p'.globals, fits⟩ [[]] (Stmt.checkBlock .empty ss).1 = _
      rw [hG]
      simp only [probe, Probed.found_bind, Probed.found_pure, List.append_nil]
      exact hl

theorem parse_typed {source file : String} (hd : (parse source file).check.diagnostics = []) :
    (parse source file).check.Typed fun t s => t.accepts s = true :=
  (check_typed (parse_named source file) hd fun _ _ h => h).1

theorem parse_sights {source file : String} (hd : (parse source file).check.diagnostics = []) :
    (parse source file).check.sights (fun t s => t.accepts s = true) =
      (parse source file).probe.found :=
  (check_typed (parse_named source file) hd fun _ _ h => h).2

theorem parse_widening {source file : String} (hd : (parse source file).check.diagnostics = [])
    (hw : (parse source file).Widening) : (parse source file).check.Typed fun t s => s.Widens t :=
  (check_typed (parse_named source file) hd fun store h _ => hw store h).1

end Program

end CatScript
