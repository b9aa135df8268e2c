import CatScript.Proofs.Code.WellFormed

/-!
# The methods of a lowered program

Lowering a well-typed program gives one method for the main program and one for each function,
in that order and under different names (`Program.lower_eq`).
-/
namespace CatScript

open Typing Code

namespace Code

/-! ## The layout of a function -/

/-- The parameters of a function in slots from `n` on. -/
def paramScope (n : Nat) : List Param → Table Variable
  | [] => []
  | p :: ps => (p.name, ⟨.slot n, p.ty⟩) :: paramScope (n + 1) ps

theorem mapValues_paramScope (n : Nat) (ps : List Param) :
    (paramScope n ps).mapValues Variable.ty = ps.map fun p => (p.name, p.ty) := by
  induction ps generalizing n with
  | nil => rfl
  | cons p ps ih => simpa [paramScope, Table.mapValues] using ih (n + 1)

theorem slotsIn_paramScope (n : Nat) (ps : List Param) :
    slotsIn (paramScope n ps) = List.range' n ps.length := by
  induction ps generalizing n with
  | nil => rfl
  | cons p ps ih =>
    rw [List.length_cons, List.range'_succ, ← ih (n + 1)]
    rfl

theorem storage_paramScope {n : Nat} {ps : List Param} {b : String × Variable}
    (h : b ∈ paramScope n ps) : ∃ k, b.2.storage = .slot k := by
  induction ps generalizing n with
  | nil => cases h
  | cons p ps ih =>
    rcases List.mem_cons.1 h with rfl | h
    · exact ⟨n, rfl⟩
    · exact ih h

namespace Layout

private theorem foldl_declare (functions : Table Signature) (globals : Table Variable) (result : Ty)
    {ps : List Param} {scope : Table Variable} (n : Nat) (hn : (ps.map (·.name)).Nodup)
    (hs : ∀ p ∈ ps, scope.find? p.name = none) :
    ps.foldl (fun L p => (L.declare p.name p.ty).2)
        (⟨functions, [scope, globals], true, n, result⟩ : Layout) =
      ⟨functions, [scope ++ paramScope n ps, globals], true, n + ps.length, result⟩ := by
  induction ps generalizing scope n with
  | nil => simp [paramScope]
  | cons p ps ih =>
    simp only [List.map_cons, List.nodup_cons, List.mem_map, not_exists, not_and] at hn
    simp only [List.mem_cons, forall_eq_or_imp] at hs
    rw [List.foldl_cons, declare_slot rfl (by simp)]
    rw [ih (n + 1) hn.2, Table.insert_of_find?_none hs.1]
    · simp [paramScope, Nat.add_comm, Nat.add_left_comm]
    · intro q hq
      rw [Table.find?_insert_of_ne _ (hn.1 q hq), hs.2 q hq]

theorem function_eq (functions : Table Signature) (globals : Table Variable) {h : Header}
    (hn : (h.params.map (·.name)).Nodup) :
    function functions globals h =
      ⟨functions, [paramScope 0 h.params, globals], true, h.params.length, h.resultTy⟩ := by
  unfold function
  rw [foldl_declare functions globals h.resultTy 0 hn (by simp)]
  simp

theorem function_sees {R : Rules} {globals : Table Variable} {h : Header}
    (hg : globals.mapValues Variable.ty = R.globals) (hn : (h.params.map (·.name)).Nodup) :
    (function R.functions globals h).Sees R h.resultTy [h.scope, R.globals] := by
  rw [function_eq _ _ hn]
  refine ⟨rfl, rfl, ?_⟩
  have hs : h.scope = h.params.map fun p => (p.name, p.ty) :=
    Table.ofList_of_nodup (by rw [List.map_map]; exact hn)
  simp only [Layout.types, List.map_cons, List.map_nil, mapValues_paramScope, hg, hs]

/-- A table of globals, each stored under its own name. -/
def Globals (globals : Table Variable) : Prop := ∀ b ∈ globals, b.2.storage = .global b.1

theorem slotsIn_globals {globals : Table Variable} (h : Globals globals) : slotsIn globals = [] := by
  refine List.filterMap_eq_nil_iff.2 fun b hb => ?_
  simp only [Variable.slot?, h b hb]

theorem function_placed (functions : Table Signature) {globals : Table Variable}
    (hg : Globals globals) {h : Header} (hn : (h.params.map (·.name)).Nodup) :
    (function functions globals h).Placed := by
  rw [function_eq _ _ hn]
  have hs : slots ⟨functions, [paramScope 0 h.params, globals], true, h.params.length, h.resultTy⟩ =
      List.range' 0 h.params.length := by
    simp [slots, slotsIn_paramScope, slotsIn_globals hg]
  refine ⟨by simp, by simp, ?_, ?_, ?_, ?_⟩
  · intro scope hm b hb
    simp only [List.dropLast_cons_cons, List.dropLast_singleton, List.mem_singleton] at hm
    subst hm
    exact storage_paramScope hb
  · intro scope hm
    cases hm
    exact hg
  · rw [hs]
    intro n hm
    have := List.mem_range'_1.1 hm
    show n < h.params.length
    omega
  · rw [hs]
    exact List.nodup_range'

theorem main_sees (R : Rules) : (main R.functions).Sees R .void [[]] := ⟨rfl, rfl, rfl⟩

theorem main_placed (functions : Table Signature) : (main functions).Placed :=
  ⟨by simp [main], by simp [main], by simp [main], by simp [main],
    by simp [main, slots, slotsIn], by simp [main, slots, slotsIn]⟩

/-- The globals of the main method are global variables with the types of the program. -/
theorem Behind.globals {L K : Layout} {R : Rules} {result : Ty} {S : Scopes}
    (h : Behind L K R result S) : Globals (K.scopes.getLast?.getD []) ∧
      (K.scopes.getLast?.getD []).mapValues Variable.ty = S.getLast?.getD [] := by
  have hs := List.getLast?_eq_some_getLast h.placed.ne_nil
  refine ⟨?_, ?_⟩
  · rw [hs]
    exact h.placed.outer _ hs
  · rw [← h.sees.types, Layout.types, List.getLast?_map, hs]
    rfl

end Layout

end Code

/-! ## Functions -/

namespace Function

variable {R : Rules} {globals : Table Variable} {f : Function}

/-- The method of a function, given that it can be lowered. -/
def method (functions : Table Signature) (globals : Table Variable) (f : Function) : Method :=
  match f.lower functions globals with
  | .ok m => m
  | .error _ => ⟨f.header.symbol, 0, 0, []⟩

/-- A well-typed function can be lowered. -/
theorem lower_total (hf : f.Typed R) (hg : Layout.Globals globals)
    (ht : globals.mapValues Variable.ty = R.globals) : ∃ code K,
    Stmt.lowerAll (.function R.functions globals f.header) 0 f.body = .ok (code, K) ∧
      f.lower R.functions globals = .ok (f.method R.functions globals) ∧
      f.method R.functions globals =
        ⟨f.header.symbol, f.header.params.length, K.nextSlot, code ++ [.ret]⟩ := by
  obtain ⟨code, K, hc, -⟩ := Stmt.lowerAll_total f.body hf.body
    (Layout.function_sees ht hf.params) (Layout.function_placed R.functions hg hf.params) 0
  have hl : f.lower R.functions globals =
      .ok ⟨f.header.symbol, f.header.params.length, K.nextSlot, code ++ [.ret]⟩ := by
    simp only [lower, hc]
    rfl
  exact ⟨code, K, hc, by simp only [method, hl], by simp only [method, hl]⟩

theorem name_method (functions : Table Signature) (globals : Table Variable) (f : Function) :
    (f.method functions globals).name = f.header.symbol := by
  unfold method
  split
  · next m h =>
    simp only [lower, bind_eq_ok] at h
    obtain ⟨⟨code, K⟩, -, hc⟩ := h
    cases hc
    rfl
  · rfl

theorem lowerAll_eq (hg : Layout.Globals globals)
    (ht : globals.mapValues Variable.ty = R.globals) {fs : List Function} {code : Code}
    (hf : ∀ f ∈ fs, f.Typed R) (hn : (fs.map (·.header.symbol)).Nodup)
    (hc : ∀ f ∈ fs, code.methods.find? f.header.symbol = none) :
    lowerAll R.functions globals code fs = .ok
      ⟨code.methods ++ fs.map (fun f => (f.header.symbol, f.method R.functions globals)),
        code.order ++ fs.map (·.header.symbol)⟩ := by
  induction fs generalizing code with
  | nil => simp [lowerAll]
  | cons f fs ih =>
    simp only [List.mem_cons, forall_eq_or_imp] at hf hc
    simp only [List.map_cons, List.nodup_cons, List.mem_map, not_exists, not_and] at hn
    simp only [lowerAll, bind_eq_ok]
    obtain ⟨_, _, -, hl, -⟩ := lower_total hf.1 hg ht
    refine ⟨_, hl, ?_⟩
    have hname := name_method R.functions globals f
    rw [ih hf.2 hn.2]
    · simp only [Code.add, hname, Table.insert_of_find?_none hc.1, List.append_assoc,
        List.singleton_append, List.map_cons]
    · intro g hgm
      simp only [Code.add, hname]
      rw [Table.find?_insert_of_ne _ (hn.1 g hgm), hc.2 g hgm]

end Function

/-! ## Programs -/

namespace Program

/-- The rules of a program. -/
def rules (fits : Ty → Ty → Prop) (p : Program) : Rules := ⟨p.signatures, p.globals, fits⟩

/-- The code of a program, from the code of its main method and the layout behind it. -/
def codeOf (p : Program) (main : List Instruction) (K : Layout) : Code :=
  ⟨(mainName, ⟨mainName, 0, K.nextSlot, main ++ [.ret]⟩) :: p.functions.map fun f =>
      (f.header.symbol, f.method p.signatures (K.scopes.getLast?.getD [])),
    mainName :: p.functions.map (·.header.symbol)⟩

variable {fits : Ty → Ty → Prop} {p : Program}

theorem lowerMain_total (ht : p.Typed fits) : ∃ main K, p.lowerMain = .ok (main, K) ∧
    Sits p.signatures K.nextSlot main.length main ∧ Layout.Globals (K.scopes.getLast?.getD []) ∧
      (K.scopes.getLast?.getD []).mapValues Variable.ty = p.globals := by
  have hL := Layout.main_sees (p.rules fits)
  have hp := Layout.main_placed p.signatures
  obtain ⟨body, span⟩ := p
  cases body with
  | expression e =>
    obtain ⟨code, hc⟩ := Expr.lower_total hL e ht.body 0
    have hs := Expr.lower_sits hL hp e ht.body hc
    refine ⟨code ++ boxing e.ty ++ [.print], _, by
      simp only [lowerMain, bind_eq_ok]
      exact ⟨code, hc, rfl⟩, ?_,
      (Layout.Behind.rfl hL hp).globals⟩
    refine sits_append.2 ⟨sits_append.2 ⟨?_, boxing_sits _⟩, sits_cons.2 ⟨trivial, sits_nil⟩⟩
    exact hs.mono (Nat.le_refl _) (by simp only [List.length_append]; omega)
  | statements ss =>
    obtain ⟨code, K, hc, hK⟩ := Stmt.lowerAll_total ss ht.body hL hp 0
    have hs := Stmt.lowerAll_sits ss ht.body hL hp hc
    rw [Nat.zero_add] at hs
    exact ⟨code, K, hc, hs, hK.globals⟩

/-- A well-typed program can be lowered, to its main method and the methods of its functions. -/
theorem lower_eq (ht : p.Typed fits) (hd : p.diagnostics = []) {main : List Instruction}
    {K : Layout} (hm : p.lowerMain = .ok (main, K)) : p.lower = .ok (p.codeOf main K) := by
  obtain ⟨main', K', hm', -, hg, hty⟩ := lowerMain_total ht
  rw [hm] at hm'
  cases hm'
  have hs := List.nodup_cons.1 ht.symbols
  have hfresh : ∀ f ∈ p.functions, Table.find?
      (Code.empty.add ⟨mainName, 0, K.nextSlot, main ++ [.ret]⟩).methods f.header.symbol = none := by
    intro f hf
    have hne : mainName ≠ f.header.symbol := fun he => hs.1 (he ▸ List.mem_map.2 ⟨f, hf, rfl⟩)
    simp [Code.add, Code.empty, Table.insert, Table.find?, hne]
  have hl := Function.lowerAll_eq (R := p.rules fits) hg hty ht.functions hs.2 hfresh
  simp only [lower, hd, List.length_nil, hm]
  exact hl

theorem method_eq (ht : p.Typed fits) {globals : Table Variable} (hg : Layout.Globals globals)
    (hty : globals.mapValues Variable.ty = p.globals) {f : Function} (hf : f ∈ p.functions) :
    ∃ code K, Stmt.lowerAll (.function p.signatures globals f.header) 0 f.body = .ok (code, K) ∧
      f.method p.signatures globals =
        ⟨f.header.symbol, f.header.params.length, K.nextSlot, code ++ [.ret]⟩ := by
  obtain ⟨code, K, hc, -, hm⟩ :=
    Function.lower_total (R := p.rules fits) (ht.functions f hf) hg hty
  exact ⟨code, K, hc, hm⟩

theorem keys_codeOf (p : Program) (main : List Instruction) (K : Layout) :
    (p.codeOf main K).methods.map (·.1) = (p.codeOf main K).order := by
  simp only [codeOf, List.map_cons, List.map_map]
  rfl

/-- The method of a function is found under its symbol. -/
theorem find?_codeOf (ht : p.Typed fits) (main : List Instruction) (K : Layout) {f : Function}
    (hf : f ∈ p.functions) : (p.codeOf main K).methods.find? f.header.symbol =
      some (f.method p.signatures (K.scopes.getLast?.getD [])) := by
  have hn : ((p.codeOf main K).methods.map (·.1)).Nodup := p.keys_codeOf main K ▸ ht.symbols
  exact Table.find?_of_mem hn (List.mem_cons_of_mem _ (List.mem_map.2 ⟨f, hf, rfl⟩))

theorem find?_codeOf_main (p : Program) (main : List Instruction) (K : Layout) :
    (p.codeOf main K).methods.find? mainName =
      some ⟨mainName, 0, K.nextSlot, main ++ [.ret]⟩ := by
  simp [codeOf, Table.find?]

end Program

end CatScript
