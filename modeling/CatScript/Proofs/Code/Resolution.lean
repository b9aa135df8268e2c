import CatScript.Proofs.Code.Methods
import CatScript.Proofs.Code.Tracked
import CatScript.Proofs.Code.Writing
import CatScript.Proofs.Typing.Checked
import CatScript.Proofs.Typing.Occurrences

/-!
# Name resolution

Lowering has scopes of its own, in which it finds a variable for every occurrence. In a well-typed
program what it finds has the type of the variable that is in sight there (`Program.found_track`),
and that is the type which checking found. The bodies of functions are lowered behind the main
method, so the two do not come to the occurrences in one order; but they come to the same ones, and
to each of them once.

With that, a program without diagnostics is lowered to well-formed code, and every occurrence is
resolved alike (`Program.lower_wellFormed`).
-/
namespace CatScript

open Typing Code

namespace Expr

open Tracked

mutual

theorem found_track {R : Rules} {result : Ty} {S : Scopes} {L : Layout} (hL : L.Sees R result S) :
    (e : Expr) → e.Typed R S → ∀ start, (e.track L start).found = e.sights S
  | int _ _, _, _ | str _ _, _, _ | bool _ _, _, _ | null _, _, _ => rfl
  | var n x, ht, start => by
    obtain ⟨t, -, hx⟩ := ht
    obtain ⟨v, hv, rfl⟩ := hL.find hx
    rw [track, found_bind hv, Layout.found_seek hv, sights, hx]
    rfl
  | unary _ op e, ht, start => by
    rw [track, found_bind_of_nil (by cases op <;> exact fun _ => rfl), found_track hL e ht.2.2,
      sights]
  | binary n op l r, ht, start => by
    obtain ⟨left, hl⟩ := lower_total hL l ht.2.1 start
    rw [track, found_bind ((track_erases L l start).trans hl), found_bind_of_nil fun _ => rfl,
      found_track hL l ht.2.1, found_track hL r ht.2.2, sights]
  | paren _ e, ht, start => found_track hL e ht.2 start
  | list _ es, ht, start => by
    rw [track, found_bind_of_nil fun _ => rfl, found_trackItems hL es ht.2, sights]
  | call _ f es symbol, ht, start => by
    obtain ⟨s, rfl, hs, -, ha⟩ := ht
    have hf : L.findFunction ((some s.symbol).getD f) = .ok s :=
      Layout.findFunction_eq_ok.2 (hL.functions ▸ hs)
    rw [track, found_bind hf, found_bind_of_nil fun _ => rfl, found_of, List.nil_append,
      found_trackArgs hL s.params es ha, sights]

theorem found_trackItems {R : Rules} {result : Ty} {S : Scopes} {L : Layout}
    (hL : L.Sees R result S) : (es : List Expr) → TypedAll R S es → ∀ start,
    (trackItems L start es).found = sightsOfAll S es
  | [], _, _ => rfl
  | e :: es, ht, start => by
    obtain ⟨code, hc⟩ := lower_total hL e ht.1 start
    rw [trackItems, found_bind ((track_erases L e start).trans hc),
      found_bind_of_nil fun _ => rfl, found_track hL e ht.1, found_trackItems hL es ht.2,
      sightsOfAll]

theorem found_trackArgs {R : Rules} {result : Ty} {S : Scopes} {L : Layout}
    (hL : L.Sees R result S) : (ps : List (String × Ty)) → (es : List Expr) → TypedArgs R S ps es →
    ∀ start, (trackArgs L start ps es).found = sightsOfAll S es
  | [], [], _, _ => rfl
  | p :: ps, e :: es, ht, start => by
    obtain ⟨code, hc⟩ := lower_total hL e ht.1 start
    rw [trackArgs, found_bind ((track_erases L e start).trans hc),
      found_bind_of_nil fun _ => rfl, found_track hL e ht.1, found_trackArgs hL ps es ht.2.2,
      sightsOfAll]
  | [], _ :: _, ht, _ | _ :: _, [], ht, _ => ht.elim

end

end Expr

/-! ## Statements -/

/-- What the methods of functions find, one behind the other. -/
def Code.foundOfAll (functions : Table Signature) (globals : Table Variable)
    (fs : List Function) : List (Occurrence × Option Ty) :=
  fs.flatMap fun f => (f.track functions globals).found

/-- Two parts, of which each puts something off until behind both. -/
theorem perm_put_off {α : Type} {as bs cs ds us vs : List α} (h : (as ++ cs).Perm us)
    (h' : (bs ++ ds).Perm vs) : (as ++ bs ++ (cs ++ ds)).Perm (us ++ vs) := by
  have hswap : (as ++ bs ++ (cs ++ ds)).Perm (as ++ cs ++ (bs ++ ds)) := by
    simp only [List.append_assoc]
    exact (List.perm_append_comm_assoc bs cs ds).append_left as
  exact hswap.trans (h.append h')

namespace Stmt

open Layout
open Tracked (found_bind found_bind_of_nil)

mutual

/-- Lowering finds at the occurrences in a statement what is in sight there, the functions in it
included. -/
theorem found_track {R : Rules} {globals : Table Variable} (hg : Globals globals)
    (hty : globals.mapValues Variable.ty = R.globals) : (s : Stmt) → ∀ {result : Ty} {S : Scopes}
    {L : Layout}, s.Typed R result S → (∀ f ∈ s.functions, f.Typed R) → L.Sees R result S →
    L.Placed → ∀ start,
    ((s.track L start).found ++ foundOfAll R.functions globals s.functions).Perm (s.sights R S)
  | print _ e, _, S, L, ht, _, hL, _, start | call _ e, _, S, L, ht, _, hL, _, start => by
    rw [track, found_bind_of_nil fun _ => rfl, e.found_track hL ht]
    exact .of_eq (List.append_nil _)
  | declare _ x t e, _, S, L, ht, _, hL, _, start => by
    rw [track, found_bind_of_nil fun _ => rfl, e.found_track hL ht.1]
    exact .of_eq (List.append_nil _)
  | ret _ (some e), _, S, L, ht, _, hL, _, start => by
    rw [track, found_bind_of_nil fun _ => rfl, e.found_track hL ht.2.1]
    exact .of_eq (List.append_nil _)
  -- the target is found in front of the value
  | assign n x e, _, S, L, ht, _, hL, _, start => by
    obtain ⟨he, t, hx, -⟩ := ht
    obtain ⟨v, hv, rfl⟩ := hL.find hx
    rw [track, found_bind hv, found_bind_of_nil fun _ => rfl, e.found_track hL he, found_seek hv,
      sights, hx]
    exact (List.Perm.of_eq (List.append_nil _)).trans (List.perm_append_singleton ..).symm
  | forEach _ x e body, result, S, L, ht, hf, hL, hp, start => by
    obtain ⟨he, t, htt, hbody⟩ := ht
    obtain ⟨source, hsource⟩ := Expr.lower_total hL e he start
    rw [track, found_bind ((e.track_erases L start).trans hsource), found_bind_of_nil fun _ => rfl,
      e.found_track hL he, htt, sights, htt, List.append_assoc]
    exact (found_trackAll hg hty body hbody hf (hL.loop hp x t) (hp.loop x t) _).append_left _
  | cond _ e yes none, result, S, L, ht, hf, hL, hp, start => by
    obtain ⟨he, -, hyes⟩ := ht
    obtain ⟨test, htest⟩ := Expr.lower_total hL e he start
    rw [track, found_bind ((e.track_erases L start).trans htest), found_bind_of_nil fun _ => rfl,
      e.found_track hL he, sights, List.append_assoc]
    exact (found_trackAll hg hty yes hyes hf hL.push hp.push _).append_left _
  | cond _ e yes (some no), result, S, L, ht, hf, hL, hp, start => by
    obtain ⟨he, -, hyes, hno⟩ := ht
    simp only [functions, List.mem_append] at hf
    obtain ⟨test, htest⟩ := Expr.lower_total hL e he start
    let yesAt := start + test.length + 1
    obtain ⟨inner, K, hinner, hK⟩ := lowerAll_total yes hyes hL.push hp.push yesAt
    obtain ⟨h1, h2, -⟩ := hK.grows.leave hL hp
    rw [track, found_bind ((e.track_erases L start).trans htest),
      found_bind ((trackAll_erases yes L.push yesAt).trans hinner), found_bind_of_nil fun _ => rfl,
      e.found_track hL he, sights, List.append_assoc, functions, foundOfAll, List.flatMap_append]
    refine (perm_put_off ?_ ?_).append_left _
    · exact found_trackAll hg hty yes hyes (fun f h => hf f (.inl h)) hL.push hp.push yesAt
    · exact found_trackAll hg hty no hno (fun f h => hf f (.inr h)) h1.push h2.push _
  | define _ h body, result, S, L, ht, hf, hL, hp, start => by
    simp only [functions, List.forall_mem_cons] at hf
    obtain ⟨hfun, hbody⟩ := hf
    have hrest := found_trackAll hg hty body hfun.body hbody (function_sees hty hfun.params)
      (function_placed R.functions hg hfun.params) 0
    rw [functions, foundOfAll, List.flatMap_cons, Function.track, found_bind_of_nil fun _ => rfl]
    exact hrest
  | ret _ none, _, _, _, _, _, _, _, _ | invalid _ _, _, _, _, _, _, _, _, _ => .refl _

theorem found_trackAll {R : Rules} {globals : Table Variable} (hg : Globals globals)
    (hty : globals.mapValues Variable.ty = R.globals) : (ss : List Stmt) → ∀ {result : Ty}
    {S : Scopes} {L : Layout}, TypedAll R result S ss → (∀ f ∈ functionsOfAll ss, f.Typed R) →
    L.Sees R result S → L.Placed → ∀ start,
    ((trackAll L start ss).found ++ foundOfAll R.functions globals (functionsOfAll ss)).Perm
      (sightsOfAll R S ss)
  | [], _, _, _, _, _, _, _, _ => .refl _
  | s :: ss, result, S, L, ht, hf, hL, hp, start => by
    simp only [functionsOfAll, List.mem_append] at hf
    obtain ⟨code, K, hc, hK⟩ := lower_total s ht.1 hL hp start
    rw [trackAll, found_bind ((track_erases s L start).trans hc), found_bind_of_nil fun _ => rfl,
      functionsOfAll, foundOfAll, List.flatMap_append, sightsOfAll]
    refine perm_put_off ?_ ?_
    · exact found_track hg hty s ht.1 (fun f h => hf f (.inl h)) hL hp start
    · exact found_trackAll hg hty ss ht.2 (fun f h => hf f (.inr h)) hK.sees hK.placed _

end

end Stmt

/-! ## Programs -/

namespace Function

theorem found_trackAll {R : Rules} {globals : Table Variable} (hg : Layout.Globals globals)
    (hty : globals.mapValues Variable.ty = R.globals) {fs : List Function}
    (hf : ∀ f ∈ fs, f.Typed R) (code : Code) :
    (trackAll R.functions globals code fs).found = foundOfAll R.functions globals fs := by
  induction fs generalizing code with
  | nil => rfl
  | cons f fs ih =>
    rw [List.forall_mem_cons] at hf
    obtain ⟨_, _, -, hl, -⟩ := lower_total hf.1 hg hty
    rw [trackAll, Tracked.found_bind ((f.track_erases R.functions globals).trans hl), ih hf.2]
    rfl

end Function

/-- Code whose methods are `<main>` and those of the given symbols, and in which every jump,
every local and every call leads to something that is there. -/
structure Code.WellFormed (symbols : List String) (code : Code) : Prop where
  order : code.order = mainName :: symbols
  distinct : code.order.Nodup
  methods : code.methods.map (·.1) = code.order
  jumps : ∀ m ∈ code.methods, ∀ j target, .jump j target ∈ m.2.code → target < m.2.code.length
  slots : ∀ m ∈ code.methods, ∀ n, .loadLocal n ∈ m.2.code ∨ .storeLocal n ∈ m.2.code →
    n < m.2.locals
  calls : ∀ m ∈ code.methods, ∀ f arity, .invoke f arity ∈ m.2.code →
    ∃ callee, code.methods.find? f = some callee ∧ callee.params = arity
  last : ∀ m ∈ code.methods, m.2.code.getLast? = some .ret

namespace Program

variable {fits : Ty → Ty → Prop} {p : Program}

/-- Lowering finds at every occurrence a variable of the type that is in sight there. -/
theorem found_track (ht : p.Typed fits) (hd : p.diagnostics = []) :
    p.track.found.Perm (p.sights fits) := by
  obtain ⟨main, K, hm, -, hg, hty⟩ := lowerMain_total ht
  have hL : (Layout.main p.signatures).Sees (p.rules fits) .void [[]] :=
    Layout.main_sees (p.rules fits)
  have hp := Layout.main_placed p.signatures
  have hfound : p.track.found =
      p.trackMain.found ++ foundOfAll p.signatures (K.scopes.getLast?.getD []) p.functions := by
    simp only [track, hd, List.length_nil]
    rw [Tracked.found_bind (p.trackMain_erases.trans hm)]
    exact congrArg _ (Function.found_trackAll (R := p.rules fits) hg hty ht.functions _)
  rw [hfound]
  obtain ⟨body, span⟩ := p
  cases body with
  | expression e =>
    simp only [trackMain]
    rw [Tracked.found_bind_of_nil fun _ => rfl, e.found_track hL ht.body]
    exact .of_eq (List.append_nil _)
  | statements ss =>
    exact Stmt.found_trackAll (R := rules fits ⟨.statements ss, span⟩) hg hty ss ht.body
      ht.functions hL hp 0

/-- Lowering the checked program and checking the program, both with what they look up, come to
the same occurrences and find the same types there. The occurrences are those of the program, each
of them once. -/
structure ResolvesAlike (p : Program) : Prop where
  lowered : p.check.track.result = p.check.lower
  checked : p.probe.value = p.check
  found : p.check.track.found.Perm p.probe.found
  occurrences : (p.probe.found.map Prod.fst).Perm p.occurrences
  ordered : p.occurrences.Pairwise fun o o' => o.span.start < o'.span.start

theorem parse_resolvesAlike {source file : String}
    (hd : (parse source file).check.diagnostics = []) : (parse source file).ResolvesAlike where
  lowered := track_erases _
  checked := value_probe _
  found := parse_sights hd ▸ found_track (parse_typed hd) hd
  occurrences := probe_occurrences _
  ordered := parse_occurrences source file

/-- The property of a fragment of code, for the whole method that it fills. -/
private theorem wellFormed_of_sits {functions : Table Signature} {locals : Nat}
    {code : List Instruction} (h : Sits functions locals code.length code) :
    (∀ j target, .jump j target ∈ code ++ [Instruction.ret] →
      target < (code ++ [Instruction.ret]).length) ∧
    (∀ n, .loadLocal n ∈ code ++ [Instruction.ret] ∨ .storeLocal n ∈ code ++ [Instruction.ret] →
      n < locals) ∧
    (∀ f arity, .invoke f arity ∈ code ++ [Instruction.ret] →
      ∃ s, functions.find? f = some s ∧ s.params.length = arity) := by
  simp only [List.mem_append, List.mem_singleton, reduceCtorEq, or_false, List.length_append,
    List.length_singleton]
  refine ⟨fun j target hm => ?_, fun n hm => ?_, fun f arity hm => h _ hm⟩
  · exact Nat.lt_succ_of_le (h _ hm)
  · rcases hm with hm | hm <;> exact h _ hm

/-- A program without diagnostics is lowered, also when labels are placed on the way, to well-formed
code, and lowering finds at every occurrence a variable of the type that checking found there. -/
theorem lower_wellFormed {source file : String}
    (hd : (parse source file).check.diagnostics = []) :
    ∃ code, (parse source file).check.lower = .ok code ∧
      (parse source file).check.write = .ok code ∧
      code.WellFormed ((parse source file).check.functions.map (·.header.symbol)) ∧
      (parse source file).ResolvesAlike := by
  have ht := parse_typed hd
  have hr := parse_resolvesAlike hd
  generalize hp : (parse source file).check = p at hd ht
  obtain ⟨main, K, hm, hs, hg, hty⟩ := lowerMain_total ht
  have hl := lower_eq ht hd hm
  refine ⟨p.codeOf main K, hl, p.write_eq.trans hl, ?_, hr⟩
  -- every method is the code of a part that sits well, with a return behind it
  have hmethod : ∀ m ∈ (p.codeOf main K).methods, ∃ code, m.2.code = code ++ [.ret] ∧
      Sits p.signatures m.2.locals code.length code := by
    intro m hmem
    rcases List.mem_cons.1 hmem with rfl | hmem
    · exact ⟨main, rfl, hs⟩
    · obtain ⟨f, hf, rfl⟩ := List.mem_map.1 hmem
      have hft := ht.functions f hf
      obtain ⟨code, L, hc, hl⟩ := method_eq ht hg hty hf
      have hsits := Stmt.lowerAll_sits f.body hft.body (Layout.function_sees hty hft.params)
        (Layout.function_placed p.signatures hg hft.params) hc
      rw [Nat.zero_add] at hsits
      simp only [hl]
      exact ⟨code, rfl, hsits⟩
  have hcall : ∀ f s, p.signatures.find? f = some s →
      ∃ callee, (p.codeOf main K).methods.find? f = some callee ∧
        callee.params = s.params.length := by
    intro f s hfind
    obtain ⟨g, hgm, he⟩ := List.mem_map.1 (Table.mem_of_find?_ofList hfind)
    cases he
    refine ⟨_, find?_codeOf ht main K hgm, ?_⟩
    obtain ⟨code, L, -, hl⟩ := method_eq ht hg hty hgm
    simp [hl, Header.signature]
  refine ⟨rfl, ht.symbols, p.keys_codeOf main K, ?_, ?_, ?_, ?_⟩
  · intro m hmem
    obtain ⟨code, hc, hsits⟩ := hmethod m hmem
    rw [hc]
    exact (wellFormed_of_sits hsits).1
  · intro m hmem
    obtain ⟨code, hc, hsits⟩ := hmethod m hmem
    rw [hc]
    exact (wellFormed_of_sits hsits).2.1
  · intro m hmem f arity hinv
    obtain ⟨code, hc, hsits⟩ := hmethod m hmem
    rw [hc] at hinv
    obtain ⟨s, hfind, rfl⟩ := (wellFormed_of_sits hsits).2.2 f arity hinv
    exact hcall f s hfind
  · intro m hmem
    obtain ⟨code, hc, -⟩ := hmethod m hmem
    simp [hc]

/-- A program with a function inside a block, where three variables share a name. -/
theorem lower_wellFormed_shadow :
    let source := "var g = 1 var h = [g] if (g > 0) \x7b function f(x: int): object \x7b " ++
      "if (x > 0) \x7b var g = \"local\" return g \x7d return h \x7d for (g in h) \x7b print(f(g)) \x7d \x7d"
    (parse source "shadow.cat").check.diagnostics = [] ∧
      ∃ code, (parse source "shadow.cat").check.lower = .ok code ∧
        (parse source "shadow.cat").check.write = .ok code ∧
        code.WellFormed ((parse source "shadow.cat").check.functions.map (·.header.symbol)) ∧
        (parse source "shadow.cat").ResolvesAlike :=
  ⟨by decide +kernel, lower_wellFormed (by decide +kernel)⟩

end Program

end CatScript
