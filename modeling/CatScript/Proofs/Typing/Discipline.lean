import CatScript.Proofs.Typing.Scoping

/-!
# The discipline of scopes

A loop, a branch and a function open a scope and leave it again, a function also sets the base
behind which its variables lie and the result that its returns must fit. Leaving never takes the
global scope, so a scope left once too often would go unnoticed. Behind a block everything is as it
was in front of it, up to names that the block has added to the innermost scope.

A look-up of a variable cuts the scopes at the base, which must lie below their number. The look-ups
are those of the probed check, each with its context.

Results:
* `Stmt.probeAll_inRange`: no look-up is made in a context whose base is out of range.
* `Stmt.checkBlock_disciplined`: what a block leaves of a context.
-/
namespace CatScript

open Typing Context

namespace Typing

/-! ## Bases in range -/

/-- A context in which variables can be looked up: the scopes around the innermost function are not
all of its scopes. -/
def Context.Ranged (Γ : Context) : Prop := ∀ base, Γ.base = some base → base < Γ.scopes.length

namespace Context.Ranged

variable {Γ Δ : Context}

theorem push (h : Γ.Ranged) : Γ.push.Ranged := fun base hb => Nat.lt_succ_of_lt (h base hb)

theorem enter (Γ : Context) (result : Ty) : (Γ.enter result).Ranged := by
  intro base hb
  cases hb
  exact Nat.lt_succ_self _

theorem grows (h : Γ.Ranged) (hg : Grows Γ Δ) : Δ.Ranged := by
  intro base hb
  rw [hg.length]
  exact h base (hg.base ▸ hb)

/-- What is left of a context behind a scope that was opened in it. -/
theorem of_pop (h : Γ.Ranged) (hg : Grows Γ.push Δ) : Δ.pop.Ranged := by
  obtain ⟨hs, hb, -⟩ := hg.pop
  intro base hbase
  rw [hs]
  exact h base (hb ▸ hbase)

end Context.Ranged

/-! ## Look-ups -/

/-- Every look-up is made in a context in which it can be made. -/
def Probed.InRange {α : Type} (x : Probed α) : Prop := ∀ q ∈ x.queries, q.context.Ranged

namespace Probed.InRange

variable {α β : Type} {Γ : Context}

theorem pure (a : α) : (Pure.pure a : Probed α).InRange := fun q hq => by cases hq

theorem bind {x : Probed α} {f : α → Probed β} (hx : x.InRange) (hf : (f x.value).InRange) :
    (x >>= f).InRange := by
  intro q hq
  rw [queries_bind] at hq
  exact (List.mem_append.1 hq).elim (hx q) (hf q)

theorem seek (hΓ : Γ.Ranged) (span : Span) (name : String) : (seek Γ span name).InRange := by
  intro q hq
  rw [List.mem_singleton.1 hq]
  exact hΓ

theorem seekFunction (hΓ : Γ.Ranged) (name : String) : (seekFunction Γ name).InRange := by
  intro q hq
  rw [List.mem_singleton.1 hq]
  exact hΓ

end Probed.InRange

end Typing

namespace Expr

mutual

/-- An expression is checked in one context. -/
theorem probe_inRange {Γ : Context} (hΓ : Γ.Ranged) : (e : Expr) → (e.probe Γ).InRange
  | int _ _ | str _ _ | bool _ _ | null _ => by simp only [probe]; exact .pure _
  | var n x => by
    simp only [probe]
    refine .bind (.seek hΓ n.span x) ?_
    split <;> exact .pure _
  | unary _ _ e | paren _ e => by
    simp only [probe]
    exact .bind (probe_inRange hΓ e) (.pure _)
  | binary _ _ l r => by
    simp only [probe]
    exact .bind (probe_inRange hΓ l) (.bind (probe_inRange hΓ r) (.pure _))
  | list _ es => by
    simp only [probe]
    exact .bind (probeAll_inRange hΓ es) (.pure _)
  | call _ f es _ => by
    simp only [probe]
    refine .bind (probeAll_inRange hΓ es) (.bind (.seekFunction hΓ f) ?_)
    split <;> exact .pure _

theorem probeAll_inRange {Γ : Context} (hΓ : Γ.Ranged) :
    (es : List Expr) → (probeAll Γ es).InRange
  | [] => .pure _
  | e :: es => .bind (probe_inRange hΓ e) (.bind (probeAll_inRange hΓ es) (.pure _))

end

end Expr

namespace Stmt

/-- A block makes its look-ups in range, if its statements do wherever they stand. -/
private theorem probeBlock_inRange_of {body : List Stmt} {Γ : Context} (hΓ : Γ.Ranged)
    (h : ∀ (Δ : Context) slots, Δ.Ranged → (probeAll Δ slots body).InRange) :
    (probeBlock Γ body).InRange :=
  h _ _ (hΓ.grows (hoist_grows Γ body))

mutual

/-- The scope of a loop or a branch keeps the base and adds a scope, a function puts the base right
below the scope it adds, and what stands in front of a statement in its block has left both. -/
theorem probe_inRange {Γ : Context} (hΓ : Γ.Ranged) (slot : Hoisted) :
    (s : Stmt) → (s.probe Γ slot).InRange
  | print _ e | call _ e | declare _ _ _ e | ret _ (some e) => by
    simp only [probe]
    exact .bind (e.probe_inRange hΓ) (.pure _)
  | ret _ none | invalid _ _ => by simp only [probe]; exact .pure _
  | assign n x e => by
    simp only [probe]
    refine .bind (e.probe_inRange hΓ) (.bind (.seek hΓ n.span x) ?_)
    split <;> exact .pure _
  | forEach n x e body => by
    simp only [probe]
    refine .bind (e.probe_inRange hΓ) (.bind ?_ (.pure _))
    exact probeBlock_inRange_of (hΓ.push.grows (bind_grows ..))
      fun Δ slots hΔ => probeAll_inRange hΔ slots body
  | cond n e yes none => by
    simp only [probe]
    refine .bind (e.probe_inRange hΓ) (.bind ?_ (.pure _))
    exact probeBlock_inRange_of hΓ.push fun Δ slots hΔ => probeAll_inRange hΔ slots yes
  | cond n e yes (some no) => by
    simp only [probe]
    refine .bind (e.probe_inRange hΓ) (.bind ?_ (.bind ?_ (.pure _)))
    · exact probeBlock_inRange_of hΓ.push fun Δ slots hΔ => probeAll_inRange hΔ slots yes
    · rw [value_probeAll]
      have hyes := hΓ.of_pop (checkBlock_grows Γ.push yes)
      exact probeBlock_inRange_of hyes.push fun Δ slots hΔ => probeAll_inRange hΔ slots no
  | define n h body => by
    simp only [probe]
    refine .bind ?_ (.pure _)
    exact probeBlock_inRange_of ((Ranged.enter Γ h.resultTy).grows (bindAll_grows ..))
      fun Δ slots hΔ => probeAll_inRange hΔ slots body

theorem probeAll_inRange {Γ : Context} (hΓ : Γ.Ranged) (slots : List Hoisted) :
    (ss : List Stmt) → (probeAll Γ slots ss).InRange
  | [] => by simp only [probeAll]; exact .pure _
  | s :: ss => by
    simp only [probeAll]
    refine .bind (probe_inRange hΓ _ s) (.bind ?_ (.pure _))
    rw [value_probe]
    exact probeAll_inRange (hΓ.grows (check_grows Γ (slots.head?.getD .nothing) s)) slots.tail ss

end

/-- Checking a block leaves the number of scopes, the base and the results as they were, all scopes
but the innermost one too, and in that one every binding. On the way a variable is never looked up
behind a base that is out of range; the look-ups are those of the probed check, which is the check
itself. -/
theorem checkBlock_disciplined {Γ : Context}
    (hbase : Γ.base = none ∨ ∃ base, Γ.base = some base ∧ base < Γ.scopes.length)
    (body : List Stmt) :
    let Δ := (checkBlock Γ body).2
    Δ.scopes.length = Γ.scopes.length ∧ Δ.base = Γ.base ∧ Δ.results = Γ.results ∧
      Δ.outer = Γ.outer ∧
      (∀ x entity, Γ.inner.find? x = some entity → Δ.inner.find? x = some entity) ∧
      (probeBlock Γ body).value = checkBlock Γ body ∧
      ∀ q ∈ (probeBlock Γ body).queries, ∀ base, q.context.base = some base →
        base < q.context.scopes.length := by
  have hΓ : Γ.Ranged := by
    intro base hb
    rcases hbase with hnone | ⟨base', hsome, hlt⟩
    · cases hnone.symm.trans hb
    · cases hsome.symm.trans hb
      exact hlt
  have hgrows := checkBlock_grows Γ body
  refine ⟨hgrows.length, hgrows.base, hgrows.results, hgrows.outer, hgrows.inner,
    value_probeBlock Γ body, ?_⟩
  exact probeBlock_inRange_of hΓ fun Δ slots hΔ => probeAll_inRange hΔ slots body

/-- A loop that holds a function, behind it a variable, all of it in a function of a nested block:
the loop's function looks up under a base of 4, with five scopes around it. -/
theorem checkBlock_disciplined_nested :
    let Γ := Context.empty.push.enter .int
    let blank : Expr.Note := .fresh .nowhere []
    let body : List Stmt :=
      [.forEach ⟨.nowhere, []⟩ "i" (.var blank "xs")
        [.define ⟨.nowhere, []⟩ ⟨"g", "g", [], none⟩ [.assign ⟨.nowhere, []⟩ "i" (.var blank "i")]],
       .declare ⟨.nowhere, []⟩ "xs" none (.list blank [])]
    Γ.base = some 2 ∧ (checkBlock Γ body).2.scopes.length = 3 ∧
      (checkBlock Γ body).2.outer = Γ.outer ∧ (probeBlock Γ body).queries.map
        (fun q => (q.context.base, q.context.scopes.length)) = [(some 2, 3), (some 4, 5), (some 4, 5)] ∧
      ∀ q ∈ (probeBlock Γ body).queries, ∀ base, q.context.base = some base →
        base < q.context.scopes.length := by
  intro Γ blank body
  obtain ⟨hlength, -, -, houter, -, -, hrange⟩ :=
    checkBlock_disciplined (Γ := Γ) (.inr ⟨2, rfl, by decide⟩) body
  exact ⟨rfl, hlength, houter, by decide, hrange⟩

end Stmt

end CatScript
