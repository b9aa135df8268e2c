import CatScript.Proofs.Code.Plan
import CatScript.Proofs.Code.Methods

/-!
# Charts of lowered code

A chart says what is known before each instruction of a method: a point, or nothing where the
instruction cannot be reached. Lowered code has a chart that its instructions respect, and
whose stacks are the intended ones (`Stmt.lowerAll_chart`).

Charts are put together from the charts of the parts. A part is looked at under the chart `A` of
the whole method, so that its jumps can be checked; the part itself is carried by its own points
from what is known before it to what is known behind it (`Charts`).
-/
namespace CatScript

open Typing Code StackMachine

namespace StackMachine

/-- What is known before an instruction, by offset. -/
abbrev Chart := Nat → Option Point

namespace Chart

/-- Everything that the chart wants known at offset `n` is known at the point. -/
def Leads (A : Chart) (n : Nat) : Option Point → Prop
  | none => True
  | some P => ∃ Q, A n = some Q ∧ P.Implies Q

/-- The chart has the points from offset `n` on. -/
def Fits (A : Chart) : Nat → List (Option Point) → Prop
  | _, [] => True
  | n, P :: points => A n = P ∧ Fits A (n + 1) points

/-- Each instruction that can be reached is allowed at its point. -/
def Verified (A : Chart) (W : World) (result : Ty) : Nat → List Instruction → Prop
  | _, [] => True
  | n, i :: code =>
    (∀ P, A n = some P →
      P.Allows W result (fun Q => A.Leads (n + 1) (some Q)) (fun t Q => A.Leads t (some Q)) i) ∧
      Verified A W result (n + 1) code

variable {A : Chart} {W : World} {result : Ty} {n : Nat}

theorem fits_append {ps qs : List (Option Point)} :
    A.Fits n (ps ++ qs) ↔ A.Fits n ps ∧ A.Fits (n + ps.length) qs := by
  induction ps generalizing n with
  | nil => simp [Fits]
  | cons P ps ih =>
    simp only [List.cons_append, Fits, ih, List.length_cons, and_assoc]
    rw [show n + 1 + ps.length = n + (ps.length + 1) by omega]

theorem verified_append {code code' : List Instruction} :
    A.Verified W result n (code ++ code') ↔
      A.Verified W result n code ∧ A.Verified W result (n + code.length) code' := by
  induction code generalizing n with
  | nil => simp [Verified]
  | cons i code ih =>
    simp only [List.cons_append, Verified, ih, List.length_cons, and_assoc]
    rw [show n + 1 + code.length = n + (code.length + 1) by omega]

theorem Verified.allows {code : List Instruction} (h : A.Verified W result n code) {k : Nat}
    {i : Instruction} (hi : code[k]? = some i) {P : Point} (hP : A (n + k) = some P) :
    P.Allows W result (fun Q => A.Leads (n + k + 1) (some Q)) (fun t Q => A.Leads t (some Q)) i := by
  induction code generalizing n k with
  | nil => cases hi
  | cons j code ih =>
    cases k with
    | zero =>
      cases hi
      exact h.1 P hP
    | succ k =>
      have := ih h.2 hi (by rw [← hP]; congr 1; omega)
      rwa [show n + 1 + k + 1 = n + (k + 1) + 1 by omega] at this

end Chart

theorem Point.Implies.trans {P Q R : Point} (h : P.Implies Q) (h' : Q.Implies R) : P.Implies R := by
  refine ⟨h'.stack.trans h.stack, fun b hb => h.slots b (h'.slots b hb),
    fun n hn => h.iterators n (h'.iterators n hn), ?_⟩
  rcases h'.fact with hf | hf
  · exact .inl hf
  · rw [hf]
    exact h.fact

theorem Chart.Leads.weaken {A : Chart} {n : Nat} {P Q : Point} (h : A.Leads n (some Q))
    (hPQ : P.Implies Q) : A.Leads n (some P) := by
  obtain ⟨R, hR, hQR⟩ := h
  exact ⟨R, hR, hPQ.trans hQR⟩

/-! ## Parts of the code -/

/-- Code that stands at offset `n` and has the given points leads from `P` to `Q`, in every
chart of its method that has these points. What else has to be known of the chart is `H`. -/
structure Charts (W : World) (result : Ty) (H : Chart → Prop) (n : Nat) (code : List Instruction)
    (points : List (Option Point)) (P Q : Option Point) : Prop where
  length : points.length = code.length
  carries : ∀ A : Chart, H A → A.Fits n points → A.Leads (n + code.length) Q →
    A.Leads n P ∧ A.Verified W result n code

namespace Charts

variable {W : World} {result : Ty} {H H' : Chart → Prop} {n : Nat} {code code' : List Instruction}
  {points points' : List (Option Point)} {P Q R : Option Point}

theorem nil (P : Option Point) : Charts W result H n [] [] P P := ⟨rfl, fun _ _ _ h => ⟨h, trivial⟩⟩

theorem append (h : Charts W result H n code points P Q)
    (h' : Charts W result H (n + code.length) code' points' Q R) :
    Charts W result H n (code ++ code') (points ++ points') P R := by
  refine ⟨by simp [h.length, h'.length], fun A hA hf hl => ?_⟩
  obtain ⟨hf, hf'⟩ := Chart.fits_append.1 hf
  rw [h.length] at hf'
  rw [List.length_append, ← Nat.add_assoc] at hl
  obtain ⟨hm, hv'⟩ := h'.carries A hA hf' hl
  obtain ⟨hs, hv⟩ := h.carries A hA hf hm
  exact ⟨hs, Chart.verified_append.2 ⟨hv, hv'⟩⟩

theorem cons {i : Instruction} {T : Option Point} (h : Charts W result H n [i] [T] P Q)
    (h' : Charts W result H (n + 1) code points Q R) :
    Charts W result H n (i :: code) (T :: points) P R :=
  h.append h'

/-- One instruction that can be reached. -/
theorem single {i : Instruction} {P : Point} (h : ∀ A : Chart, H A → A.Leads (n + 1) Q →
      P.Allows W result (fun R => A.Leads (n + 1) (some R)) (fun t R => A.Leads t (some R)) i) :
    Charts W result H n [i] [some P] (some P) Q := by
  refine ⟨rfl, fun A hA hf hl => ⟨⟨P, hf.1, .refl P⟩, fun R hR => ?_, trivial⟩⟩
  rw [hf.1] at hR
  cases hR
  exact h A hA hl

/-- An instruction that goes on to the next one. -/
theorem plain {i : Instruction} {P Q : Point} (h : ∀ (next : Point → Prop) goto, next Q →
      P.Allows W result next goto i) :
    Charts W result H n [i] [some P] (some P) (some Q) :=
  single fun _ _ hl => h _ _ hl

/-- An instruction that cannot be reached. -/
theorem dead {i : Instruction} : Charts W result H n [i] [none] none Q := by
  refine ⟨rfl, fun A _ hf _ => ⟨trivial, fun P hP => ?_, trivial⟩⟩
  rw [hf.1] at hP
  cases hP

theorem weaken {P : Option Point} {Q Q' : Point} (h : Charts W result H n code points P (some Q))
    (hQ : Q.Implies Q') : Charts W result H n code points P (some Q') :=
  ⟨h.length, fun A hA hf hl => h.carries A hA hf (hl.weaken hQ)⟩

/-- What had to be known of the chart follows from the points themselves. -/
theorem close (h : Charts W result H n code points P Q) (hH : ∀ A : Chart, H' A →
    A.Fits n points → A.Leads (n + code.length) Q → H A) : Charts W result H' n code points P Q :=
  ⟨h.length, fun A hA hf hl => h.carries A (hH A hA hf hl) hf hl⟩

end Charts

/-- Code that changes nothing but the stack, over what `B` says of the locals. -/
def Shaped (W : World) (result : Ty) (H : Chart → Prop) (B : Point) (n : Nat)
    (code : List Instruction) (shapes : List (List Kind)) (st st' : List Kind) : Prop :=
  Charts W result H n code (shapes.map fun st => some (B.having st)) (some (B.having st))
    (some (B.having st'))

namespace Shaped

variable {W : World} {result : Ty} {H : Chart → Prop} {B : Point} {n : Nat}
  {code code' : List Instruction} {shapes shapes' : List (List Kind)} {st st' st'' : List Kind}

theorem nil (st : List Kind) : Shaped W result H B n [] [] st st := Charts.nil _

theorem append (h : Shaped W result H B n code shapes st st')
    (h' : Shaped W result H B (n + code.length) code' shapes' st' st'') :
    Shaped W result H B n (code ++ code') (shapes ++ shapes') st st'' := by
  unfold Shaped
  rw [List.map_append]
  exact Charts.append h h'

theorem plain {i : Instruction} (h : ∀ (next : Point → Prop) goto, next (B.having st') →
    (B.having st).Allows W result next goto i) : Shaped W result H B n [i] [st] st st' :=
  Charts.plain h

end Shaped

end StackMachine

/-! ## Expressions -/

namespace Code

variable {W : World} {result : Ty} {H : Chart → Prop} {B : Point} {n : Nat} {st : List Kind}

theorem boxing_shaped (t : Ty) :
    Shaped W result H B n (boxing t) (boxingShapes t st) (t.kind :: st) (.reference :: st) := by
  cases t with
  | int | bool => exact .plain fun next _ h => ⟨st, rfl, h⟩
  | _ => exact .nil _

theorem coercion_shaped (s t : Ty) :
    Shaped W result H B n (coercion s t) (coercionShapes s t st) (s.kind :: st) (t.kind :: st) := by
  cases hs : s.isNative <;> cases ht : t.isNative <;>
    simp only [coercion, coercionShapes, Ty.kind, hs, ht, if_true, if_false, reduceCtorEq]
  · exact .nil _
  · exact .plain fun next _ h => ⟨st, rfl, h⟩
  · have h : Shaped W result H B n (boxing s) (boxingShapes s st) _ _ := boxing_shaped s
    simpa only [boxingShapes, Ty.kind, hs, if_true] using h
  · exact .nil _

/-- A jump that takes the operands off the stack, wherever it goes. -/
def Tests (j : Jump) (operands : List Kind) : Prop :=
  ∀ (W : World) result (next : Point → Prop) goto (B : Point) (st : List Kind) target,
    goto target (B.having st) → next (B.having st) →
      (B.having (operands ++ st)).Allows W result next goto (.jump j target)

theorem truth_shaped {j : Jump} {operands : List Kind} (hj : Tests j operands) :
    Shaped W result H B n (truth j n) (truthShapes operands st) (operands ++ st) (.native :: st) := by
  refine ⟨rfl, fun A _ hf hl => ?_⟩
  obtain ⟨h0, h1, h2, h3, -⟩ := hf
  refine ⟨⟨_, h0, .refl _⟩, fun P hP => ?_, fun P hP => ?_, fun P hP => ?_, fun P hP => ?_, trivial⟩
  · rw [h0] at hP
    cases hP
    exact hj _ _ _ _ _ _ _ ⟨_, h3, .refl _⟩ ⟨_, h1, .refl _⟩
  · rw [h1] at hP
    cases hP
    exact ⟨_, h2, .refl _⟩
  · rw [h2] at hP
    cases hP
    exact hl
  · rw [h3] at hP
    cases hP
    exact hl

theorem tests_ifTrue : Tests .ifTrue [.native] := fun _ _ _ _ _ st _ ht hn => ⟨st, rfl, ht, hn⟩

theorem tests_ifFalse : Tests .ifFalse [.native] := fun _ _ _ _ _ st _ ht hn => ⟨st, rfl, ht, hn⟩

theorem tests_comparison {j : Jump} (hj : j ∉ [Jump.always, .ifTrue, .ifFalse]) :
    Tests j [.native, .native] := by
  intro W result next goto B st target ht hn
  cases j with
  | always | ifTrue | ifFalse => simp at hj
  | _ => exact ⟨st, rfl, ht, hn⟩

/-- What an operator's scheme has to do with the types of its operands and of the operation. -/
def Scheme.Suits (s : Scheme) (l r t : Ty) : Prop :=
  match s with
  | numbers i => (i = .add ∨ i = .sub ∨ i = .mul ∨ i = .div) ∧
      l.kind = .native ∧ r.kind = .native ∧ t.kind = .native
  | comparison j => Tests j [.native, .native] ∧
      l.kind = .native ∧ r.kind = .native ∧ t.kind = .native
  | equality j => Tests j [.native] ∧ t.kind = .native
  | joining => t.kind = .reference

private theorem suits_of_ints {i : Instruction} (hi : i = .add ∨ i = .sub ∨ i = .mul ∨ i = .div)
    {l r t : Ty} (h : (if l = .int ∧ r = .int then some Ty.int else none) = some t) :
    t = .int ∧ (Scheme.numbers i).Suits l r t := by
  split at h
  · next hlr =>
    cases h
    rw [hlr.1, hlr.2]
    exact ⟨rfl, hi, rfl, rfl, rfl⟩
  · cases h

private theorem suits_of_order {j : Jump} (hj : Tests j [.native, .native]) {l r t : Ty}
    (h : (if l = .int ∧ r = .int then some Ty.bool else none) = some t) :
    (Scheme.comparison j).Suits l r t := by
  split at h
  · next hlr =>
    cases h
    rw [hlr.1, hlr.2]
    exact ⟨hj, rfl, rfl, rfl⟩
  · cases h

private theorem suits_of_equality {j j' : Jump} (hj : Tests j [.native, .native])
    (hj' : Tests j' [.native]) (l r : Ty) :
    Scheme.Suits (if l.isNative ∧ l = r then .comparison j else .equality j') l r .bool := by
  split
  · next h =>
    have hl : l.kind = .native := by simp only [Ty.kind, h.1, if_true]
    exact ⟨hj, hl, h.2 ▸ hl, rfl⟩
  · exact ⟨hj', rfl⟩

theorem scheme_suits {op : BinaryOp} {l r t : Ty} (h : op.result? l r = some t) :
    (scheme op t l r).Suits l r t := by
  cases op with
  | add =>
    simp only [BinaryOp.result?] at h
    split at h
    · cases h
      exact rfl
    · obtain ⟨rfl, hs⟩ := suits_of_ints (.inl rfl) h
      exact hs
  | sub =>
    obtain ⟨rfl, hs⟩ := suits_of_ints (.inr (.inl rfl)) h
    exact hs
  | mul => exact (suits_of_ints (.inr (.inr (.inl rfl))) h).2
  | div => exact (suits_of_ints (.inr (.inr (.inr rfl))) h).2
  | gt => exact suits_of_order (j := .ifGt) (tests_comparison (by simp)) h
  | ge => exact suits_of_order (j := .ifGe) (tests_comparison (by simp)) h
  | lt => exact suits_of_order (j := .ifLt) (tests_comparison (by simp)) h
  | le => exact suits_of_order (j := .ifLe) (tests_comparison (by simp)) h
  | eq =>
    cases h
    exact suits_of_equality (j := .ifEq) (tests_comparison (by simp)) tests_ifTrue l r
  | ne =>
    cases h
    exact suits_of_equality (j := .ifNe) (tests_comparison (by simp)) tests_ifFalse l r

namespace Scheme.Suits

variable {s : Scheme} {l r t : Ty}

theorem boxing_left (h : s.Suits l r t) :
    Shaped W result H B n (s.boxing l) (s.boxingShapes l st) (l.kind :: st) (s.kind :: st) := by
  cases s with
  | numbers i =>
    rw [h.2.1]
    exact .nil _
  | comparison j =>
    rw [h.2.1]
    exact .nil _
  | equality j => exact boxing_shaped l
  | joining => exact boxing_shaped l

theorem boxing_right (h : s.Suits l r t) :
    Shaped W result H B n (s.boxing r) (s.boxingShapes r st) (r.kind :: st) (s.kind :: st) := by
  cases s with
  | numbers i =>
    rw [h.2.2.1]
    exact .nil _
  | comparison j =>
    rw [h.2.2.1]
    exact .nil _
  | equality j => exact boxing_shaped r
  | joining => exact boxing_shaped r

theorem finish (h : s.Suits l r t) : Shaped W result H B n (s.finish n) (s.finishShapes st)
    (s.kind :: s.kind :: st) (t.kind :: st) := by
  cases s with
  | numbers i =>
    obtain ⟨hi, -, -, ht⟩ := h
    rw [ht]
    rcases hi with rfl | rfl | rfl | rfl <;> exact .plain fun next _ hn => ⟨st, rfl, hn⟩
  | comparison j =>
    obtain ⟨hj, -, -, ht⟩ := h
    rw [ht]
    exact truth_shaped hj
  | equality j =>
    obtain ⟨hj, ht⟩ := h
    rw [ht]
    have he : Shaped W result H B n [.equals] [.reference :: .reference :: st]
        (.reference :: .reference :: st) (.native :: st) :=
      .plain fun next _ hn => ⟨st, rfl, hn⟩
    exact he.append (truth_shaped hj)
  | joining =>
    rw [show t.kind = .reference from h]
    exact .plain fun next _ hn => ⟨st, rfl, hn⟩

end Scheme.Suits

/-- The globals of a layout have the types of the program's globals. -/
def Layout.Shared (L : Layout) (R : Rules) : Prop :=
  ∀ scope ∈ L.scopes.getLast?, ∀ x v, scope.find? x = some v → R.globals.find? x = some v.ty

/-- The point knows how the variables of the layout are held. -/
def Layout.Known (L : Layout) (B : Point) : Prop :=
  ∀ b ∈ L.scopes.flatten, ∀ m, b.2.storage = .slot m → (m, b.2.ty.kind) ∈ B.slots

/-- A variable in sight that has no slot is one of the program's globals. -/
theorem globals_of_find {L : Layout} {R : Rules} (hp : L.Placed) (hg : L.Shared R) {x y : String}
    {v : Variable} (h : L.find x = .ok v) (hv : v.storage = .global y) :
    R.globals.find? y = some v.ty := by
  rcases hp.find h with ⟨n, hn, -⟩ | ⟨hx, -, scope, hs, hf⟩
  · rw [hv] at hn
    cases hn
  · rw [hv] at hx
    cases hx
    exact hg scope hs _ v hf

end Code

def Typing.Rules.world (R : Rules) : World := ⟨R.functions, R.globals⟩

namespace Expr

/-- Loading a variable pushes a value of the kind of its type. -/
theorem load_shaped {R : Rules} {result : Ty} {H : Chart → Prop} {B : Point} {L : Layout}
    (hp : L.Placed) (hg : L.Shared R) (hB : L.Known B) {x : String} {v : Variable}
    (hv : L.find x = .ok v) (n : Nat) (st : List Kind) :
    Shaped R.world result H B n [v.load] [st] st (v.ty.kind :: st) := by
  refine .plain fun next goto h => ?_
  unfold Variable.load
  cases hs : v.storage with
  | global y => exact ⟨v.ty, globals_of_find hp hg hv hs, h⟩
  | slot m => exact .inl ⟨v.ty.kind, hB _ (mem_flatten_of_find hv) m hs, h⟩

theorem replicate_append_cons (n : Nat) (k : Kind) (st : List Kind) :
    List.replicate n k ++ k :: st = List.replicate (n + 1) k ++ st := by
  rw [List.replicate_succ', List.append_assoc, List.singleton_append]

mutual

/-- The code of an expression pushes one value of the kind of its type. -/
theorem lower_shaped {R : Rules} {result : Ty} {S : Scopes} {L : Layout} {H : Chart → Prop}
    {B : Point} (hL : L.Sees R result S) (hp : L.Placed) (hg : L.Shared R) (hB : L.Known B) :
    (e : Expr) → e.Typed R S → ∀ {n : Nat} {code : List Instruction} (st : List Kind),
    e.lower L n = .ok code →
      Shaped R.world result H B n code (e.shapes R.functions st) st (e.ty.kind :: st)
  | int m v, ht, n, code, st, h => by
    cases h
    rw [show (int m v).ty = .int from ty_of_note ht]
    exact .plain fun _ _ h => h
  | str m v, ht, n, code, st, h => by
    cases h
    rw [show (str m v).ty = .string from ty_of_note ht]
    exact .plain fun _ _ h => h
  | bool m v, ht, n, code, st, h => by
    cases h
    rw [show (bool m v).ty = .bool from ty_of_note ht]
    exact .plain fun _ _ h => h
  | null m, ht, n, code, st, h => by
    cases h
    rw [show (null m).ty = .object from ty_of_note ht]
    exact .plain fun _ _ h => h
  | var m x, ht, n, code, st, h => by
    simp only [lower, bind_eq_ok] at h
    obtain ⟨v, hv, hc⟩ := h
    cases hc
    obtain ⟨t, hm, hx⟩ := ht
    have hty := hL.ty hv
    rw [hx] at hty
    cases hty
    rw [show (var m x).ty = v.ty from ty_of_note hm]
    exact load_shaped hp hg hB hv n st
  | unary m op e, ht, n, code, st, h => by
    obtain ⟨hm, hty, he⟩ := ht
    simp only [lower, bind_eq_ok] at h
    obtain ⟨inner, hi, hc⟩ := h
    have ih := lower_shaped (H := H) hL hp hg hB e he st hi
    rw [show (unary m op e).ty = op.ty from ty_of_note hm]
    rw [hty] at ih
    cases op with
    | negate =>
      cases hc
      exact ih.append (.plain fun _ _ h => ⟨st, rfl, h⟩)
    | not =>
      cases hc
      exact ih.append (truth_shaped tests_ifFalse)
  | binary m op l r, ht, n, code, st, h => by
    obtain ⟨⟨t, hm, ht⟩, hl, hr⟩ := ht
    simp only [lower, bind_eq_ok] at h
    obtain ⟨left, hleft, right, hright, hc⟩ := h
    rw [hm, Option.getD_some] at hright hc
    have hs := scheme_suits ht
    have ihl := (lower_shaped (H := H) hL hp hg hB l hl st hleft).append hs.boxing_left
    have ihr := ihl.append (lower_shaped hL hp hg hB r hr _ hright)
    cases hc
    rw [show (binary m op l r).ty = t from ty_of_note hm]
    simp only [shapes, hm, Option.getD_some]
    exact (ihr.append hs.boxing_right).append hs.finish
  | paren m e, ht, n, code, st, h => by
    rw [show (paren m e).ty = e.ty from ty_of_note ht.1]
    exact lower_shaped hL hp hg hB e ht.2 st h
  | list m es, ht, n, code, st, h => by
    simp only [lower, bind_eq_ok] at h
    obtain ⟨items, hi, hc⟩ := h
    have ih := lowerItems_shaped (H := H) hL hp hg hB es ht.2 st hi
    cases hc
    rw [show (list m es).ty = .list (.join (es.map ty)) from ty_of_note ht.1]
    exact ih.append (.plain fun _ _ h => ⟨st, rfl, h⟩)
  | call m f es symbol, ht, n, code, st, h => by
    obtain ⟨s, rfl, hs, hm, ha⟩ := ht
    simp only [lower, bind_eq_ok, Layout.findFunction_eq_ok, Option.getD_some] at h
    obtain ⟨s', hs', args, hargs, hc⟩ := h
    rw [hL.functions, hs] at hs'
    cases hs'
    have ih := lowerArgs_shaped (H := H) hL hp hg hB s.params es ha st hargs
    have hlen := length_of_typedArgs ha
    cases hc
    rw [show (call m f es (some s.symbol)).ty = s.result from ty_of_note hm]
    simp only [shapes, Option.getD_some, hs]
    refine ih.append ?_
    -- a call leaves nothing if its result is void, and then null is pushed for it
    have hcall : Shaped R.world result H B (n + args.length) [.invoke s.symbol es.length]
        [argumentKinds s ++ st] (argumentKinds s ++ st)
        (if s.result = .void then st else s.result.kind :: st) :=
      .plain fun _ _ h => ⟨s, st, hs, hlen, rfl, h⟩
    by_cases hvoid : s.result = .void
    · simp only [hvoid, if_true] at hcall ⊢
      exact hcall.append (.plain fun _ _ h => h)
    · simp only [hvoid, if_false] at hcall ⊢
      exact hcall

theorem lowerItems_shaped {R : Rules} {result : Ty} {S : Scopes} {L : Layout} {H : Chart → Prop}
    {B : Point} (hL : L.Sees R result S) (hp : L.Placed) (hg : L.Shared R) (hB : L.Known B) :
    (es : List Expr) → TypedAll R S es → ∀ {n : Nat} {code : List Instruction} (st : List Kind),
    lowerItems L n es = .ok code → Shaped R.world result H B n code (itemShapes R.functions st es)
      st (List.replicate es.length .reference ++ st)
  | [], _, n, code, st, h => by
    cases h
    exact .nil _
  | e :: es, ht, n, code, st, h => by
    simp only [lowerItems, bind_eq_ok] at h
    obtain ⟨one, ho, more, hm, hc⟩ := h
    have ih := (lower_shaped (H := H) hL hp hg hB e ht.1 st ho).append (boxing_shaped e.ty)
    have ih' := lowerItems_shaped (H := H) hL hp hg hB es ht.2 (.reference :: st) hm
    cases hc
    rw [replicate_append_cons] at ih'
    exact ih.append ih'

theorem lowerArgs_shaped {R : Rules} {result : Ty} {S : Scopes} {L : Layout} {H : Chart → Prop}
    {B : Point} (hL : L.Sees R result S) (hp : L.Placed) (hg : L.Shared R) (hB : L.Known B) :
    (ps : List (String × Ty)) → (es : List Expr) → TypedArgs R S ps es →
    ∀ {n : Nat} {code : List Instruction} (st : List Kind), lowerArgs L n ps es = .ok code →
      Shaped R.world result H B n code (argumentShapes R.functions st ps es)
        st ((ps.map fun p => p.2.kind).reverse ++ st)
  | [], [], _, n, code, st, h => by
    cases h
    exact .nil _
  | p :: ps, e :: es, ht, n, code, st, h => by
    simp only [lowerArgs, bind_eq_ok] at h
    obtain ⟨one, ho, more, hm, hc⟩ := h
    have ih := (lower_shaped (H := H) hL hp hg hB e ht.1 st ho).append (coercion_shaped e.ty p.2)
    have ih' := lowerArgs_shaped (H := H) hL hp hg hB ps es ht.2.2 (p.2.kind :: st) hm
    cases hc
    rw [show ((p :: ps).map fun p => p.2.kind).reverse ++ st =
      (ps.map fun p => p.2.kind).reverse ++ p.2.kind :: st by simp]
    exact ih.append ih'
  | [], _ :: _, ht, _, _, _, _ | _ :: _, [], ht, _, _, _, _ => ht.elim

end

end Expr

end CatScript
