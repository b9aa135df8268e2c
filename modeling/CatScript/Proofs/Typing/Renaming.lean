import CatScript.Proofs.Typing.Noninterference
import CatScript.Proofs.Typing.Origins

/-!
# Checking up to symbols

Symbols tell functions of one name apart and depend on the order in which scopes are checked. Two
checked programs are the same up to symbols if a relation between symbols makes the symbols of
functions and of calls at the same places correspond (`Renamed`). Such programs have the same
diagnostics.

Two contexts may bind names in another order and may have counted other functions. As long as they
find related entities for each name, checking gives trees that are related again, if the symbols
that it gives out on the way are.

Results:
* `Stmt.check_renamed`, `Stmt.checkAll_renamed`: checking in related contexts.
* `Stmt.RenamedAll.functions`: the functions of related programs correspond one by one.
-/
namespace CatScript

open Typing Context

variable {R : String → String → Prop}

/-! ## Trees that differ in symbols -/

namespace Expr

mutual

/-- The second expression is the first with other symbols, and a call has one or is reported. -/
def Renamed (R : String → String → Prop) : Expr → Expr → Prop
  | int n v, e => e = int n v
  | str n v, e => e = str n v
  | bool n v, e => e = bool n v
  | null n, e => e = null n
  | var n x, e => e = var n x
  | unary n op a, e => ∃ a', e = unary n op a' ∧ a.Renamed R a'
  | binary n op l r, e => ∃ l' r', e = binary n op l' r' ∧ l.Renamed R l' ∧ r.Renamed R r'
  | paren n a, e => ∃ a', e = paren n a' ∧ a.Renamed R a'
  | list n es, e => ∃ es', e = list n es' ∧ RenamedAll R es es'
  | call n f es none, e => ∃ es', e = call n f es' none ∧ n.errors ≠ [] ∧ RenamedAll R es es'
  | call n f es (some s), e => ∃ es' t, e = call n f es' (some t) ∧ R s t ∧ RenamedAll R es es'

def RenamedAll (R : String → String → Prop) : List Expr → List Expr → Prop
  | [], es => es = []
  | e :: es, ds => ∃ e' es', ds = e' :: es' ∧ e.Renamed R e' ∧ RenamedAll R es es'

end

theorem Renamed.note_eq : {e e' : Expr} → e.Renamed R e' → e'.note = e.note
  | int _ _, _, h | str _ _, _, h | bool _ _, _, h | null _, _, h | var _ _, _, h => by
    cases h
    rfl
  | unary _ _ _, _, ⟨_, he, _⟩ | binary _ _ _ _, _, ⟨_, _, he, _⟩ | paren _ _, _, ⟨_, he, _⟩
  | list _ _, _, ⟨_, he, _⟩ | call _ _ _ none, _, ⟨_, he, _⟩
  | call _ _ _ (some _), _, ⟨_, _, he, _⟩ => by
    subst he
    rfl

theorem Renamed.alike {e e' : Expr} (h : e.Renamed R e') : Alike e' e :=
  ⟨by rw [ty, h.note_eq, ty], by rw [span, h.note_eq, span]⟩

theorem RenamedAll.alike : {es es' : List Expr} → RenamedAll R es es' →
    List.Forall₂ Alike es' es
  | [], _, rfl => .nil
  | _ :: _, _, ⟨_, _, rfl, he, hes⟩ => .cons he.alike (RenamedAll.alike hes)

mutual

theorem Renamed.diagnostics_eq : {e e' : Expr} → e.Renamed R e' → e'.diagnostics = e.diagnostics
  | int _ _, _, rfl | str _ _, _, rfl | bool _ _, _, rfl | null _, _, rfl | var _ _, _, rfl => rfl
  | unary _ _ _, _, ⟨_, rfl, h⟩ | paren _ _, _, ⟨_, rfl, h⟩ => by
    simp only [diagnostics, Renamed.diagnostics_eq h]
  | binary _ _ _ _, _, ⟨_, _, rfl, hl, hr⟩ => by
    simp only [diagnostics, Renamed.diagnostics_eq hl, Renamed.diagnostics_eq hr]
  | list _ _, _, ⟨_, rfl, h⟩ | call _ _ _ none, _, ⟨_, rfl, _, h⟩
  | call _ _ _ (some _), _, ⟨_, _, rfl, _, h⟩ => by
    simp only [diagnostics, RenamedAll.diagnostics_eq h]

theorem RenamedAll.diagnostics_eq : {es es' : List Expr} → RenamedAll R es es' →
    diagnosticsOfAll es' = diagnosticsOfAll es
  | [], _, rfl => rfl
  | _ :: _, _, ⟨_, _, rfl, he, hes⟩ => by
    simp only [diagnosticsOfAll, Renamed.diagnostics_eq he, RenamedAll.diagnostics_eq hes]

end

end Expr

namespace Stmt

mutual

/-- The second statement is the first with other symbols. -/
def Renamed (R : String → String → Prop) : Stmt → Stmt → Prop
  | print n e, s => ∃ e', s = print n e' ∧ e.Renamed R e'
  | forEach n x e body, s =>
    ∃ e' body', s = forEach n x e' body' ∧ e.Renamed R e' ∧ RenamedAll R body body'
  | cond n e yes none, s =>
    ∃ e' yes', s = cond n e' yes' none ∧ e.Renamed R e' ∧ RenamedAll R yes yes'
  | cond n e yes (some no), s =>
    ∃ e' yes' no', s = cond n e' yes' (some no') ∧ e.Renamed R e' ∧ RenamedAll R yes yes' ∧
      RenamedAll R no no'
  | declare n x t e, s => ∃ e', s = declare n x t e' ∧ e.Renamed R e'
  | assign n x e, s => ∃ e', s = assign n x e' ∧ e.Renamed R e'
  | call n e, s => ∃ e', s = call n e' ∧ e.Renamed R e'
  | define n h body, s =>
    ∃ symbol body', s = define n { h with symbol := symbol } body' ∧ R h.symbol symbol ∧
      RenamedAll R body body'
  | ret n none, s => s = ret n none
  | ret n (some e), s => ∃ e', s = ret n (some e') ∧ e.Renamed R e'
  | invalid n t, s => s = invalid n t

def RenamedAll (R : String → String → Prop) : List Stmt → List Stmt → Prop
  | [], ss => ss = []
  | s :: ss, ts => ∃ s' ss', ts = s' :: ss' ∧ s.Renamed R s' ∧ RenamedAll R ss ss'

end

mutual

theorem Renamed.diagnostics_eq : {s s' : Stmt} → s.Renamed R s' → s'.diagnostics = s.diagnostics
  | print _ _, _, ⟨_, rfl, h⟩ | assign _ _ _, _, ⟨_, rfl, h⟩ | call _ _, _, ⟨_, rfl, h⟩
  | ret _ (some _), _, ⟨_, rfl, h⟩ | declare _ _ none _, _, ⟨_, rfl, h⟩
  | declare _ _ (some _) _, _, ⟨_, rfl, h⟩ => by
    simp only [diagnostics, h.diagnostics_eq]
  | forEach _ _ _ _, _, ⟨_, _, rfl, he, h⟩ | cond _ _ _ none, _, ⟨_, _, rfl, he, h⟩ => by
    simp only [diagnostics, he.diagnostics_eq, RenamedAll.diagnostics_eq h]
  | cond _ _ _ (some _), _, ⟨_, _, _, rfl, he, hyes, hno⟩ => by
    simp only [diagnostics, he.diagnostics_eq, RenamedAll.diagnostics_eq hyes,
      RenamedAll.diagnostics_eq hno]
  | define _ _ _, _, ⟨_, _, rfl, _, h⟩ => by
    simp only [diagnostics, Header.diagnostics, RenamedAll.diagnostics_eq h]
  | ret _ none, _, rfl | invalid _ _, _, rfl => rfl

theorem RenamedAll.diagnostics_eq : {ss ss' : List Stmt} → RenamedAll R ss ss' →
    diagnosticsOfAll ss' = diagnosticsOfAll ss
  | [], _, rfl => rfl
  | _ :: _, _, ⟨_, _, rfl, h, hs⟩ => by
    simp only [diagnosticsOfAll, Renamed.diagnostics_eq h, RenamedAll.diagnostics_eq hs]

end

theorem RenamedAll.append : {ss ss' ts ts' : List Stmt} → RenamedAll R ss ss' →
    RenamedAll R ts ts' → RenamedAll R (ss ++ ts) (ss' ++ ts')
  | [], _, _, _, rfl, ht => ht
  | _ :: _, _, _, _, ⟨_, _, rfl, h, hs⟩, ht => ⟨_, _, rfl, h, RenamedAll.append hs ht⟩

end Stmt

/-- The second function is the first with other symbols. -/
def Function.Renamed (R : String → String → Prop) (f g : Function) : Prop :=
  ∃ symbol body', g = ⟨{ f.header with symbol := symbol }, body'⟩ ∧ R f.header.symbol symbol ∧
    Stmt.RenamedAll R f.body body'

namespace Stmt

mutual

theorem Renamed.functions : {s s' : Stmt} → s.Renamed R s' →
    List.Forall₂ (Function.Renamed R) s.functions s'.functions
  | print _ _, _, ⟨_, rfl, _⟩ | assign _ _ _, _, ⟨_, rfl, _⟩ | call _ _, _, ⟨_, rfl, _⟩
  | ret _ (some _), _, ⟨_, rfl, _⟩ | declare _ _ _ _, _, ⟨_, rfl, _⟩ | ret _ none, _, rfl
  | invalid _ _, _, rfl => .nil
  | forEach _ _ _ _, _, ⟨_, _, rfl, _, h⟩ | cond _ _ _ none, _, ⟨_, _, rfl, _, h⟩ =>
    RenamedAll.functions h
  | cond _ _ _ (some _), _, ⟨_, _, _, rfl, _, hyes, hno⟩ =>
    List.rel_append (RenamedAll.functions hyes) (RenamedAll.functions hno)
  | define _ _ _, _, ⟨_, _, rfl, hR, h⟩ => .cons ⟨_, _, rfl, hR, h⟩ (RenamedAll.functions h)

theorem RenamedAll.functions : {ss ss' : List Stmt} → RenamedAll R ss ss' →
    List.Forall₂ (Function.Renamed R) (functionsOfAll ss) (functionsOfAll ss')
  | [], _, rfl => .nil
  | _ :: _, _, ⟨_, _, rfl, h, hs⟩ =>
    List.rel_append (Renamed.functions h) (RenamedAll.functions hs)

end

end Stmt

/-! ## Contexts that differ in symbols -/

def Signature.Renamed (R : String → String → Prop) (s t : Signature) : Prop :=
  R s.symbol t.symbol ∧ t = { s with symbol := t.symbol }

namespace Typing

inductive Entity.Renamed (R : String → String → Prop) : Entity → Entity → Prop
  | variable (t : Ty) : Renamed R (.variable t) (.variable t)
  | function {s t : Signature} : s.Renamed R t → Renamed R (.function s) (.function t)

/-- The two scopes bind the same names, to entities that differ in symbols. -/
def ScopeRenamed (R : String → String → Prop) (t u : Table Entity) : Prop :=
  ∀ x, Option.Rel (Entity.Renamed R) (t.find? x) (u.find? x)

theorem ScopeRenamed.insert {t u : Table Entity} {a b : Entity} (h : ScopeRenamed R t u)
    (hab : a.Renamed R b) (x : String) : ScopeRenamed R (t.insert x a) (u.insert x b) := by
  intro y
  rw [Table.find?_insert, Table.find?_insert]
  split
  · exact .some hab
  · exact h y

theorem ScopeRenamed.contains {t u : Table Entity} (h : ScopeRenamed R t u) (x : String) :
    u.contains x = t.contains x := by
  have hx := h x
  unfold Table.contains
  generalize t.find? x = a, u.find? x = b at hx
  cases hx <;> rfl

namespace Context

/-- The two contexts find the same for each name, up to symbols. -/
structure Renamed (R : String → String → Prop) (Γ Δ : Context) : Prop where
  base : Δ.base = Γ.base
  results : Δ.results = Γ.results
  scopes : List.Forall₂ (ScopeRenamed R) Γ.scopes Δ.scopes

theorem typeIn?_renamed {ss ts : List (Table Entity)} (h : List.Forall₂ (ScopeRenamed R) ss ts)
    (x : String) : typeIn? x ts = typeIn? x ss := by
  induction h with
  | nil => rfl
  | @cons t u _ _ htu _ ih =>
    have hx := htu x
    simp only [typeIn?]
    generalize t.find? x = a, u.find? x = b at hx
    cases hx with
    | none => exact ih
    | some hab => cases hab <;> rfl

theorem signatureIn?_renamed {ss ts : List (Table Entity)}
    (h : List.Forall₂ (ScopeRenamed R) ss ts) (x : String) :
    Option.Rel (Signature.Renamed R) (signatureIn? x ss) (signatureIn? x ts) := by
  induction h with
  | nil => exact .none
  | @cons t u _ _ htu _ ih =>
    have hx := htu x
    simp only [signatureIn?]
    generalize t.find? x = a, u.find? x = b at hx
    cases hx with
    | none => exact ih
    | some hab =>
      obtain _ | hst := hab
      · exact ih
      · exact .some hst

namespace Renamed

variable {Γ Δ : Context}

theorem visible (h : Γ.Renamed R Δ) : List.Forall₂ (ScopeRenamed R) Γ.visible Δ.visible := by
  have hlen := h.scopes.length_eq
  unfold Context.visible
  rw [h.base]
  cases Γ.base with
  | none => exact h.scopes
  | some b =>
    rw [← hlen]
    exact List.rel_append (List.forall₂_take _ h.scopes) (forall₂_getLast? h.scopes)

theorem typeOf? (h : Γ.Renamed R Δ) (x : String) : Δ.typeOf? x = Γ.typeOf? x :=
  typeIn?_renamed h.visible x

theorem signatureOf? (h : Γ.Renamed R Δ) (f : String) :
    Option.Rel (Signature.Renamed R) (Γ.signatureOf? f) (Δ.signatureOf? f) :=
  signatureIn?_renamed h.scopes f

theorem result (h : Γ.Renamed R Δ) : Δ.result = Γ.result := by
  rw [Context.result, h.results, Context.result]

theorem push (h : Γ.Renamed R Δ) : Γ.push.Renamed R Δ.push :=
  ⟨h.base, h.results, .cons (fun _ => .none) h.scopes⟩

theorem pop (h : Γ.Renamed R Δ) : Γ.pop.Renamed R Δ.pop := by
  obtain ⟨hb, hr, hs⟩ := h
  obtain ⟨hinner, houter⟩ := List.forall₂_cons.1 hs
  unfold Context.pop
  generalize hΓ : Γ.outer = ss, hΔ : Δ.outer = ts at houter
  cases houter with
  | nil => exact ⟨hb, hr, by rw [Context.scopes, Context.scopes, hΓ, hΔ]; exact .cons hinner .nil⟩
  | cons htu hrest => exact ⟨hb, hr, .cons htu hrest⟩

theorem enter (h : Γ.Renamed R Δ) (t : Ty) : (Γ.enter t).Renamed R (Δ.enter t) :=
  ⟨congrArg some h.scopes.length_eq.symm, congrArg (t :: ·) h.results, h.push.scopes⟩

theorem leave {Γ' Δ' : Context} (h : Γ.Renamed R Δ) (h' : Γ'.Renamed R Δ') :
    (Γ'.leave Γ).Renamed R (Δ'.leave Δ) :=
  ⟨h.base, congrArg List.tail h'.results, h'.pop.scopes⟩

end Renamed

/-- A name is taken in both contexts or in none. -/
theorem declare_renamed {Γ Δ : Context} (h : Γ.Renamed R Δ) (x : String) (a b : Entity)
    (span : Span) :
    (∃ d, Γ.declare x a span = .error d ∧ Δ.declare x b span = .error d) ∨
    ∃ Γ' Δ', Γ.declare x a span = .ok Γ' ∧ Δ.declare x b span = .ok Δ' ∧
      (a.Renamed R b → Γ'.Renamed R Δ') := by
  unfold declare
  obtain ⟨hb, hr, hs⟩ := h
  obtain ⟨hinner, houter⟩ := List.forall₂_cons.1 hs
  simp only [hinner.contains x]
  split
  · exact .inl ⟨_, rfl, rfl⟩
  · exact .inr ⟨_, _, rfl, rfl, fun hab => ⟨hb, hr, .cons (hinner.insert hab x) houter⟩⟩

end Context

theorem bind_renamed {Γ Δ : Context} (h : Γ.Renamed R Δ) (x : String) (t : Ty) (span : Span) :
    (bind Δ x t span).1 = (bind Γ x t span).1 ∧
      (bind Γ x t span).2.Renamed R (bind Δ x t span).2 := by
  unfold bind declareVariable
  rcases declare_renamed h x (.variable t) (.variable t) span with
    ⟨d, hΓ, hΔ⟩ | ⟨Γ', Δ', hΓ, hΔ, hren⟩
  · rw [hΓ, hΔ]
    exact ⟨rfl, h⟩
  · rw [hΓ, hΔ]
    exact ⟨rfl, hren (.variable t)⟩

theorem bindAll_renamed {Γ Δ : Context} (h : Γ.Renamed R Δ) (span : Span) (ps : List Param) :
    (bindAll Δ span ps).1 = (bindAll Γ span ps).1 ∧
      (bindAll Γ span ps).2.Renamed R (bindAll Δ span ps).2 := by
  induction ps generalizing Γ Δ with
  | nil => exact ⟨rfl, h⟩
  | cons p ps ih =>
    obtain ⟨herrors, hone⟩ := bind_renamed h p.name p.ty span
    obtain ⟨hmore, hall⟩ := ih hone
    exact ⟨by simp only [bindAll, herrors, hmore], hall⟩

/-! ## Declaring the functions of a block -/

/-- Symbols that were given out for one statement are related. -/
def Hoisted.Agree (R : String → String → Prop) (slot slot' : Hoisted) : Prop :=
  ∀ a b, slot = .symbol a → slot' = .symbol b → R a b

theorem Hoisted.header_renamed (slot slot' : Hoisted) (h : Header) :
    slot'.header h = { slot.header h with symbol := (slot'.header h).symbol } := by
  cases slot <;> cases slot' <;> rfl

theorem hoistOne_renamed {Γ Δ : Context} (h : Γ.Renamed R Δ) (s : Stmt)
    (hR : Hoisted.Agree R (hoistOne Γ s).1 (hoistOne Δ s).1) :
    (hoistOne Δ s).1.errors = (hoistOne Γ s).1.errors ∧
      (hoistOne Γ s).2.Renamed R (hoistOne Δ s).2 := by
  cases s with
  | define n hd body =>
    simp only [hoistOne, declareFunction] at hR ⊢
    rcases declare_renamed h hd.signature.name
      (.function { hd.signature with symbol := Γ.nextSymbol hd.signature.name })
      (.function { hd.signature with symbol := Δ.nextSymbol hd.signature.name }) n.span with
      ⟨d, hΓ, hΔ⟩ | ⟨Γ', Δ', hΓ, hΔ, hren⟩
    · rw [hΓ, hΔ]
      exact ⟨rfl, h⟩
    · rw [hΓ, hΔ] at hR ⊢
      obtain ⟨hb, hr, hs⟩ := hren (.function ⟨hR _ _ rfl rfl, rfl⟩)
      exact ⟨rfl, hb, hr, hs⟩
  | _ => exact ⟨rfl, h⟩

theorem hoist_renamed {Γ Δ : Context} (h : Γ.Renamed R Δ) (ss : List Stmt)
    (hR : List.Forall₂ (Hoisted.Agree R) (hoist Γ ss).1 (hoist Δ ss).1) :
    List.Forall₂ (fun slot slot' => slot'.errors = slot.errors) (hoist Γ ss).1 (hoist Δ ss).1 ∧
      (hoist Γ ss).2.Renamed R (hoist Δ ss).2 := by
  induction ss generalizing Γ Δ with
  | nil => exact ⟨.nil, h⟩
  | cons s ss ih =>
    obtain ⟨hfirst, hrest⟩ := List.forall₂_cons.1 hR
    obtain ⟨herrors, hone⟩ := hoistOne_renamed h s hfirst
    obtain ⟨hmore, hall⟩ := ih hone hrest
    exact ⟨.cons herrors hmore, hall⟩

end Typing

/-! ## Checking -/

namespace Expr

mutual

theorem check_renamed {Γ Δ : Context} (h : Γ.Renamed R Δ) :
    (e : Expr) → (e.check Γ).Renamed R (e.check Δ)
  | int _ _ | str _ _ | bool _ _ | null _ => rfl
  | var n x => by
    simp only [check, h.typeOf? x]
    split <;> rfl
  | unary n op e => by
    have he := check_renamed h e
    exact ⟨e.check Δ, by simp only [check, wants_congr he.alike], he⟩
  | binary n op l r => by
    have hl := check_renamed h l
    have hr := check_renamed h r
    exact ⟨l.check Δ, r.check Δ, by simp only [check, BinaryOp.typing_congr hl.alike hr.alike],
      hl, hr⟩
  | paren n e => by
    have he := check_renamed h e
    exact ⟨e.check Δ, by simp only [check, he.alike.ty], he⟩
  | list n es => by
    have hes := checkAll_renamed h es
    exact ⟨checkAll Δ es, by simp only [check, map_ty_of_alike hes.alike], hes⟩
  | call n f es symbol => by
    have hes := checkAll_renamed h es
    have hsig := h.signatureOf? f
    simp only [check]
    generalize Γ.signatureOf? f = a, Δ.signatureOf? f = b at hsig
    cases hsig with
    | none => exact ⟨checkAll Δ es, rfl, by simp [Note.typed], hes⟩
    | @some s t hst =>
      obtain ⟨hR, ht⟩ := hst
      have htyping : callTyping t n.span (checkAll Δ es) = callTyping s n.span (checkAll Γ es) := by
        rw [ht, callTyping_congr hes.alike]
        rfl
      exact ⟨checkAll Δ es, t.symbol, by simp only [htyping], hR, hes⟩

theorem checkAll_renamed {Γ Δ : Context} (h : Γ.Renamed R Δ) :
    (es : List Expr) → RenamedAll R (checkAll Γ es) (checkAll Δ es)
  | [] => rfl
  | e :: es => ⟨_, _, rfl, check_renamed h e, checkAll_renamed h es⟩

end

end Expr

namespace Stmt

/-- The symbols of the functions in the statement. -/
def symbols (s : Stmt) : List String := s.functions.map (·.header.symbol)

def symbolsOfAll (ss : List Stmt) : List String := (functionsOfAll ss).map (·.header.symbol)

theorem symbolsOfAll_cons (s : Stmt) (ss : List Stmt) :
    symbolsOfAll (s :: ss) = s.symbols ++ symbolsOfAll ss := List.map_append

theorem symbolsOfAll_append (ss ts : List Stmt) :
    symbolsOfAll (ss ++ ts) = symbolsOfAll ss ++ symbolsOfAll ts := by
  simp only [symbolsOfAll, functionsOfAll_eq, List.flatMap_append, List.map_append]

mutual

/-- Checking gives each function one symbol. -/
theorem length_symbols_check : (s : Stmt) → ∀ (Γ : Context) (slot : Hoisted),
    (s.check Γ slot).1.symbols.length = s.symbols.length
  | print _ _, _, _ | call _ _, _, _ | assign _ _ _, _, _ | declare _ _ _ _, _, _
  | ret _ none, _, _ | ret _ (some _), _, _ | invalid _ _, _, _ => rfl
  | forEach _ _ _ body, _, _ => length_symbols_checkAll body _ _
  | cond _ _ yes none, _, _ => length_symbols_checkAll yes _ _
  | cond _ _ yes (some no), _, _ => by
    simp only [check, symbols, functions, List.map_append, List.length_append]
    exact congrArg₂ (· + ·) (length_symbols_checkAll yes _ _) (length_symbols_checkAll no _ _)
  | define _ _ body, _, _ => congrArg (· + 1) (length_symbols_checkAll body _ _)

theorem length_symbols_checkAll : (ss : List Stmt) → ∀ (Γ : Context) (slots : List Hoisted),
    (symbolsOfAll (checkAll Γ slots ss).1).length = (symbolsOfAll ss).length
  | [], _, _ => rfl
  | s :: ss, _, _ => by
    simp only [checkAll, symbolsOfAll_cons, List.length_append, length_symbols_check s,
      length_symbols_checkAll ss]

end

theorem forall₂_append_inv {α : Type} {r : α → α → Prop} {as as' bs bs' : List α}
    (h : List.Forall₂ r (as ++ bs) (as' ++ bs')) (hl : as.length = as'.length) :
    List.Forall₂ r as as' ∧ List.Forall₂ r bs bs' := by
  constructor
  · have := List.forall₂_take as.length h
    rwa [List.take_left, hl, List.take_left] at this
  · have := List.forall₂_drop as.length h
    rwa [List.drop_left, hl, List.drop_left] at this

/-- The symbols that two checks gave out for a list and for the statement in front of it. -/
theorem symbols_split {s : Stmt} {ss : List Stmt} {Γ Δ : Context} {slots slots' : List Hoisted}
    (h : List.Forall₂ R (symbolsOfAll (checkAll Γ slots (s :: ss)).1)
      (symbolsOfAll (checkAll Δ slots' (s :: ss)).1)) :
    List.Forall₂ R (s.check Γ (slots.head?.getD .nothing)).1.symbols
      (s.check Δ (slots'.head?.getD .nothing)).1.symbols ∧
    List.Forall₂ R
      (symbolsOfAll (checkAll (s.check Γ (slots.head?.getD .nothing)).2 slots.tail ss).1)
      (symbolsOfAll (checkAll (s.check Δ (slots'.head?.getD .nothing)).2 slots'.tail ss).1) := by
  simp only [checkAll, symbolsOfAll_cons] at h
  exact forall₂_append_inv h (by rw [length_symbols_check, length_symbols_check])

/-- The symbol under which a function is declared is the one it gets. -/
theorem agree_of_symbols {s : Stmt} {Γ Δ : Context} {slot slot' : Hoisted} (hs : Suits slot s)
    (h : List.Forall₂ R (s.check Γ slot).1.symbols (s.check Δ slot').1.symbols) :
    Hoisted.Agree R slot slot' := by
  rintro a b rfl rfl
  obtain ⟨Θ, hΘ⟩ := hs
  cases s with
  | define n hd body => exact (List.forall₂_cons.1 h).1
  | _ => cases hΘ

theorem agree_of_symbolsOfAll {ss : List Stmt} {Γ Δ : Context} {slots slots' : List Hoisted}
    (hs : List.Forall₂ Suits slots ss) (hs' : List.Forall₂ Suits slots' ss)
    (h : List.Forall₂ R (symbolsOfAll (checkAll Γ slots ss).1)
      (symbolsOfAll (checkAll Δ slots' ss).1)) :
    List.Forall₂ (Hoisted.Agree R) slots slots' := by
  induction ss generalizing Γ Δ slots slots' with
  | nil =>
    cases hs
    cases hs'
    exact .nil
  | cons s ss ih =>
    obtain _ | ⟨hone, hmore⟩ := hs
    obtain _ | ⟨hone', hmore'⟩ := hs'
    obtain ⟨hfirst, hrest⟩ := symbols_split h
    exact .cons (agree_of_symbols hone hfirst) (ih hmore hmore' hrest)

/-- What checking a list does in related contexts. -/
def ChecksRenamed (R : String → String → Prop) (ss : List Stmt) : Prop :=
  ∀ (Γ Δ : Context) (slots slots' : List Hoisted), Γ.Renamed R Δ →
    List.Forall₂ (fun slot slot' => slot'.errors = slot.errors) slots slots' →
    List.Forall₂ R (symbolsOfAll (checkAll Γ slots ss).1) (symbolsOfAll (checkAll Δ slots' ss).1) →
    RenamedAll R (checkAll Γ slots ss).1 (checkAll Δ slots' ss).1 ∧
      (checkAll Γ slots ss).2.Renamed R (checkAll Δ slots' ss).2

theorem ChecksRenamed.block {body : List Stmt} (hc : ChecksRenamed R body) {Γ Δ : Context}
    (h : Γ.Renamed R Δ)
    (hR : List.Forall₂ R (symbolsOfAll (checkBlock Γ body).1) (symbolsOfAll (checkBlock Δ body).1)) :
    RenamedAll R (checkBlock Γ body).1 (checkBlock Δ body).1 ∧
      (checkBlock Γ body).2.Renamed R (checkBlock Δ body).2 := by
  have hagree := agree_of_symbolsOfAll (hoist_suits Γ body) (hoist_suits Δ body) hR
  obtain ⟨herrors, hhoisted⟩ := hoist_renamed h body hagree
  exact hc _ _ _ _ hhoisted herrors hR

mutual

theorem check_renamed : (s : Stmt) → ∀ {Γ Δ : Context} {slot slot' : Hoisted}, Γ.Renamed R Δ →
    slot'.errors = slot.errors →
    List.Forall₂ R (s.check Γ slot).1.symbols (s.check Δ slot').1.symbols →
    (s.check Γ slot).1.Renamed R (s.check Δ slot').1 ∧
      (s.check Γ slot).2.Renamed R (s.check Δ slot').2
  | print n e, _, _, _, _, h, _, _ | call n e, _, _, _, _, h, _, _ =>
    ⟨⟨_, rfl, e.check_renamed h⟩, h⟩
  | ret n none, Γ, Δ, _, _, h, _, _ => by
    refine ⟨?_, h⟩
    simp only [check, Renamed, h.result]
  | ret n (some e), Γ, Δ, _, _, h, _, _ => by
    have he := e.check_renamed h
    refine ⟨⟨e.check Δ, ?_, he⟩, h⟩
    simp only [check, h.result, returnErrors_congr he.alike]
  | invalid n t, _, _, _, _, h, _, _ => ⟨rfl, h⟩
  | assign n x e, Γ, Δ, _, _, h, _, _ => by
    have he := e.check_renamed h
    refine ⟨⟨e.check Δ, ?_, he⟩, h⟩
    simp only [check, assignErrors, h.typeOf? x, fits_congr he.alike]
  | declare n x t e, Γ, Δ, _, _, h, _, _ => by
    have he := e.check_renamed h
    have htyping : declareTyping t (e.check Δ) = declareTyping t (e.check Γ) := by
      cases t <;> simp only [declareTyping, fits_congr he.alike, he.alike.ty]
    obtain ⟨herrors, hbound⟩ := bind_renamed h x (declareTyping t (e.check Γ)).1 n.span
    simp only [check, htyping]
    exact ⟨⟨e.check Δ, by rw [herrors], he⟩, hbound⟩
  | forEach n x e body, Γ, Δ, _, _, h, _, hR => by
    have he := e.check_renamed h
    obtain ⟨herrors, hbound⟩ := bind_renamed h.push x (loopTyping (e.check Γ)).1 n.span
    simp only [check, loopTyping_congr he.alike] at hR ⊢
    obtain ⟨hbody, hinner⟩ := (checkAll_renamed body).block hbound hR
    exact ⟨⟨e.check Δ, _, by rw [herrors]; rfl, he, hbody⟩, hinner.pop⟩
  | cond n e yes none, Γ, Δ, _, _, h, _, hR => by
    have he := e.check_renamed h
    obtain ⟨hbody, hinner⟩ := (checkAll_renamed yes).block h.push hR
    exact ⟨⟨e.check Δ, _, by simp only [check, wants_congr he.alike]; rfl, he, hbody⟩, hinner.pop⟩
  | cond n e yes (some no), Γ, Δ, _, _, h, _, hR => by
    have he := e.check_renamed h
    simp only [check, symbols, functions, List.map_append] at hR
    obtain ⟨hyes, hno⟩ := forall₂_append_inv hR (by
      exact (length_symbols_checkAll yes _ _).trans (length_symbols_checkAll yes _ _).symm)
    obtain ⟨hbody, hinner⟩ := (checkAll_renamed yes).block h.push hyes
    obtain ⟨hbody', hinner'⟩ := (checkAll_renamed no).block hinner.pop.push hno
    exact ⟨⟨e.check Δ, _, _, by simp only [check, wants_congr he.alike]; rfl, he, hbody, hbody'⟩,
      hinner'.pop⟩
  | define n hd body, Γ, Δ, slot, slot', h, hslot, hR => by
    obtain ⟨hown, hR⟩ := List.forall₂_cons.1 hR
    obtain ⟨herrors, hbound⟩ := bindAll_renamed (h.enter hd.resultTy) n.span hd.params
    obtain ⟨hbody, hinner⟩ := (checkAll_renamed body).block hbound hR
    refine ⟨⟨(slot'.header hd).symbol, _, ?_, hown, hbody⟩, h.leave hinner⟩
    simp only [check, hslot, herrors]
    rw [← Hoisted.header_renamed slot slot' hd]
    rfl

theorem checkAll_renamed : (ss : List Stmt) → ChecksRenamed R ss
  | [], _, _, _, _, h, _, _ => ⟨rfl, h⟩
  | s :: ss, Γ, Δ, slots, slots', h, hslots, hR => by
    obtain ⟨hfirst, hrest⟩ := symbols_split hR
    have hhead : (slots'.head?.getD .nothing).errors = (slots.head?.getD .nothing).errors := by
      cases hslots with
      | nil => rfl
      | cons he _ => exact he
    have htail : List.Forall₂ (fun slot slot' => slot'.errors = slot.errors) slots.tail
        slots'.tail := by
      cases hslots with
      | nil => exact .nil
      | cons _ hs => exact hs
    obtain ⟨hone, hnext⟩ := check_renamed s h hhead hfirst
    obtain ⟨hmore, hend⟩ := checkAll_renamed ss _ _ _ _ hnext htail hrest
    exact ⟨⟨_, _, rfl, hone, hmore⟩, hend⟩

end

end Stmt

end CatScript
