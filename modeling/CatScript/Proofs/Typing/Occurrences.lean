import CatScript.Proofs.Grammar.Spans
import CatScript.Proofs.Typing.Probe

/-!
# Occurrences of variables

The occurrences of a program are the places at which a name stands for a variable, read off the
tree: the names that are expressions and the targets of assignments. Each of them has a token of
its own, from which it has its name and the start of its span, so no two of them are the same.

Results:
* `Program.probe_occurrences`: checking looks each occurrence up once.
* `Program.parse_occurrences`: the occurrences of a source text start one behind the other.
-/
namespace CatScript

open Token (Hull InOrder)

namespace Expr

mutual

/-- The occurrences in an expression, in the order of the source. -/
def occurrences : Expr → List Occurrence
  | var n x => [⟨n.span, x⟩]
  | int _ _ | str _ _ | bool _ _ | null _ => []
  | unary _ _ e | paren _ e => e.occurrences
  | binary _ _ l r => l.occurrences ++ r.occurrences
  | list _ es | call _ _ es _ => occurrencesOfAll es

def occurrencesOfAll : List Expr → List Occurrence
  | [] => []
  | e :: es => e.occurrences ++ occurrencesOfAll es

end

end Expr

namespace Stmt

mutual

/-- The occurrences in a statement, in the order of the source. The target of an assignment stands
in front of its value. -/
def occurrences : Stmt → List Occurrence
  | print _ e | call _ e | declare _ _ _ e => e.occurrences
  | forEach _ _ e body | cond _ e body none => e.occurrences ++ occurrencesOfAll body
  | cond _ e yes (some no) => e.occurrences ++ (occurrencesOfAll yes ++ occurrencesOfAll no)
  | assign n x e => ⟨n.span, x⟩ :: e.occurrences
  | define _ _ body => occurrencesOfAll body
  | ret _ none => []
  | ret _ (some e) => e.occurrences
  | invalid _ _ => []

def occurrencesOfAll : List Stmt → List Occurrence
  | [] => []
  | s :: ss => s.occurrences ++ occurrencesOfAll ss

end

end Stmt

def Program.occurrences (p : Program) : List Occurrence :=
  match p.body with
  | .expression e => e.occurrences
  | .statements ss => Stmt.occurrencesOfAll ss

/-! ## Each is looked up once -/

open Typing

namespace Expr

mutual

theorem probe_occurrences (Γ : Context) :
    (e : Expr) → (e.probe Γ).found.map Prod.fst = e.occurrences
  | int _ _ | str _ _ | bool _ _ | null _ => by simp [probe, occurrences]
  | var n x => by
    simp only [probe, occurrences, Probed.found_bind, found_seek, value_seek]
    cases Γ.typeOf? x <;> rfl
  | unary _ _ e | paren _ e => by simp [probe, occurrences, probe_occurrences Γ e]
  | binary _ _ l r => by
    simp [probe, occurrences, probe_occurrences Γ l, probe_occurrences Γ r]
  | list _ es => by simp [probe, occurrences, probeAll_occurrences Γ es]
  | call _ f es _ => by
    simp only [probe, occurrences, Probed.found_bind, found_seekFunction, value_seekFunction,
      ← probeAll_occurrences Γ es]
    cases Γ.signatureOf? f <;> simp

theorem probeAll_occurrences (Γ : Context) :
    (es : List Expr) → (probeAll Γ es).found.map Prod.fst = occurrencesOfAll es
  | [] => rfl
  | e :: es => by
    simp [probeAll, occurrencesOfAll, probe_occurrences Γ e, probeAll_occurrences Γ es]

end

end Expr

namespace Stmt

mutual

theorem probe_occurrences : (s : Stmt) → ∀ (Γ : Context) (slot : Hoisted),
    ((s.probe Γ slot).found.map Prod.fst).Perm s.occurrences
  | print _ e, Γ, slot | call _ e, Γ, slot | declare _ _ _ e, Γ, slot
  | ret _ (some e), Γ, slot => by simp [probe, occurrences, Expr.probe_occurrences]
  | ret _ none, Γ, slot | invalid _ _, Γ, slot => by simp [probe, occurrences]
  | forEach _ _ e body, Γ, slot => by
    simpa [probe, occurrences, Expr.probe_occurrences] using
      (probeAll_occurrences body _ _).append_left e.occurrences
  | cond _ e yes none, Γ, slot => by
    simpa [probe, occurrences, Expr.probe_occurrences] using
      (probeAll_occurrences yes _ _).append_left e.occurrences
  | cond _ e yes (some no), Γ, slot => by
    simpa [probe, occurrences, Expr.probe_occurrences] using
      ((probeAll_occurrences yes _ _).append (probeAll_occurrences no _ _)).append_left e.occurrences
  | define _ _ body, Γ, slot => by
    simpa [probe, occurrences] using probeAll_occurrences body _ _
  -- the target is looked up behind the value
  | assign n x e, Γ, slot => by
    have hfound : ((assign n x e).probe Γ slot).found.map Prod.fst =
        e.occurrences ++ [⟨n.span, x⟩] := by
      simp only [probe, Probed.found_bind, found_seek, value_seek]
      cases Γ.typeOf? x <;> simp [Expr.probe_occurrences]
    rw [hfound]
    exact List.perm_append_singleton ..

theorem probeAll_occurrences : (ss : List Stmt) → ∀ (Γ : Context) (slots : List Hoisted),
    ((probeAll Γ slots ss).found.map Prod.fst).Perm (occurrencesOfAll ss)
  | [], Γ, slots => by simp [probeAll, occurrencesOfAll]
  | s :: ss, Γ, slots => by
    simpa [probeAll, occurrencesOfAll] using
      (probe_occurrences s Γ _).append (probeAll_occurrences ss _ slots.tail)

end

end Stmt

/-- Checking looks each occurrence up once. -/
theorem Program.probe_occurrences (p : Program) :
    (p.probe.found.map Prod.fst).Perm p.occurrences := by
  obtain ⟨body, span⟩ := p
  cases body with
  | expression e => simp [probe, occurrences, Expr.probe_occurrences]
  | statements ss =>
    simpa [probe, occurrences, Stmt.probeBlock] using Stmt.probeAll_occurrences ss _ _

/-! ## Each has a token -/

/-- Where a token starts and what it says. -/
def Token.mark (t : Token) : Nat × String := (t.span.start, t.value)

/-- Where an occurrence starts and which name it is. -/
def Occurrence.mark (o : Occurrence) : Nat × String := (o.span.start, o.name)

theorem Token.Hull.mark {span : Span} {t : Token} {ts : List Token} (h : Hull span (t :: ts))
    {x : String} (hx : t.value = x) : (⟨span, x⟩ : Occurrence).mark = t.mark := by
  obtain ⟨first, last, hf, -, rfl⟩ := h
  cases hf
  subst hx
  rfl

/-- The occurrences have tokens among the given ones, in the same order. -/
def Rooted (os : List Occurrence) (ts : List Token) : Prop :=
  (os.map Occurrence.mark).Sublist (ts.map Token.mark)

namespace Rooted

variable {os ps : List Occurrence} {ts us : List Token}

theorem nil : Rooted [] ts := List.nil_sublist _

theorem append (h : Rooted os ts) (h' : Rooted ps us) : Rooted (os ++ ps) (ts ++ us) := by
  unfold Rooted
  rw [List.map_append, List.map_append]
  exact List.Sublist.append h h'

theorem sublist (h : Rooted os ts) (hs : ts.Sublist us) : Rooted os us :=
  h.trans (hs.map _)

theorem cons {o : Occurrence} {t : Token} (ho : o.mark = t.mark) (h : Rooted os ts) :
    Rooted (o :: os) (t :: ts) := by
  unfold Rooted
  rw [List.map_cons, List.map_cons, ho]
  exact h.cons_cons _

/-- Occurrences of different tokens start one behind the other. -/
theorem ordered (h : Rooted os ts) (ho : InOrder ts) :
    os.Pairwise fun o p => o.span.start < p.span.start := by
  have hts : (ts.map Token.mark).Pairwise fun a b => a.1 < b.1 := by
    rw [List.pairwise_map]
    refine ho.2.imp_of_mem fun ht _ hbefore => ?_
    exact Nat.lt_of_lt_of_le (ho.1 _ ht) hbefore
  have hos : (os.map Occurrence.mark).Pairwise fun a b => a.1 < b.1 := hts.sublist h
  rwa [List.pairwise_map] at hos

end Rooted

namespace Expr

mutual

theorem Spells.rooted : (e : Expr) → ∀ {ts : List Token}, e.Spells Hull ts →
    Rooted e.occurrences ts
  | int _ _, _, _ | str _ _, _, _ | bool _ _, _, _ | null _, _, _ => .nil
  | var n x, ts, ⟨hn, _, t, hts, _, hv⟩ => by
    subst hts
    exact .cons (hn.mark hv) .nil
  | unary n op e, ts, ⟨_, _, t, es, hts, _, he⟩ => by
    subst hts
    exact (Spells.rooted e he).sublist (List.sublist_cons_self t es)
  | binary n op l r, ts, ⟨_, _, ls, t, rs, hts, _, hl, hr⟩ => by
    subst hts
    exact (Spells.rooted l hl).append ((Spells.rooted r hr).sublist (List.sublist_cons_self t rs))
  | paren n e, ts, ⟨_, t, es, close, hts, _, he, _⟩ => by
    subst hts
    exact (Spells.rooted e he).sublist ((List.sublist_append_left es close).cons t)
  | list n es, ts, ⟨_, t, is, close, hts, _, hes, _⟩ => by
    subst hts
    exact (SpellsAll.rooted es hes).sublist ((List.sublist_append_left is close).cons t)
  | call n f es symbol, ts, ⟨_, name, t, is, close, hts, _, _, _, hes, _⟩ => by
    subst hts
    exact (SpellsAll.rooted es hes).sublist (((List.sublist_append_left is close).cons t).cons name)

theorem SpellsAll.rooted : (es : List Expr) → ∀ {ts : List Token}, SpellsAll Hull es ts →
    Rooted (occurrencesOfAll es) ts
  | [], _, _ => .nil
  | [e], ts, h => by
    simpa only [occurrencesOfAll, List.append_nil] using Spells.rooted e h
  | e :: d :: es, ts, ⟨a, t, b, hts, he, _, hes⟩ => by
    subst hts
    exact (Spells.rooted e he).append
      ((SpellsAll.rooted (d :: es) hes).sublist (List.sublist_cons_self t b))

end

end Expr

/-- Occurrences between braces. -/
theorem Token.Braced.rooted {P : List Token → Prop} {os : List Occurrence} {ts : List Token}
    (h : Token.Braced P ts) (hP : ∀ {us : List Token}, P us → Rooted os us) : Rooted os ts := by
  obtain ⟨opening, inner, closing, rfl, -, hinner, -⟩ := h
  refine (hP hinner).sublist ?_
  exact (List.sublist_append_left inner closing).trans (List.sublist_append_right opening _)

namespace Stmt

mutual

theorem Covers.rooted : (s : Stmt) → ∀ {ts : List Token}, s.Covers Hull ts →
    Rooted s.occurrences ts
  | print n e, _, ⟨_, t, opening, es, closing, hts, _, _, he, _⟩ => by
    subst hts
    exact he.rooted.sublist (by grind)
  | forEach n _ e body, _,
      ⟨_, t, opening, name, kw, es, closing, bs, hts, _, _, _, _, he, _, hb⟩ => by
    subst hts
    exact (he.rooted.append (hb.rooted (CoversAll.rooted body))).sublist (by grind)
  | cond n e yes none, _, ⟨_, t, opening, es, closing, bs, hts, _, _, he, _, hb⟩ => by
    subst hts
    exact (he.rooted.append (hb.rooted (CoversAll.rooted yes))).sublist (by grind)
  | cond n e yes (some no), _,
      ⟨_, t, opening, es, closing, bs, kw, ds, hts, _, _, he, _, hb, _, hd⟩ => by
    subst hts
    have hboth := (hb.rooted (CoversAll.rooted yes)).append (hd.rooted (CoversAll.rooted no))
    exact (he.rooted.append hboth).sublist (by grind)
  | declare n _ declared e, _, ⟨_, t, name, ty, equal, es, hts, _, _, _, _, he⟩ => by
    subst hts
    exact he.rooted.sublist (by grind)
  | assign n x e, _, ⟨hn, t, equal, es, hts, _, hv, _, he⟩ => by
    subst hts
    exact .cons (hn.mark hv) (he.rooted.sublist (List.sublist_cons_self equal es))
  | call n e, _, ⟨_, he⟩ => he.rooted
  | define n _ body, _, ⟨_, t, head, bs, hts, _, hb⟩ => by
    subst hts
    exact (hb.rooted (CoversAll.rooted body)).sublist ((List.sublist_append_right head bs).cons t)
  | ret n none, _, _ | invalid _ _, _, _ => .nil
  | ret n (some e), _, ⟨_, t, es, hts, _, he⟩ => by
    subst hts
    exact he.rooted.sublist (List.sublist_cons_self t es)

theorem CoversAll.rooted : (ss : List Stmt) → ∀ {ts : List Token}, CoversAll Hull ss ts →
    Rooted (occurrencesOfAll ss) ts
  | [], _, _ => .nil
  | s :: ss, _, ⟨as, bs, hts, hs, hss⟩ => by
    subst hts
    exact (Covers.rooted s hs).append (CoversAll.rooted ss hss)

end

end Stmt

namespace Program

theorem Covers.rooted {p : Program} {ts : List Token} (h : p.Covers Hull ts) :
    Rooted p.occurrences ts := by
  obtain ⟨body, span⟩ := p
  cases body with
  | expression e => exact Expr.Spells.rooted e h
  | statements ss => exact Stmt.CoversAll.rooted ss h

/-- The occurrences of a source text start one behind the other. -/
theorem parse_occurrences (source file : String) :
    (parse source file).occurrences.Pairwise fun o p => o.span.start < p.span.start := by
  obtain ⟨hrefined, hcover, -⟩ := parse_spans source file
  obtain ⟨hscan, hwide⟩ := Token.scan_inOrder source file
  exact hcover.rooted.ordered
    (hrefined.inOrder (fun t ht => hwide t (List.mem_filter.1 ht).1) hscan)

end Program

end CatScript
