import CatScript.JavaScript.Emit
import CatScript.Proofs.Grammar.Spelling
import CatScript.Proofs.JavaScript.Tree

/-!
# What a script's expressions mean

A tree of a script means an expression. `$add(l, r)` is the sum of `l` and `r`, `$eq(l, r)` says
that they are equal and `!$eq(l, r)` that they are not, and `Math.trunc(l / r)` is their quotient; a
division that nothing rounds means nothing. The words for the truth values and null are literals, and
any other name is a variable.

`Expr.tree` is the tree that an expression is emitted as. Groups stay where they are in the source,
and a sign behind a sign gets a group more, so the two agree once groups are left out (`ungrouped`).

The tree is grouped if the expression is. Equality and sums have become calls and bind tightest, and
all else keeps its level relative to the rest (`level_tree`).

Results:
* `Grouped.tree`: the tree of a grouped expression is grouped.
* `Plain.means`: it means the expression, if names are names and integers have no sign.
-/
namespace CatScript

open JavaScript (Tree Op)
open Token (Kind)

/-! ## What an expression of a script means -/

namespace Expr

/-- What is known of a node that was not read from a source. -/
def Note.unread : Note := .fresh .nowhere []

mutual

/-- The expression without its groups and the notes of its nodes. -/
def ungrouped : Expr → Expr
  | int _ v => int .unread v
  | str _ v => str .unread v
  | bool _ v => bool .unread v
  | null _ => null .unread
  | var _ x => var .unread x
  | unary _ op e => unary .unread op e.ungrouped
  | binary _ op l r => binary .unread op l.ungrouped r.ungrouped
  | paren _ e => e.ungrouped
  | list _ es => list .unread (ungroupedAll es)
  | call _ f es _ => call .unread f (ungroupedAll es) none

def ungroupedAll : List Expr → List Expr
  | [] => []
  | e :: es => e.ungrouped :: ungroupedAll es

end

end Expr

namespace JavaScript

/-- The operator that an infix one means on its own. Division rounds only inside `Math.trunc`. -/
def Op.meaning? : Op → Option BinaryOp
  | .lt => some .lt
  | .le => some .le
  | .gt => some .gt
  | .ge => some .ge
  | .sub => some .sub
  | .mul => some .mul
  | .div => none

namespace Tree

def operation (op : BinaryOp) (l r : Option Expr) : Option Expr :=
  l.bind fun l => r.map fun r => .binary .unread op l r

mutual

/-- The expression that a tree is the script of. -/
def meaning? : Tree → Option Expr
  | number n => if n < 2 ^ 63 then some (.int .unread (.ofNat n)) else none
  | string s => some (.str .unread s)
  | name x =>
    if x = "true" then some (.bool .unread true)
    else if x = "false" then some (.bool .unread false)
    else if x = "null" then some (.null .unread)
    else some (.var .unread x)
  | negate t => t.meaning?.map (.unary .unread .negate)
  | not (call "$eq" [l, r]) => operation .ne l.meaning? r.meaning?
  | not t => t.meaning?.map (.unary .unread .not)
  | binary op l r => op.meaning?.bind fun op => operation op l.meaning? r.meaning?
  | paren t => t.meaning?.map (.paren .unread)
  | array ts => (meaningOfAll? ts).map (.list .unread)
  | call "$add" [l, r] => operation .add l.meaning? r.meaning?
  | call "$eq" [l, r] => operation .eq l.meaning? r.meaning?
  | call f ts => (meaningOfAll? ts).map fun es => .call .unread f es none
  | method "Math" "trunc" [binary .div l r] => operation .div l.meaning? r.meaning?
  | method _ _ _ => none

def meaningOfAll? : List Tree → Option (List Expr)
  | [] => some []
  | t :: ts => t.meaning?.bind fun e => (meaningOfAll? ts).map (e :: ·)

end

end Tree

/-- Reads the text of an expression to its end. -/
def read (text : String) : Option Expr := (readTree text.toList).bind Tree.meaning?

end JavaScript

/-! ## The tree of an emitted expression -/

def UnaryOp.tree : UnaryOp → Tree → Tree
  | negate => .negate
  | not => .not

def BinaryOp.tree (op : BinaryOp) (l r : Tree) : Tree :=
  match op with
  | add => .call "$add" [l, r]
  | sub => .binary .sub l r
  | mul => .binary .mul l r
  | div => .method "Math" "trunc" [.binary .div l r]
  | gt => .binary .gt l r
  | ge => .binary .ge l r
  | lt => .binary .lt l r
  | le => .binary .le l r
  | eq => .call "$eq" [l, r]
  | ne => .not (.call "$eq" [l, r])

namespace Expr

mutual

def tree : Expr → Tree
  | int _ v => .number v.toInt.toNat
  | str _ v => .string v
  | bool _ v => .name (if v then "true" else "false")
  | null _ => .name "null"
  | var _ x => .name x
  | unary _ op e => op.tree (if e.isUnary then .paren e.tree else e.tree)
  | binary _ op l r => op.tree l.tree r.tree
  | paren _ e => .paren e.tree
  | list _ es => .array (treesOfAll es)
  | call _ f es _ => .call f (treesOfAll es)

def treesOfAll : List Expr → List Tree
  | [] => []
  | e :: es => e.tree :: treesOfAll es

end

/-- What binds tightly in the source does so in the script. -/
theorem level_tree (e : Expr) : 4 ≤ e.tree.level + e.level.height := by
  cases e with
  | unary n op e => cases op <;> exact Nat.le_refl 4
  | binary n op l r => cases op <;> exact Nat.le_of_ble_eq_true rfl
  | _ => exact Nat.le_refl 4

/-- An operand of a sign is a sign itself or binds tightest. -/
theorem level_operand {e : Expr} (h : e.level.height ≤ Grammar.Level.unary.height)
    (hu : e.isUnary = false) : e.level.height = 0 := by
  cases e with
  | unary n op e => cases hu
  | binary n op l r =>
    cases op <;> exact absurd h (by simp [level, BinaryOp.level, Grammar.Level.height])
  | _ => rfl

theorem level_sign {e : Expr} (h : e.level.height ≤ Grammar.Level.unary.height) :
    3 ≤ (if e.isUnary then Tree.paren e.tree else e.tree).level := by
  split
  · exact Nat.le_succ 3
  · next hu =>
    have := e.level_tree
    have := level_operand h (by simpa using hu)
    omega

mutual

theorem Grouped.tree : (e : Expr) → e.Grouped → e.tree.Grouped
  | int _ _, _ | str _ _, _ | bool _ _, _ | null _, _ | var _ _, _ => trivial
  | unary _ op e, ⟨hl, he⟩ => by
    have hlevel := level_sign hl
    have hgroup : (if e.isUnary then Tree.paren e.tree else e.tree).Grouped := by
      split <;> exact Grouped.tree e he
    cases op <;> exact ⟨hlevel, hgroup⟩
  | binary _ op l r, ⟨hl, hr, hgl, hgr⟩ => by
    have hl' := l.level_tree
    have hr' := r.level_tree
    have hboth : Tree.GroupedAll [l.tree, r.tree] :=
      ⟨Grouped.tree l hgl, Grouped.tree r hgr, trivial⟩
    have hbinary (o : Op) (ho : o.level + op.level.height = 4) :
        (Tree.binary o l.tree r.tree).Grouped :=
      ⟨by omega, by omega, hboth.1, hboth.2.1⟩
    cases op with
    | add | eq => exact hboth
    | ne => exact ⟨Nat.le_succ 3, hboth⟩
    | div => exact ⟨hbinary .div rfl, trivial⟩
    | _ => exact hbinary _ rfl
  | paren _ e, h => Grouped.tree e h
  | list _ es, h | call _ _ es _, h => GroupedAll.trees es h

theorem GroupedAll.trees : (es : List Expr) → GroupedAll es → Tree.GroupedAll (treesOfAll es)
  | [], _ => trivial
  | e :: es, h => ⟨Grouped.tree e h.1, GroupedAll.trees es h.2⟩

end

end Expr

/-! ## Names and numbers of a source -/

/-- A word that is no keyword. -/
structure IsName (x : String) : Prop where
  word : ∃ c cs, x.toList = c :: cs ∧ Token.startsWord c = true ∧ ∀ d ∈ cs, Token.inWord d = true
  kind : Kind.ofWord x = .identifier

theorem IsName.ne {x y : String} (h : IsName x) (hy : Kind.ofWord y ≠ .identifier) : x ≠ y := by
  rintro rfl
  exact hy h.kind

theorem IsName.ne_of_dollar {x y : String} (h : IsName x) (hy : y.toList.head? = some '$') :
    x ≠ y := by
  rintro rfl
  obtain ⟨c, cs, hx, hc, -⟩ := h.word
  rw [hx, List.head?_cons, Option.some.injEq] at hy
  subst hy
  revert hc
  decide

namespace Expr

mutual

/-- Integers have no sign and names are names. -/
def Plain : Expr → Prop
  | int _ v => 0 ≤ v
  | str _ _ | bool _ _ | null _ => True
  | var _ x => IsName x
  | unary _ _ e | paren _ e => e.Plain
  | binary _ _ l r => l.Plain ∧ r.Plain
  | list _ es => PlainAll es
  | call _ f es _ => IsName f ∧ PlainAll es

def PlainAll : List Expr → Prop
  | [] => True
  | e :: es => e.Plain ∧ PlainAll es

end

/-! ## What the tree means -/

/-- The tree means the expression, apart from groups. -/
def Means (t : Tree) (e : Expr) : Prop := ∃ e', t.meaning? = some e' ∧ e'.ungrouped = e.ungrouped

theorem Means.operation {l r : Tree} {d e : Expr} (hl : Means l d) (hr : Means r e)
    (op : BinaryOp) (n : Note) :
    ∃ e', Tree.operation op l.meaning? r.meaning? = some e' ∧
      e'.ungrouped = (binary n op d e).ungrouped := by
  obtain ⟨d', hd, hsame⟩ := hl
  obtain ⟨e', he, hsame'⟩ := hr
  exact ⟨binary .unread op d' e', by rw [hd, he]; rfl, by simp only [ungrouped, hsame, hsame']⟩

theorem Means.binary {l r : Tree} {d e : Expr} (hl : Means l d) (hr : Means r e)
    (op : BinaryOp) (n : Note) : Means (op.tree l r) (binary n op d e) := by
  obtain ⟨e', he, hsame⟩ := Means.operation hl hr op n
  refine ⟨e', ?_, hsame⟩
  cases op <;> simpa [BinaryOp.tree, Tree.meaning?, Op.meaning?] using he

theorem Means.paren {t : Tree} {e : Expr} (h : Means t e) : Means (.paren t) e := by
  obtain ⟨e', he, hsame⟩ := h
  exact ⟨.paren .unread e', by rw [Tree.meaning?, he]; rfl, hsame⟩

/-- A sign in front of an operand that is no call of `$eq`. -/
theorem Means.unary {t : Tree} {e : Expr} (h : Means t e) (ht : ∀ ts, t ≠ .call "$eq" ts)
    (op : UnaryOp) (n : Note) : Means (op.tree t) (unary n op e) := by
  obtain ⟨e', he, hsame⟩ := h
  refine ⟨.unary .unread op e', ?_, by simp only [ungrouped, hsame]⟩
  cases op with
  | negate => rw [UnaryOp.tree, Tree.meaning?, he]; rfl
  | not =>
    rw [UnaryOp.tree, Tree.meaning?, he]
    · rfl
    · exact fun l r => ht [l, r]

theorem tree_ne_equality {e : Expr} (hl : e.level.height = 0) (hp : e.Plain) (ts : List Tree) :
    e.tree ≠ .call "$eq" ts := by
  cases e with
  | call n f es symbol =>
    intro h
    exact hp.1.ne_of_dollar (y := "$eq") rfl (Tree.call.inj h).1
  | unary n op e => cases hl
  | binary n op l r => cases op <;> cases hl
  | _ => exact nofun

mutual

theorem Plain.means : (e : Expr) → e.Plain → e.Grouped → Means e.tree e
  | int _ v, hv, _ => by
    have hpos : 0 ≤ v.toInt := by simpa using Int64.le_iff_toInt_le.1 hv
    have hlt : v.toInt.toNat < 2 ^ 63 := by
      have := v.toInt_lt
      omega
    refine ⟨int .unread (.ofNat v.toInt.toNat), by rw [tree, Tree.meaning?, if_pos hlt], ?_⟩
    have : Int64.ofNat v.toInt.toNat = v := by
      rw [← Int64.ofInt_eq_ofNat, Int.toNat_of_nonneg hpos, Int64.ofInt_toInt]
    rw [this]
    rfl
  | str _ v, _, _ => ⟨str .unread v, rfl, rfl⟩
  | bool _ true, _, _ => ⟨bool .unread true, rfl, rfl⟩
  | bool _ false, _, _ => ⟨bool .unread false, rfl, rfl⟩
  | null _, _, _ => ⟨null .unread, rfl, rfl⟩
  | var _ x, hx, _ => by
    refine ⟨var .unread x, ?_, rfl⟩
    rw [tree, Tree.meaning?, if_neg (hx.ne (by decide)), if_neg (hx.ne (by decide)),
      if_neg (hx.ne (by decide))]
  | unary n op e, he, ⟨hl, hg⟩ => by
    have ih := Plain.means e he hg
    rw [tree]
    split
    · exact ih.paren.unary nofun op n
    · next hu =>
      have hzero := level_operand hl (by simpa using hu)
      exact ih.unary (tree_ne_equality hzero he) op n
  | binary n op l r, ⟨hl, hr⟩, ⟨_, _, hgl, hgr⟩ =>
    (Plain.means l hl hgl).binary (Plain.means r hr hgr) op n
  | paren _ e, he, hg => (Plain.means e he hg).paren
  | list _ es, hes, hg => by
    obtain ⟨es', hes', hsame⟩ := PlainAll.means es hes hg
    exact ⟨list .unread es', by rw [tree, Tree.meaning?, hes']; rfl,
      by simp only [ungrouped, hsame]⟩
  | call _ f es _, ⟨hf, hes⟩, hg => by
    obtain ⟨es', hes', hsame⟩ := PlainAll.means es hes hg
    refine ⟨call .unread f es' none, ?_, by simp only [ungrouped, hsame]⟩
    rw [tree, Tree.meaning?, hes']
    · rfl
    · rintro l r rfl
      exact absurd rfl (hf.ne_of_dollar (y := "$add") rfl)
    · rintro l r rfl
      exact absurd rfl (hf.ne_of_dollar (y := "$eq") rfl)

theorem PlainAll.means : (es : List Expr) → PlainAll es → GroupedAll es →
    ∃ es', Tree.meaningOfAll? (treesOfAll es) = some es' ∧ ungroupedAll es' = ungroupedAll es
  | [], _, _ => ⟨[], rfl, rfl⟩
  | e :: es, ⟨he, hes⟩, ⟨hg, hgs⟩ => by
    obtain ⟨e', he', hsame⟩ := Plain.means e he hg
    obtain ⟨es', hes', hsames⟩ := PlainAll.means es hes hgs
    exact ⟨e' :: es', by rw [treesOfAll, Tree.meaningOfAll?, he', hes']; rfl,
      by simp only [ungroupedAll, hsame, hsames]⟩

end

end Expr

end CatScript
