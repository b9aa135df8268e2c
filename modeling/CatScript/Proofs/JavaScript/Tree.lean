import CatScript.Proofs.JavaScript.Lexeme

/-!
# JavaScript expressions

    binary at a level = binary one level tighter, then any number of: operator of the level, binary
                        one level tighter
    unary             = "-" unary | "!" unary | primary
    primary           = NUMBER | STRING | NAME | NAME "(" [expr, ...] ")"
                      | NAME "." NAME "(" [expr, ...] ")" | "[" [expr, ...] "]" | "(" expr ")"

| level | operators         |
|-------|-------------------|
| 0     | `<` `<=` `>` `>=` |
| 1     | `-`               |
| 2     | `*` `/`           |
| 3     | none: unary       |

Operators of one level associate to the left. `lexemes` writes a tree without brackets of its own, so
it can be read back only if its operands bind as tightly as their operation demands (`Grouped`).

The readers recur over the lexemes that are left. A reader that goes on behind an operand asks
whether fewer are left there, which is always so.

Results:
* `Tree.Grouped.reads`: the lexemes of a grouped tree are read as it, up to a lexeme that cannot go
  on with it.
-/
namespace CatScript.JavaScript

/-! ## Trees -/

inductive Op where
  | lt
  | le
  | gt
  | ge
  | sub
  | mul
  | div
  deriving DecidableEq, Repr

namespace Op

def text : Op → String
  | lt => "<"
  | le => "<="
  | gt => ">"
  | ge => ">="
  | sub => "-"
  | mul => "*"
  | div => "/"

def level : Op → Nat
  | lt | le | gt | ge => 0
  | sub => 1
  | mul | div => 2

/-- The operator that a mark is at a level. -/
def ofMark? (level : Nat) (mark : String) : Option Op :=
  [lt, le, gt, ge, sub, mul, div].find? fun op => op.text = mark ∧ op.level = level

theorem ofMark?_text (op : Op) : ofMark? op.level op.text = some op := by
  cases op <;> decide

theorem ofMark?_of_ne {op : Op} {level : Nat} (h : level ≠ op.level) :
    ofMark? level op.text = none := by
  cases op <;> simp_all [ofMark?, text, Op.level, eq_comm]

end Op

inductive Tree where
  | number (value : Nat)
  | string (value : String)
  | name (text : String)
  | negate (operand : Tree)
  | not (operand : Tree)
  | binary (op : Op) (left right : Tree)
  | paren (inner : Tree)
  | array (items : List Tree)
  | call (name : String) (args : List Tree)
  | method (object name : String) (args : List Tree)
  deriving Repr

/-! ## Reading -/

/-- What was read, and the lexemes behind it. -/
abbrev Reading (α : Type) := Option (α × List Lexeme)

mutual

def binaryAt (level : Nat) (ls : List Lexeme) : Reading Tree :=
  if level < 3 then
    match binaryAt (level + 1) ls with
    | none => none
    | some (left, rest) => if _h : rest.length < ls.length then chainAt level left rest else none
  else unary ls
termination_by (ls.length, 3 + (3 - level))

/-- The operators of the level that follow `left`, with their right operands. -/
def chainAt (level : Nat) (left : Tree) (ls : List Lexeme) : Reading Tree :=
  match ls with
  | .mark m :: tail =>
    match Op.ofMark? level m with
    | none => some (left, .mark m :: tail)
    | some op =>
      match binaryAt (level + 1) tail with
      | none => none
      | some (right, rest) =>
        if _h : rest.length < tail.length then chainAt level (.binary op left right) rest else none
  | ls => some (left, ls)
termination_by (ls.length, 0)
decreasing_by
  all_goals simp_wf
  all_goals omega

def unary (ls : List Lexeme) : Reading Tree :=
  match ls with
  | .mark "-" :: rest => (unary rest).map fun (t, rest) => (.negate t, rest)
  | .mark "!" :: rest => (unary rest).map fun (t, rest) => (.not t, rest)
  | ls => primary ls
termination_by (ls.length, 2)

def primary (ls : List Lexeme) : Reading Tree :=
  match ls with
  | .number n :: rest => some (.number n, rest)
  | .string s :: rest => some (.string s, rest)
  | .name f :: .mark "(" :: rest =>
    (items ")" rest).map fun (args, rest) => (.call f args, rest)
  | .name x :: .mark "." :: .name f :: .mark "(" :: rest =>
    (items ")" rest).map fun (args, rest) => (.method x f args, rest)
  | .name x :: rest => some (.name x, rest)
  | .mark "[" :: rest => (items "]" rest).map fun (es, rest) => (.array es, rest)
  | .mark "(" :: rest =>
    match binaryAt 0 rest with
    | some (t, .mark ")" :: rest) => some (.paren t, rest)
    | _ => none
  | _ => none
termination_by (ls.length, 1)

/-- Expressions up to a closing bracket, with commas between them. -/
def items (close : String) (ls : List Lexeme) : Reading (List Tree) :=
  match ls with
  | .mark m :: rest => if m = close then some ([], rest) else seq close (.mark m :: rest)
  | ls => seq close ls
termination_by (ls.length, 8)

def seq (close : String) (ls : List Lexeme) : Reading (List Tree) :=
  match binaryAt 0 ls with
  | some (t, .mark "," :: rest) =>
    if _h : rest.length < ls.length then
      (seq close rest).map fun (ts, rest) => (t :: ts, rest)
    else none
  | some (t, .mark m :: rest) => if m = close then some ([t], rest) else none
  | _ => none
termination_by (ls.length, 7)

end

/-- The expression that a text is, if it is one to its end. -/
def readTree (cs : List Char) : Option Tree :=
  match (lex cs).bind (binaryAt 0) with
  | some (t, []) => some t
  | _ => none

/-! ## Writing -/

namespace Tree

mutual

def lexemes : Tree → List Lexeme
  | number n => [.number n]
  | string s => [.string s]
  | name x => [.name x]
  | negate t => .mark "-" :: t.lexemes
  | not t => .mark "!" :: t.lexemes
  | binary op l r => l.lexemes ++ .mark op.text :: r.lexemes
  | paren t => .mark "(" :: (t.lexemes ++ [.mark ")"])
  | array ts => .mark "[" :: (lexemesOfAll ts ++ [.mark "]"])
  | call f ts => .name f :: .mark "(" :: (lexemesOfAll ts ++ [.mark ")"])
  | method x f ts => .name x :: .mark "." :: .name f :: .mark "(" :: (lexemesOfAll ts ++ [.mark ")"])

/-- The lexemes of the trees with commas between them. -/
def lexemesOfAll : List Tree → List Lexeme
  | [] => []
  | [t] => t.lexemes
  | t :: u :: ts => t.lexemes ++ .mark "," :: lexemesOfAll (u :: ts)

end

/-- How tightly the outermost operation binds. -/
def level : Tree → Nat
  | binary op _ _ => op.level
  | negate _ | not _ => 3
  | _ => 4

mutual

/-- Operands bind as their operation demands, and operations of one level group to the left. -/
def Grouped : Tree → Prop
  | number _ | string _ | name _ => True
  | negate t | not t => 3 ≤ t.level ∧ t.Grouped
  | binary op l r => op.level ≤ l.level ∧ op.level < r.level ∧ l.Grouped ∧ r.Grouped
  | paren t => t.Grouped
  | array ts | call _ ts | method _ _ ts => GroupedAll ts

def GroupedAll : List Tree → Prop
  | [] => True
  | t :: ts => t.Grouped ∧ GroupedAll ts

end

/-- Marks that end an expression. -/
def closers : List String := [")", "]", ","]

/-- A tree starts with a lexeme, and none that ends one. -/
theorem lexemes_eq_cons :
    (t : Tree) → ∃ l ls, t.lexemes = l :: ls ∧ ∀ m ∈ closers, l ≠ .mark m
  | number _ | string _ | name _ | call _ _ | method _ _ _ => by
    refine ⟨_, _, rfl, ?_⟩
    rintro m - ⟨⟩
  | negate _ | not _ | paren _ | array _ => by
    refine ⟨_, _, rfl, ?_⟩
    rintro m hm ⟨⟩
    revert hm
    decide
  | binary op l r => by
    obtain ⟨first, ls, hl, hm⟩ := lexemes_eq_cons l
    exact ⟨first, ls ++ .mark op.text :: r.lexemes, by simp [lexemes, hl], hm⟩

theorem length_lexemes_pos (t : Tree) : 0 < t.lexemes.length := by
  obtain ⟨l, ls, h, -⟩ := t.lexemes_eq_cons
  rw [h]
  exact Nat.succ_pos _

end Tree

/-! ## Reading back -/

/-- What follows an operand at a level cannot go on with it: it is no bracket or point behind a name
and no operator that binds tighter. -/
def Stops (level : Nat) (rest : List Lexeme) : Prop :=
  ∀ m tail, rest = .mark m :: tail →
    m ≠ "(" ∧ m ≠ "." ∧ ∀ k, level < k → Op.ofMark? k m = none

theorem Stops.mono {m n : Nat} {rest : List Lexeme} (h : Stops m rest) (hmn : m ≤ n) :
    Stops n rest := fun mark tail he =>
  let ⟨h1, h2, h3⟩ := h mark tail he
  ⟨h1, h2, fun k hk => h3 k (Nat.lt_of_le_of_lt hmn hk)⟩

theorem Stops.chainAt_eq {n k : Nat} {rest : List Lexeme} (h : Stops n rest) (hk : n < k)
    (t : Tree) : chainAt k t rest = some (t, rest) := by
  rw [chainAt.eq_def]
  split
  · next m tail => rw [(h m tail rfl).2.2 k hk]
  · rfl

theorem stops_nil (n : Nat) : Stops n [] := by
  rintro _ _ ⟨⟩

theorem stops_closer {m : String} (hm : m ∈ Tree.closers) (n : Nat) (rest : List Lexeme) :
    Stops n (.mark m :: rest) := by
  rintro _ _ ⟨⟩
  simp only [Tree.closers, List.mem_cons, List.not_mem_nil, or_false] at hm
  rcases hm with rfl | rfl | rfl <;> simp [Op.ofMark?, Op.text]

theorem stops_operator (op : Op) (rest : List Lexeme) : Stops op.level (.mark op.text :: rest) := by
  rintro _ _ ⟨⟩
  refine ⟨by cases op <;> decide, by cases op <;> decide, fun k hk => ?_⟩
  exact Op.ofMark?_of_ne (by omega)

theorem chainAt_three (t : Tree) (rest : List Lexeme) : chainAt 3 t rest = some (t, rest) := by
  rw [chainAt.eq_def]
  split
  · next m tail =>
    have hnone : Op.ofMark? 3 m = none := by simp [Op.ofMark?, Op.level]
    rw [hnone]
  · rfl

theorem binaryAt_three (ls : List Lexeme) : binaryAt 3 ls = unary ls := by
  rw [binaryAt, if_neg (by decide)]

/-- What a tighter level has read is read by a looser one on the way. -/
theorem binaryAt_climb {n k : Nat} {ls rest : List Lexeme} {t : Tree} (hnk : n ≤ k) (hk : k ≤ 3)
    (h : binaryAt k ls = chainAt k t rest) (hlt : rest.length < ls.length) (hs : Stops n rest) :
    binaryAt n ls = chainAt n t rest := by
  induction hd : k - n generalizing n with
  | zero =>
    obtain rfl : n = k := by omega
    exact h
  | succ d ih =>
    have htighter : binaryAt (n + 1) ls = chainAt (n + 1) t rest :=
      ih (by omega) (hs.mono (by omega)) (by omega)
    rw [binaryAt, if_pos (by omega), htighter, hs.chainAt_eq (by omega)]
    simp only [dif_pos hlt]

/-- The lexemes of the tree are read as it by every level up to its own, and what follows is left to
the chain of that level. -/
def ReadsAs (t : Tree) : Prop :=
  ∀ n rest, n ≤ t.level → n ≤ 3 → Stops n rest →
    binaryAt n (t.lexemes ++ rest) = chainAt n t rest

theorem ReadsAs.of_unary {t : Tree}
    (h : ∀ rest, Stops 3 rest → unary (t.lexemes ++ rest) = some (t, rest)) : ReadsAs t := by
  intro n rest _ hn hs
  have hthree : binaryAt 3 (t.lexemes ++ rest) = chainAt 3 t rest := by
    rw [binaryAt_three, chainAt_three]
    exact h rest (hs.mono hn)
  have := t.length_lexemes_pos
  exact binaryAt_climb hn (Nat.le_refl 3) hthree (by simp; omega) hs

/-- As an operand of a sign. -/
theorem ReadsAs.unary {t : Tree} (h : ReadsAs t) (ht : 3 ≤ t.level) {rest : List Lexeme}
    (hs : Stops 3 rest) : unary (t.lexemes ++ rest) = some (t, rest) := by
  rw [← binaryAt_three, h 3 rest ht (Nat.le_refl 3) hs, chainAt_three]

theorem ReadsAs.binary {op : Op} {l r : Tree} (hl : ReadsAs l) (hr : ReadsAs r)
    (hll : op.level ≤ l.level) (hlr : op.level < r.level) : ReadsAs (.binary op l r) := by
  have hop : op.level < 3 := by cases op <;> decide
  intro n rest hn _ hs
  have hstop : Stops op.level rest := hs.mono hn
  have := l.length_lexemes_pos
  have := r.length_lexemes_pos
  have hright : binaryAt (op.level + 1) (r.lexemes ++ rest) = some (r, rest) := by
    rw [hr (op.level + 1) rest hlr hop (hstop.mono (Nat.le_succ _)),
      hstop.chainAt_eq (Nat.lt_succ_self _)]
  have hown : binaryAt op.level ((Tree.binary op l r).lexemes ++ rest) =
      chainAt op.level (.binary op l r) rest := by
    rw [Tree.lexemes, List.append_assoc, List.cons_append,
      hl op.level _ hll (by omega) (stops_operator op _), chainAt, op.ofMark?_text]
    simp only [hright]
    rw [dif_pos (by simp; omega)]
  refine binaryAt_climb (k := op.level) hn (Nat.le_of_lt hop) hown ?_ hs
  simp only [Tree.lexemes, List.length_append, List.length_cons]
  omega

theorem ReadsAs.negate {t : Tree} (h : ReadsAs t) (ht : 3 ≤ t.level) : ReadsAs (.negate t) :=
  .of_unary fun rest hs => by
    rw [Tree.lexemes, List.cons_append, JavaScript.unary, h.unary ht hs, Option.map_some]

theorem ReadsAs.not {t : Tree} (h : ReadsAs t) (ht : 3 ≤ t.level) : ReadsAs (.not t) :=
  .of_unary fun rest hs => by
    rw [Tree.lexemes, List.cons_append, JavaScript.unary, h.unary ht hs, Option.map_some]

/-- Before a closing bracket or a comma. -/
theorem ReadsAs.closed {t : Tree} (h : ReadsAs t) {m : String} (hm : m ∈ Tree.closers)
    (rest : List Lexeme) :
    binaryAt 0 (t.lexemes ++ .mark m :: rest) = some (t, .mark m :: rest) := by
  have hnone : Op.ofMark? 0 m = none := by
    simp only [Tree.closers, List.mem_cons, List.not_mem_nil, or_false] at hm
    rcases hm with rfl | rfl | rfl <;> decide
  rw [h 0 _ (Nat.zero_le _) (Nat.zero_le _) (stops_closer hm 0 rest), chainAt, hnone]

/-- To the end of the text. -/
theorem ReadsAs.ended {t : Tree} (h : ReadsAs t) : binaryAt 0 t.lexemes = some (t, []) := by
  have hchain := h 0 [] (Nat.zero_le _) (Nat.zero_le _) (stops_nil 0)
  rwa [List.append_nil, chainAt.eq_def] at hchain

theorem ReadsAs.paren {t : Tree} (h : ReadsAs t) : ReadsAs (.paren t) :=
  .of_unary fun rest _ => by
    rw [Tree.lexemes, List.cons_append, List.append_assoc, List.singleton_append,
      JavaScript.unary, primary, h.closed (by decide)]
    all_goals simp

/-- The closing brackets of lists. -/
theorem seq_lexemesOfAll {close : String} (hc : close = ")" ∨ close = "]") (rest : List Lexeme) :
    (t : Tree) → (ts : List Tree) → (∀ u ∈ t :: ts, ReadsAs u) →
      seq close (Tree.lexemesOfAll (t :: ts) ++ .mark close :: rest) = some (t :: ts, rest)
  | t, [], h => by
    have hmem : close ∈ Tree.closers := by rcases hc with rfl | rfl <;> decide
    -- the bracket is not the comma that `seq` looks for first
    have hne : close ≠ "," := by rcases hc with rfl | rfl <;> decide
    rw [Tree.lexemesOfAll, seq.eq_def, (h t (List.mem_singleton_self t)).closed hmem]
    simp
  | t, u :: ts, h => by
    have ih := seq_lexemesOfAll hc rest u ts fun v hv => h v (List.mem_cons_of_mem _ hv)
    rw [Tree.lexemesOfAll, List.append_assoc, List.cons_append, seq.eq_def,
      (h t List.mem_cons_self).closed (by decide)]
    simp only [ih, Option.map_some]
    rw [dif_pos (by simp; omega)]

theorem items_lexemesOfAll {close : String} (hc : close = ")" ∨ close = "]") (rest : List Lexeme)
    {ts : List Tree} (h : ∀ t ∈ ts, ReadsAs t) :
    items close (Tree.lexemesOfAll ts ++ .mark close :: rest) = some (ts, rest) := by
  cases ts with
  | nil => rw [Tree.lexemesOfAll, List.nil_append, items, if_pos rfl]
  | cons t ts =>
    -- an expression never starts with the bracket that would end the list
    have hopen : ∃ l ls, Tree.lexemesOfAll (t :: ts) = l :: ls ∧ l ≠ .mark close := by
      obtain ⟨l, ls, hl, hm⟩ := t.lexemes_eq_cons
      have hne := hm close (by rcases hc with rfl | rfl <;> decide)
      cases ts with
      | nil => exact ⟨l, ls, by rw [Tree.lexemesOfAll, hl], hne⟩
      | cons u ts =>
        exact ⟨l, ls ++ .mark "," :: Tree.lexemesOfAll (u :: ts),
          by rw [Tree.lexemesOfAll, hl, List.cons_append], hne⟩
    obtain ⟨l, ls, hl, hne⟩ := hopen
    rw [← seq_lexemesOfAll hc rest t ts h, hl, List.cons_append, items.eq_def]
    split
    · next m tail he =>
      obtain ⟨rfl, rfl⟩ := List.cons.inj he
      rw [if_neg fun hm => hne (congrArg _ hm)]
    · rfl

theorem ReadsAs.array {ts : List Tree} (h : ∀ t ∈ ts, ReadsAs t) : ReadsAs (.array ts) :=
  .of_unary fun rest _ => by
    rw [Tree.lexemes, List.cons_append, List.append_assoc, List.singleton_append,
      JavaScript.unary, primary, items_lexemesOfAll (.inr rfl) rest h, Option.map_some]
    all_goals simp

theorem ReadsAs.call {f : String} {ts : List Tree} (h : ∀ t ∈ ts, ReadsAs t) :
    ReadsAs (.call f ts) :=
  .of_unary fun rest _ => by
    rw [Tree.lexemes, List.cons_append, List.cons_append, List.append_assoc, List.singleton_append,
      JavaScript.unary, primary, items_lexemesOfAll (.inl rfl) rest h, Option.map_some]
    all_goals simp

theorem ReadsAs.method {x f : String} {ts : List Tree} (h : ∀ t ∈ ts, ReadsAs t) :
    ReadsAs (.method x f ts) :=
  .of_unary fun rest _ => by
    simp only [Tree.lexemes, List.cons_append, List.append_assoc, List.nil_append]
    rw [JavaScript.unary, primary, items_lexemesOfAll (.inl rfl) rest h, Option.map_some]
    all_goals simp

theorem ReadsAs.name (x : String) : ReadsAs (.name x) :=
  .of_unary fun rest hs => by
    rw [Tree.lexemes, List.singleton_append, JavaScript.unary]
    · rw [primary.eq_def]
      split <;> simp_all [Stops]
    all_goals simp

namespace Tree

mutual

theorem Grouped.reads : {t : Tree} → t.Grouped → ReadsAs t
  | .number _, _ | .string _, _ => .of_unary fun rest _ => by
    rw [lexemes, List.singleton_append, JavaScript.unary, primary]
    all_goals simp
  | .name x, _ => .name x
  | .negate _, h => h.2.reads.negate h.1
  | .not _, h => h.2.reads.not h.1
  | .binary _ _ _, ⟨hl, hr, hgl, hgr⟩ => hgl.reads.binary hgr.reads hl hr
  | .paren _, h => .paren (Grouped.reads h)
  | .array _, h => .array (GroupedAll.reads h)
  | .call _ _, h => .call (GroupedAll.reads h)
  | .method _ _ _, h => .method (GroupedAll.reads h)

theorem GroupedAll.reads : {ts : List Tree} → GroupedAll ts → ∀ t ∈ ts, ReadsAs t
  | [], _ => nofun
  | _ :: _, h => List.forall_mem_cons.2 ⟨h.1.reads, GroupedAll.reads h.2⟩

end

end Tree

end CatScript.JavaScript
