import CatScript.Eval.Run
import CatScript.Proofs.Grammar.Precedence
import CatScript.Proofs.Grammar.Recovery
import CatScript.Proofs.Token.Recognised

/-!
# Printed values are read back

The text of a value is an expression with that value, if there is no string in it and not the least
integer. A string is printed without its quotes, and the digits of the least integer are beyond what
an integer literal may say.

A value is written as a tree of literals, where a negative integer is the opposite of a positive
one (`literal`). The text of the value has the tokens of that tree (`display_scans`), so it is read
as the tree, and the tree evaluates to the value. The first part is an induction on the value with
what stands behind it as a parameter: each item of a list is followed by a comma or by a bracket,
and neither goes on with a number or a word.

Results:
* `display_scans`: the tokens of a value's text are those of its tree.
* `eval_placeless`: evaluation does not look at places.
* `display_reads_back`: the text of a value is read as an expression, without a diagnostic, that
  evaluates to the value.
-/
namespace CatScript

open Token (Kind scanFrom Recognised Stops inWord)
open Text (bytes)

/-! ## Values and their trees -/

namespace Value

mutual

/-- The value holds no string and not the least integer. -/
def isPlain : Value → Bool
  | int v => v ≠ Int64.minValue
  | bool _ | null => true
  | str _ => false
  | list vs => allPlain vs

def allPlain : List Value → Bool
  | [] => true
  | v :: vs => v.isPlain && allPlain vs

end

mutual

/-- The expression that says the value. -/
def literal : Value → Expr
  | int v =>
    if v < 0 then .unary (.fresh .nowhere []) .negate (.int (.fresh .nowhere []) (-v))
    else .int (.fresh .nowhere []) v
  | bool v => .bool (.fresh .nowhere []) v
  | str v => .str (.fresh .nowhere []) v
  | list vs => .list (.fresh .nowhere []) (literals vs)
  | null => .null (.fresh .nowhere [])

def literals : List Value → List Expr
  | [] => []
  | v :: vs => v.literal :: literals vs

end

end Value

namespace Text

/-- A negative integer is written as the opposite of a positive one, unless it is the least one. -/
theorem toList_decimal_neg {v : Int64} (h : v < 0) (hmin : v ≠ Int64.minValue) :
    0 ≤ -v ∧ (decimal v).toList = '-' :: (decimal (-v)).toList := by
  have hlow := Int64.minValue_le_toInt v
  have hne : v.toInt ≠ Int64.minValue.toInt := fun he => hmin (Int64.toInt_inj.1 he)
  have hneg : v.toInt < 0 := by simpa using Int64.lt_iff_toInt_lt.1 h
  have hopposite : (-v).toInt = -v.toInt := by
    rw [Int64.toInt_neg]
    exact Int.bmod_eq_of_le (by simp at *; omega) (by simp at *; omega)
  obtain ⟨n, hn⟩ := Int.eq_negSucc_of_lt_zero hneg
  refine ⟨Int64.le_iff_toInt_le.2 ?_, ?_⟩
  · rw [hopposite, Int64.toInt_zero]
    omega
  · rw [decimal, decimal, hopposite, hn, Int.neg_negSucc]
    exact String.toList_append

end Text

/-! ## Tokens of a text -/

/-- In front of anything that does not go on with a word, the text has tokens with these kinds and
texts. -/
def ScansAs (text : List Char) (lexemes : List (Kind × String)) : Prop :=
  ∀ file offset rest, Stops inWord rest → ∃ ts : List Token,
    scanFrom file offset (text ++ rest) = ts ++ scanFrom file (offset + bytes text) rest ∧
      ts.map Token.lexeme = lexemes

namespace ScansAs

variable {a b : List Char} {as bs : List (Kind × String)} {kind : Kind}

theorem nil : ScansAs [] [] := fun _ _ _ _ => ⟨[], rfl, rfl⟩

theorem token {value : String} {text : List Char}
    (h : ∀ rest, Stops inWord rest → Recognised kind value text (a ++ rest)) (ha : ScansAs a as) :
    ScansAs (text ++ a) ((kind, value) :: as) := by
  intro file offset rest hrest
  obtain ⟨ts, hscan, hlexemes⟩ := ha file (offset + bytes text) rest hrest
  refine ⟨⟨kind, value, ⟨file, offset, offset + bytes text⟩⟩ :: ts, ?_, ?_⟩
  · rw [List.append_assoc, (h rest hrest).scanFrom, hscan, Text.bytes_append, Nat.add_assoc]
    rfl
  · rw [List.map_cons, hlexemes]
    rfl

theorem one {value : String} {text : List Char}
    (h : ∀ rest, Stops inWord rest → Recognised kind value text rest) :
    ScansAs text [(kind, value)] := by
  simpa using token (a := []) h nil

theorem space (ha : ScansAs a as) : ScansAs (' ' :: a) as := by
  intro file offset rest hrest
  obtain ⟨ts, hscan, hlexemes⟩ := ha file (offset + bytes [' ']) rest hrest
  refine ⟨ts, ?_, hlexemes⟩
  rw [List.cons_append, Token.scanFrom_blank (by decide), hscan, Nat.add_assoc,
    ← Text.bytes_append]
  rfl

/-- What starts with no character of a word ends what stands in front of it. -/
theorem append (ha : ScansAs a as) (hb : ScansAs b bs) (hstop : b.head?.any (!inWord ·) = true) :
    ScansAs (a ++ b) (as ++ bs) := by
  intro file offset rest hrest
  have hfirst : Stops inWord (b ++ rest) := by
    cases b with
    | nil => cases hstop
    | cons c cs => exact Token.stops_cons.2 (by simpa using hstop)
  obtain ⟨ts, hscan, hlexemes⟩ := ha file offset (b ++ rest) hfirst
  obtain ⟨us, hscan', hlexemes'⟩ := hb file (offset + bytes a) rest hrest
  refine ⟨ts ++ us, ?_, by rw [List.map_append, hlexemes, hlexemes']⟩
  rw [List.append_assoc, hscan, hscan', Text.bytes_append, List.append_assoc, Nat.add_assoc]

/-- A mark that nothing goes on with. -/
theorem mark {c : Char} (hc : Token.markKind? c = some kind)
    (hplain : c ∉ ['=', '!', '<', '>', '/']) (ha : ScansAs a as) :
    ScansAs (c :: a) ((kind, String.ofList [c]) :: as) := by
  rw [← List.singleton_append]
  exact token (fun _ _ => .mark hc (Token.parts_of_plain hplain _)) ha

theorem word {word : String} (hkind : .ofWord word = kind)
    (hstart : word.toList.head?.any Token.startsWord = true)
    (hall : word.toList.all inWord = true) : ScansAs word.toList [(kind, word)] :=
  one fun _ hrest => Token.recognised_word hkind hstart hall hrest

theorem decimal {v : Int64} (h : 0 ≤ v) :
    ScansAs (Text.decimal v).toList [(.integer, Text.decimal v)] := by
  obtain ⟨c, cs, hcs⟩ := List.exists_cons_of_ne_nil
    (Nat.toDigits_ne_nil (n := v.toInt.toNat) (b := 10))
  have htext : (Text.decimal v).toList = c :: cs := by rw [Text.toList_decimal h, hcs]
  have hdigits : ∀ d ∈ c :: cs, Token.isDigit d = true :=
    fun d hd => Token.isDigit_of_mem_toDigits (hcs ▸ hd)
  have hvalue : Text.decimal v = String.ofList (c :: cs) := by rw [← htext, String.ofList_toList]
  rw [htext, hvalue]
  rw [List.forall_mem_cons] at hdigits
  exact one fun _ hrest => .integer hdigits.1 hdigits.2 hrest.of_inWord

end ScansAs

namespace Value

mutual

/-- The text of a value has the tokens of its tree. -/
theorem display_scans : (v : Value) → v.isPlain = true →
    ScansAs v.display.toList v.literal.lexemes
  | int v, h => by
    have hmin : v ≠ Int64.minValue := by simpa [isPlain] using h
    rw [display, literal]
    split
    · next hneg =>
      obtain ⟨hpos, htext⟩ := Text.toList_decimal_neg hneg hmin
      rw [htext]
      exact .mark rfl (by decide) (.decimal hpos)
    · next hpos => exact .decimal (Int64.not_lt.1 hpos)
  | bool true, _ | bool false, _ | null, _ => .word (by decide) (by decide) (by decide)
  | str _, h => by cases h
  | list vs, h => by
    have hclose : ScansAs ("]".toList) [(.rightBracket, "]")] := .mark rfl (by decide) .nil
    have hitems := (displayAll_scans vs h).append hclose (by decide)
    have htext : (list vs).display.toList = '[' :: ((displayAll vs).toList ++ "]".toList) := by
      simp [display]
    rw [htext]
    exact .mark rfl (by decide) hitems

theorem displayAll_scans : (vs : List Value) → allPlain vs = true →
    ScansAs (displayAll vs).toList (Expr.lexemesOfAll (literals vs))
  | [], _ => .nil
  | [v], h => display_scans v (by simpa [allPlain] using h)
  | v :: w :: vs, h => by
    obtain ⟨hv, hvs⟩ := Bool.and_eq_true_iff.1 h
    have hmore : ScansAs (',' :: ' ' :: (displayAll (w :: vs)).toList) _ :=
      .mark rfl (by decide) (.space (displayAll_scans (w :: vs) hvs))
    have htext : (displayAll (v :: w :: vs)).toList =
        v.display.toList ++ ',' :: ' ' :: (displayAll (w :: vs)).toList := by
      simp [displayAll]
    rw [htext]
    exact (display_scans v hv).append hmore rfl

end

mutual

theorem canonical_literal : (v : Value) → v.isPlain = true → v.literal.Canonical
  | int v, h => by
    have hmin : v ≠ Int64.minValue := by simpa [isPlain] using h
    rw [literal]
    split
    · next hneg =>
      obtain ⟨hpos, -⟩ := Text.toList_decimal_neg hneg hmin
      exact ⟨⟨rfl, rfl⟩, Nat.zero_le _, ⟨rfl, rfl⟩, hpos⟩
    · next hpos => exact ⟨⟨rfl, rfl⟩, Int64.not_lt.1 hpos⟩
  | bool _, _ | null, _ => ⟨rfl, rfl⟩
  | str _, h => by cases h
  | list vs, h => ⟨⟨rfl, rfl⟩, canonical_literals vs h⟩

theorem canonical_literals : (vs : List Value) → allPlain vs = true →
    Expr.CanonicalAll (literals vs)
  | [], _ => trivial
  | v :: vs, h => by
    obtain ⟨hv, hvs⟩ := Bool.and_eq_true_iff.1 h
    exact ⟨canonical_literal v hv, canonical_literals vs hvs⟩

end

end Value

/-! ## Evaluation -/

namespace Expr

variable (invoke : Eval.Invoke)

mutual

/-- Where an expression was read from does not matter to its value. -/
theorem eval_placeless : (e : Expr) → e.placeless.eval invoke = e.eval invoke
  | int _ _ | str _ _ | bool _ _ | null _ | var _ _ => rfl
  | unary _ _ e | paren _ e => by simp only [placeless, eval, eval_placeless e]
  | binary _ _ l r => by simp only [placeless, eval, eval_placeless l, eval_placeless r]
  | list _ es => by simp only [placeless, eval, evalAll_placeless es]
  | call _ _ es _ => by simp only [placeless, eval, evalArgs_placeless es]

theorem evalAll_placeless : (es : List Expr) →
    evalAll invoke (placelessOfAll es) = evalAll invoke es
  | [] => rfl
  | e :: es => by simp only [placelessOfAll, evalAll, eval_placeless e, evalAll_placeless es]

theorem evalArgs_placeless : (es : List Expr) → ∀ ps : List Param,
    evalArgs invoke ps (placelessOfAll es) = evalArgs invoke ps es
  | [], [] | [], _ :: _ | _ :: _, [] => rfl
  | e :: es, p :: ps => by
    simp only [placelessOfAll, evalArgs, eval_placeless e, evalArgs_placeless es]

end

end Expr

namespace Value

variable (invoke : Eval.Invoke)

mutual

/-- The tree of a value has the value, whatever the value is. -/
theorem eval_literal : (v : Value) → v.literal.eval invoke = pure v
  | int v => by
    rw [literal]
    split
    · have hvalue : UnaryOp.negate.apply (int (-v)) = .ok (int v) := by
        simp only [UnaryOp.apply, asInt, Except.map, Int64.neg_neg]
      simp only [Expr.eval, pure_bind, hvalue, Eval.Action.ofExcept]
    · rfl
  | bool _ | str _ | null => rfl
  | list vs => by simp only [literal, Expr.eval, evalAll_literals vs, pure_bind]

theorem evalAll_literals : (vs : List Value) → Expr.evalAll invoke (literals vs) = pure vs
  | [] => rfl
  | v :: vs => by
    simp only [literals, Expr.evalAll, eval_literal v, evalAll_literals vs, pure_bind]

end

/-- The text of a value is read as an expression, with nothing wrong with it, that evaluates to the
value. -/
theorem display_reads_back (v : Value) (file : String) (h : v.isPlain = true) :
    ∃ e, Expr.parse v.display file = .ok e ∧ e.diagnostics = [] ∧
      ∀ depth, e.evaluate depth = .ok v := by
  obtain ⟨ts, hscan, hlexemes⟩ := display_scans v h file 0 [] (Token.stops_nil _)
  rw [List.append_nil, scanFrom] at hscan
  obtain ⟨e, r, hread, hplace, hclean, hend⟩ := Grammar.expr_of_lexemes (canonical_literal v h)
    hlexemes ((Cursor.toCome_ofTokens v.display file).trans hscan) rfl
  have hdone : r.hasMore = false := by simp [Cursor.hasMore, hend]
  refine ⟨e, ?_, hclean, fun depth => ?_⟩
  · rw [Expr.parse, hread]
    simp [hdone]
  · rw [Expr.evaluate, ← Expr.eval_placeless, hplace, Expr.eval_placeless, eval_literal]
    rfl

/-- A list with a negative integer, the greatest one, and lists in it. -/
theorem nested_list_reads_back :
    ∃ e, Expr.parse "[-5, [], [9223372036854775807, [true, null]]]" "shell" = .ok e ∧
      e.diagnostics = [] ∧ ∀ depth, e.evaluate depth =
        .ok (.list [.int (-5), .list [], .list [.int Int64.maxValue, .list [.bool true, .null]]]) :=
  display_reads_back
    (.list [.int (-5), .list [], .list [.int Int64.maxValue, .list [.bool true, .null]]]) "shell"
    (by decide)

end Value

end CatScript
