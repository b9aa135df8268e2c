/-!
# Decimal integers

Integer literals are decimal digits with an optional sign in front. Integers are 64 bits
wide and signed, and a literal outside that range does not read.
-/
namespace CatScript.Text

/-- The value of a digit character, `none` for any other character. -/
def digit? (c : Char) : Option Nat :=
  if '0' ≤ c ∧ c ≤ '9' then some (c.toNat - '0'.toNat) else none

/-- Reads digits onto `n`, most significant first. -/
def digitsOnto : Nat → List Char → Option Nat
  | n, [] => some n
  | n, c :: cs => (digit? c).bind fun d => digitsOnto (10 * n + d) cs

/-- A non-empty run of decimal digits. -/
def natural? : List Char → Option Nat
  | [] => none
  | c :: cs => digitsOnto 0 (c :: cs)

/-- Digits with an optional `+` or `-` in front. -/
def integer? : List Char → Option Int
  | '+' :: cs => (natural? cs).map Int.ofNat
  | '-' :: cs => (natural? cs).map fun n => -Int.ofNat n
  | cs => (natural? cs).map Int.ofNat

/-- An integer literal of the 64-bit range. -/
def int64? (cs : List Char) : Option Int64 :=
  (integer? cs).bind fun i =>
    if Int64.minValue.toInt ≤ i ∧ i ≤ Int64.maxValue.toInt then some (Int64.ofInt i) else none

/-- Decimal digits of an integer, with `-` in front of a negative one. -/
def decimal (i : Int64) : String := i.toInt.repr

end CatScript.Text
