import Reckoner.Binary64.Arithmetic
import Reckoner.Text.Bytes

/-! Decimal text of binary64 numbers: the fewest digits that read back as the same number, written
without an exponent, and a fixed number of significant digits with one. -/
namespace Reckoner.Binary64

/-- A positive decimal `digits * 10 ^ exponent`. -/
structure Decimal where
  digits : Nat
  exponent : Int
  deriving DecidableEq, Repr

private def digitCount (n : Nat) : Nat := (Text.ofNat n).length

def decimalOrder (numerator denominator : Nat) : Int :=
  if denominator ≤ numerator then digitCount (numerator / denominator)
  else
    let j := digitCount (denominator / numerator) - 1
    if numerator * Nat.pow 10 j = denominator then 1 - (j : Int) else -(j : Int)

private def scaleRatio (numerator denominator : Nat) (exponent : Int) : Nat × Nat :=
  if exponent < 0 then (numerator * Nat.pow 10 exponent.natAbs, denominator)
  else (numerator, denominator * Nat.pow 10 exponent.natAbs)

/-- The numbers that round to one and the same binary64 number, as multiples of `1 / denominator`:
the number itself, the two ends, and whether the ends belong to it. -/
structure Interval where
  low : Nat
  centre : Nat
  high : Nat
  denominator : Nat
  closed : Bool

/-- The interval around `mantissa * 2 ^ exponent`. Below a power of two the next number is half as
far. -/
def Interval.around (mantissa : Nat) (exponent : Int) : Interval :=
  let narrow := mantissa = hiddenBit ∧ minExponent < exponent
  let (scale, denominator) := shiftRatio 1 1 (2 - exponent)
  { low := (4 * mantissa - if narrow then 1 else 2) * scale
    centre := 4 * mantissa * scale
    high := (4 * mantissa + 2) * scale
    denominator
    closed := mantissa % 2 == 0 }

def Interval.contains (range : Interval) (decimal : Decimal) : Bool :=
  let (n, d) := scaleRatio decimal.digits 1 (-decimal.exponent)
  let value := n * range.denominator
  if range.closed then range.low * d ≤ value && value ≤ range.high * d
  else range.low * d < value && value < range.high * d

/-- The nearer of the centre's two neighbours on the grid of `10 ^ exponent`, of those that lie in
the interval; a tie goes up. -/
def Interval.pick? (range : Interval) (exponent : Int) : Option Decimal :=
  let (n, d) := scaleRatio range.centre range.denominator exponent
  let below : Decimal := ⟨n / d, exponent⟩
  let above : Decimal := ⟨n / d + 1, exponent⟩
  let nearer := if 2 * (n % d) < d then [below, above] else [above, below]
  nearer.find? range.contains

/-- The pick on the coarsest grid that has one, from `digits` digits on. -/
private def Interval.search (range : Interval) (order : Int) (digits : Nat) : Nat → Decimal
  | 0 => ⟨range.centre / range.denominator, 0⟩
  | steps + 1 =>
    match range.pick? (order - digits) with
    | some decimal => decimal
    | none => range.search order (digits + 1) steps

def Decimal.trimmed (decimal : Decimal) : Decimal :=
  if decimal.digits = 0 ∨ decimal.digits % 10 ≠ 0 then decimal
  else trimmed ⟨decimal.digits / 10, decimal.exponent + 1⟩
termination_by decimal.digits

/-- The decimal of fewest digits that reads back as `mantissa * 2 ^ exponent`, and the nearest of
those. -/
def shortest (mantissa : Nat) (exponent : Int) : Decimal :=
  let range := Interval.around mantissa exponent
  (range.search (decimalOrder range.centre range.denominator) 1 17).trimmed

def Decimal.positional (decimal : Decimal) : Text :=
  let digits := Text.ofNat decimal.digits
  if decimal.exponent ≥ 0 then digits ++ List.replicate decimal.exponent.natAbs '0'
  else
    let places := decimal.exponent.natAbs
    if places < digits.length then
      digits.take (digits.length - places) ++ '.' :: digits.drop (digits.length - places)
    else '0' :: '.' :: List.replicate (places - digits.length) '0' ++ digits

def signed (negative : Bool) (t : Text) : Text := if negative then '-' :: t else t

def text (x : Float) : Text :=
  match parts x with
  | .notANumber => "NaN".toList
  | .infinite negative => signed negative "inf".toList
  | .finite negative m e =>
    signed negative (if m = 0 then ['0'] else (shortest m e).positional)

/-- The decimal of `count` digits nearest to a positive ratio; a tie goes to the even one. -/
def significant (count : Nat) (numerator denominator : Nat) : Decimal :=
  let order := decimalOrder numerator denominator
  let (n, d) := scaleRatio numerator denominator (order - count)
  let digits := nearest n d
  if digits = Nat.pow 10 count then ⟨Nat.pow 10 (count - 1), order - count + 1⟩ else ⟨digits, order - count⟩

def Decimal.scientific (decimal : Decimal) : Text :=
  let digits := Text.ofNat decimal.digits
  let exponent := decimal.exponent + digits.length - 1
  digits.take 1 ++ (if digits.length ≤ 1 then [] else '.' :: digits.drop 1) ++ 'e' :: Text.ofInt exponent

/-- The text of a number rounded to `count` significant digits; one that is tiny counts as zero. -/
def roundedText (count : Nat) (x : Float) : Text :=
  match parts x with
  | .finite negative m e =>
    if x.abs < 1e-9 then ['0']
    else
      let (n, d) := shiftRatio m 1 (-e)
      signed negative (significant count n d).scientific
  | _ => text x

end Reckoner.Binary64
