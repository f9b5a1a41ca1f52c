import Reckoner.Bignum
import Reckoner.Text.Blank
import Reckoner.Text.Digit

/-! Bignums as text in the bases from 2 to 36: reading rounds to the nearest fixed-point number, and
writing rounds to the nearest text of a given number of digits. -/
namespace Reckoner.Bignum

def splitSign : Text → Bool × Text
  | '-' :: rest => (true, rest)
  | '+' :: rest => (false, rest)
  | rest => (false, rest)

/-- A real number written in `base` with an optional sign and point, at the given precision. -/
def parse (base precision : Nat) (t : Text) : Option Bignum := do
  guard (2 ≤ base ∧ base ≤ 36)
  let (negative, digits) := splitSign (Text.trim t)
  let (whole, fraction) := (Text.cut (· == '.') digits).getD (digits, [])
  guard !(whole.isEmpty && fraction.isEmpty)
  let mantissa ← Text.natOfDigits base (whole ++ fraction)
  let denominator := base.pow fraction.length
  let magnitude : Int := ((mantissa <<< precision + denominator / 2) / denominator : Nat)
  return ⟨if negative then -magnitude else magnitude, 0, precision, .dimensionless⟩

/-- At most `count` digits of the fraction `rest / 2 ^ precision`, until nothing is left of it. -/
def fractionDigits (base precision : Nat) : Nat → Nat → Text
  | 0, _ => []
  | count + 1, rest =>
    if rest = 0 then []
    else
      let scaled := rest * base
      Text.digitChar (scaled >>> precision)
        :: fractionDigits base precision count (scaled % (1 <<< precision))

def withoutLastZeros (t : Text) : Text := (t.reverse.dropWhile (· == '0')).reverse

/-- A fixed-point number in `base` with at most `count` digits behind the point. -/
def fixedText (precision base count : Nat) (value : Int) : Text :=
  let half := (1 <<< precision) / (base.pow count * 2)
  let magnitude := value.natAbs + half
  let whole := Text.ofNatBase base (magnitude >>> precision)
  let fraction := withoutLastZeros (fractionDigits base precision count (magnitude % (1 <<< precision)))
  (if value < 0 then ['-'] else []) ++ whole ++ (if fraction.isEmpty then [] else '.' :: fraction)

def toText (base count : Nat) (x : Bignum) : Text :=
  let re := fixedText x.precision base count x.re
  let value :=
    if x.im = 0 then re
    else
      let im := fixedText x.precision base count x.im
      re ++ (if x.im < 0 then im else '+' :: im) ++ ['i']
  if x.dimension.isDimensionless then value else value ++ ' ' :: x.dimension.text

def displayDigits : Nat := 40

def text (x : Bignum) : Text := x.toText 10 displayDigits

end Reckoner.Bignum
