/-! The exact value of a binary64 number and rounding to the nearest one. A finite number is a whole
mantissa times a power of two; a ratio is rounded to the nearest number, and a tie goes to the even
one. -/
namespace Reckoner.Binary64

/-- What a binary64 number stands for. A finite one is `mantissa * 2 ^ exponent`, and zero keeps its
sign. -/
inductive Parts
  | notANumber
  | infinite (negative : Bool)
  | finite (negative : Bool) (mantissa : Nat) (exponent : Int)
  deriving DecidableEq, Repr

/-- The exponent of the smallest positive number, which all subnormal numbers share. -/
def minExponent : Int := -1074

/-- The leading bit of a full mantissa, `2 ^ 52`; it is not stored. -/
def hiddenBit : Nat := 0x10000000000000

def parts (x : Float) : Parts :=
  let bits := x.toBits.toNat
  let negative := bits >>> 63 == 1
  let biased := (bits >>> 52) % 2048
  let fraction := bits % hiddenBit
  if biased = 2047 then
    if fraction = 0 then .infinite negative else .notANumber
  else if biased = 0 then .finite negative fraction minExponent
  else .finite negative (hiddenBit + fraction) (minExponent + (biased - 1 : Nat))

/-- The whole number nearest to `numerator / denominator`; a tie goes to the even one. -/
def nearest (numerator denominator : Nat) : Nat :=
  let whole := numerator / denominator
  let rest := numerator % denominator
  if 2 * rest > denominator ∨ (2 * rest = denominator ∧ whole % 2 = 1) then whole + 1 else whole

def shiftRatio (numerator denominator : Nat) (exponent : Int) : Nat × Nat :=
  if exponent < 0 then (numerator <<< exponent.natAbs, denominator)
  else (numerator, denominator <<< exponent.natAbs)

/-- The largest `k` with `2 ^ k ≤ numerator / denominator`, for a positive ratio. -/
def binaryOrder (numerator denominator : Nat) : Int :=
  let guess : Int := (numerator.log2 : Int) - denominator.log2
  let (n, d) := shiftRatio numerator denominator guess
  if d ≤ n then guess else guess - 1

/-- The mantissa of at most 53 bits and the exponent that a positive ratio is rounded to, whatever
the largest exponent; a carry may leave the mantissa at `2 ^ 53`. -/
def roundRatio (numerator denominator : Nat) : Nat × Int :=
  let exponent := max (binaryOrder numerator denominator - 52) minExponent
  let (n, d) := shiftRatio numerator denominator exponent
  (nearest n d, exponent)

def signMask (negative : Bool) : Nat := if negative then 0x8000000000000000 else 0

def infinityBits : Nat := 2047 * hiddenBit

/-- The number with the bits of `mantissa * 2 ^ exponent`, or infinity when that is too large. -/
def pack (negative : Bool) (mantissa : Nat) (exponent : Int) : Float :=
  let magnitude := (exponent - minExponent).toNat * hiddenBit + mantissa
  Float.ofBits (UInt64.ofNat (signMask negative + min magnitude infinityBits))

def zero (negative : Bool) : Float := if negative then -0.0 else 0.0

def infinity (negative : Bool) : Float := if negative then -(1.0 / 0.0) else 1.0 / 0.0

def nan : Float := 0.0 / 0.0

def ofRatio (negative : Bool) (numerator denominator : Nat) : Float :=
  if numerator = 0 then zero negative
  else
    let (mantissa, exponent) := roundRatio numerator denominator
    pack negative mantissa exponent

def ofDyadic (negative : Bool) (mantissa : Nat) (exponent : Int) : Float :=
  let (n, d) := shiftRatio mantissa 1 (-exponent)
  ofRatio negative n d

def ofInt (n : Int) : Float := ofRatio (n < 0) n.natAbs 1

def ofNat (n : Nat) : Float := ofRatio false n 1

def isNegative (x : Float) : Bool := x.toBits.toNat >>> 63 == 1

end Reckoner.Binary64
