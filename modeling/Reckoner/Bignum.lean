import Reckoner.Number.Arithmetic

/-! Complex numbers of arbitrary size in fixed point: a stored integer stands for itself divided by
`2 ^ precision`. Operands of different precision are brought to the larger one. -/
namespace Reckoner

structure Bignum where
  re : Int
  im : Int
  precision : Nat
  dimension : Dimension
  deriving DecidableEq

namespace Bignum

def maxExponent : Nat := 65536

def isZero (x : Bignum) : Bool := x.re == 0 && x.im == 0

/-- The fixed-point integer of a finite number, with the bits below the precision cut off. -/
private def fixedOfFloat (precision : Nat) (x : Float) : Option Int :=
  match Binary64.parts x with
  | .finite negative m e =>
    let shift := e + precision
    let magnitude : Nat := if shift ≥ 0 then m <<< shift.natAbs else m >>> shift.natAbs
    some (if negative then -magnitude else magnitude)
  | _ => none

def ofNumber (precision : Nat) (n : Number) : Option Bignum := do
  let re ← fixedOfFloat precision n.re
  let im ← fixedOfFloat precision n.im
  return ⟨re, im, precision, n.dimension⟩

/-- A fixed-point integer as a binary64 number: the 64 leading bits, rounded down, are rounded to
binary64 and scaled. -/
def fixedToFloat (precision : Nat) (value : Int) : Float :=
  let bits := if value = 0 then 0 else value.natAbs.log2 + 1
  let excess := bits - 64
  Binary64.ofInt (value >>> excess) * Binary64.powInt 2 ((excess : Int) - precision)

def toNumber (x : Bignum) : Number :=
  ⟨⟨fixedToFloat x.precision x.re, fixedToFloat x.precision x.im⟩, x.dimension⟩

def reading (x : Bignum) : Float := x.toNumber.reading

def neg (x : Bignum) : Bignum := { x with re := -x.re, im := -x.im }

/-- The stored integer at a precision that is at least the number's own. -/
def rescaled (x : Bignum) (value : Int) (precision : Nat) : Int :=
  value * (1 <<< (precision - x.precision) : Nat)

def sum (operation : Aligned) (x y : Bignum) (right : Bignum) : Except RuntimeError Bignum :=
  match x.dimension.additive? y.dimension with
  | none => .error (.dimensionMismatch operation x.dimension right.dimension)
  | some d =>
    let p := max x.precision y.precision
    .ok ⟨x.rescaled x.re p + y.rescaled y.re p, x.rescaled x.im p + y.rescaled y.im p, p, d⟩

def add (x y : Bignum) : Except RuntimeError Bignum := sum .add x y y

def sub (x y : Bignum) : Except RuntimeError Bignum := sum .subtract x y.neg y

/-- The product, each part rounded down. -/
def mul (x y : Bignum) : Bignum :=
  let p := max x.precision y.precision
  let a := x.rescaled x.re p
  let b := x.rescaled x.im p
  let c := y.rescaled y.re p
  let d := y.rescaled y.im p
  ⟨(a * c - b * d) >>> p, (a * d + b * c) >>> p, p, x.dimension * y.dimension⟩

/-- The reciprocal, each part rounded toward zero. -/
def reciprocal (x : Bignum) : Except RuntimeError Bignum :=
  let norm := x.re * x.re + x.im * x.im
  if norm = 0 then .error .divisionByZero
  else
    let scale : Nat := 1 <<< (2 * x.precision)
    .ok ⟨(x.re * scale).tdiv norm, -(x.im * scale).tdiv norm, x.precision, .dimensionless / x.dimension⟩

def div (x y : Bignum) : Except RuntimeError Bignum := do
  return x.mul (← y.reciprocal)

def one (precision : Nat) : Bignum := ⟨(1 <<< precision : Nat), 0, precision, .dimensionless⟩

def powNat (x : Bignum) (n : Nat) (product : Bignum) : Bignum :=
  if n = 0 then product
  else
    let product := if n % 2 = 1 then product.mul x else product
    powNat (if n / 2 = 0 then x else x.mul x) (n / 2) product
termination_by n

/-- An integer power by repeated squaring; a negative one is inverted at the end. -/
def pow (x : Bignum) (n : Int) : Except RuntimeError Bignum :=
  if maxExponent < n.natAbs then .error (.invalidArgument (.bignumExponentTooLarge n))
  else do
    let power := powNat x n.natAbs (one x.precision)
    let power ← if n < 0 then power.reciprocal else .ok power
    return { power with dimension := x.dimension.power (Binary64.ofInt n) }

end Bignum
end Reckoner
