import Reckoner.Number
import Reckoner.RuntimeError

/-! The operations on numbers that may fail: sums, which need agreeing dimensions, and quotients,
which need a divisor other than zero. -/
namespace Reckoner.Number

def commonDimension (operation : Aligned) (a b : Number) : Except RuntimeError Dimension :=
  match a.dimension.additive? b.dimension with
  | some d => .ok d
  | none => .error (.dimensionMismatch operation a.dimension b.dimension)

def add (a b : Number) : Except RuntimeError Number := do
  let d ← commonDimension .add a b
  return ⟨⟨a.re + b.re, a.im + b.im⟩, d⟩

def sub (a b : Number) : Except RuntimeError Number := do
  let d ← commonDimension .subtract a b
  return ⟨⟨a.re - b.re, a.im - b.im⟩, d⟩

def div (a b : Number) : Except RuntimeError Number :=
  if b.isZero then .error .divisionByZero
  else
    let value : Complex := if b.isReal then ⟨a.re / b.re, a.im / b.re⟩ else a.toComplex / b.toComplex
    .ok ⟨value, a.dimension / b.dimension⟩

/-- The remainder with the sign of the dividend; complex operands take the quotient cut part by
part. -/
def rem (a b : Number) : Except RuntimeError Number := do
  let d ← commonDimension .remainder a b
  if b.isZero then throw .divisionByZero
  if a.isReal && b.isReal then return ⟨.ofReal (Binary64.rem a.re b.re), d⟩
  let quotient := a.toComplex / b.toComplex
  let cut : Complex := ⟨Binary64.trunc quotient.re, Binary64.trunc quotient.im⟩
  return ⟨a.toComplex - cut * b.toComplex, d⟩

end Reckoner.Number
