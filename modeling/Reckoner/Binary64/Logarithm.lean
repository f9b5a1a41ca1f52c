import Reckoner.Binary64.Basic

/-! Logarithms of numbers near one, and the inverse hyperbolic tangent that rests on them. -/
namespace Reckoner.Binary64

/-- The natural logarithm of `1 + y`, for a finite `y` above minus one. The sum is rounded before
its logarithm is taken; what the rounding lost comes back as a term of first order. Where nothing of
`y` is left in the sum, `y` is its own logarithm, also a zero with its sign. -/
def logOnePlus (y : Float) : Float :=
  let sum := 1 + y
  if sum == 1 then y else sum.log + (y - (sum - 1)) / sum

/-- The inverse hyperbolic tangent, for a number between minus one and one. The quotient keeps the
sign of `x`, so near minus one it is known only to the last place of one, and the two sides of zero
do not mirror each other. -/
def atanh (x : Float) : Float := 0.5 * logOnePlus ((2 * x) / (1 - x))

end Reckoner.Binary64
