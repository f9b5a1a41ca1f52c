import Reckoner.Binary64.Basic

/-! Operations on binary64 numbers that are defined by their exact result: rounding to whole
numbers, the remainder, the fused product and sum, the hypotenuse, the cube root, and integer
readings. -/
namespace Reckoner.Binary64

def isWhole (x : Float) : Bool :=
  match parts x with
  | .finite _ m e => e ≥ 0 || m % (1 <<< e.natAbs) == 0
  | _ => false

/-- Rounds to a whole number: `up negative whole rest unit` says whether the magnitude
`whole + rest / unit` goes to `whole + 1`. The sign is kept, also that of zero. -/
def roundWhole (up : Bool → Nat → Nat → Nat → Bool) (x : Float) : Float :=
  match parts x with
  | .finite negative m e =>
    if e ≥ 0 then x
    else
      let unit := 1 <<< e.natAbs
      let whole := m / unit
      let rest := m % unit
      ofRatio negative (if up negative whole rest unit then whole + 1 else whole) 1
  | _ => x

def trunc : Float → Float := roundWhole fun _ _ _ _ => false

def floor : Float → Float := roundWhole fun negative _ rest _ => negative && rest != 0

def ceil : Float → Float := roundWhole fun negative _ rest _ => !negative && rest != 0

/-- Rounds to the nearest whole number; a half goes away from zero. -/
def round : Float → Float := roundWhole fun _ _ rest unit => unit ≤ 2 * rest

private def aligned (negative : Bool) (m : Nat) (e target : Int) : Int :=
  let shifted := m <<< (e - target).toNat
  if negative then -shifted else shifted

/-- `x * y + z` rounded once. -/
def fusedMulAdd (x y z : Float) : Float :=
  match parts x, parts y, parts z with
  | .finite sx mx ex, .finite sy my ey, .finite sz mz ez =>
    let sp := sx != sy
    let e := min (ex + ey) ez
    let total := aligned sp (mx * my) (ex + ey) e + aligned sz mz ez e
    if total = 0 then zero (sp && sz) else ofDyadic (total < 0) total.natAbs e
  | .finite .., .finite .., _ => z
  | _, _, _ => x * y + z

/-- The remainder of the division of `x` by `y` toward zero; it has the sign of `x` and is exact. -/
def rem (x y : Float) : Float :=
  match parts x, parts y with
  | .finite sx mx ex, .finite _ my ey =>
    if my = 0 then nan
    else
      let e := min ex ey
      let rest := (mx <<< (ex - e).toNat) % (my <<< (ey - e).toNat)
      ofDyadic sx rest e
  | .finite .., .infinite _ => x
  | _, _ => nan

/-- Newton's iteration for the root of `n` from above, at most `steps` times. -/
private def descendRoot (degree n : Nat) : Nat → Nat → Nat
  | 0, guess => guess
  | steps + 1, guess =>
    let next := ((degree - 1) * guess + n / Nat.pow guess (degree - 1)) / degree
    if next < guess then descendRoot degree n steps next else guess

def rootFloor (degree n : Nat) : Nat :=
  if n = 0 then 0 else descendRoot degree n (n.log2 + 2) (1 <<< (n.log2 / degree + 1))

/-- The number nearest to the root of `m * 2 ^ (degree * e)`: 64 bits are kept beyond the point where
the root of `m` ends, and an inexact root counts as slightly larger. -/
private def rootOfDyadic (degree : Nat) (negative : Bool) (m : Nat) (e : Int) : Float :=
  let scaled := m <<< (64 * degree)
  let root := rootFloor degree scaled
  let sticky := if Nat.pow root degree = scaled then 0 else 1
  ofDyadic negative (2 * root + sticky) (e - 65)

/-- The square root of `x * x + y * y`, rounded once. -/
def hypot (x y : Float) : Float :=
  match parts x, parts y with
  | .infinite _, _ => infinity false
  | _, .infinite _ => infinity false
  | .finite _ mx ex, .finite _ my ey =>
    let e := min ex ey
    let a := mx <<< (ex - e).toNat
    let b := my <<< (ey - e).toNat
    if a * a + b * b = 0 then 0.0 else rootOfDyadic 2 false (a * a + b * b) e
  | _, _ => nan

/-- The cube root, rounded once, with the sign of `x`. The root of a cube is exact. -/
def cbrt (x : Float) : Float :=
  match parts x with
  | .finite negative m e =>
    if m = 0 then x else rootOfDyadic 3 negative (m <<< (e % 3).toNat) (e / 3)
  | _ => x

def midpoint (x y : Float) : Float :=
  match parts x, parts y with
  | .finite sx mx ex, .finite sy my ey =>
    let e := min ex ey
    let total := aligned sx mx ex e + aligned sy my ey e
    if total = 0 then zero (sx && sy) else ofDyadic (total < 0) total.natAbs (e - 1)
  | _, _ => x + y

def copySign (x y : Float) : Float :=
  if isNegative y then -x.abs else x.abs

def powNat (x : Float) (n : Nat) (product : Float) : Float :=
  if n = 0 then product
  else
    let product := if n % 2 = 1 then product * x else product
    powNat (x * x) (n / 2) product
termination_by n

/-- An integer power by repeated squaring from the lowest bit; a negative one is inverted at the
end. -/
def powInt (x : Float) (n : Int) : Float :=
  let power := powNat x n.natAbs 1.0
  if n < 0 then 1.0 / power else power

/-- The integer part, clamped to the signed integers of 64 bits; zero when there is none. -/
def toInt (x : Float) : Int :=
  match parts x with
  | .notANumber => 0
  | .infinite negative => if negative then -0x8000000000000000 else 0x7fffffffffffffff
  | .finite negative m e =>
    let whole : Nat := if e ≥ 0 then m <<< e.natAbs else m >>> e.natAbs
    if negative then max (-(whole : Int)) (-0x8000000000000000) else min (whole : Int) 0x7fffffffffffffff

/-- The order of readings: all numbers by size, zeros of both signs equal, and above them the one
that is not a number, equal to itself. -/
def order (x y : Float) : Ordering :=
  if x.isNaN then (if y.isNaN then .eq else .gt)
  else if y.isNaN then .lt
  else if x < y then .lt
  else if y < x then .gt
  else .eq

end Reckoner.Binary64
