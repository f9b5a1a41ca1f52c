import Reckoner.Complex
import Reckoner.Dimension
import Reckoner.Binary64.Decimal
import Reckoner.Binary64.Logarithm

/-! Complex numbers that carry a physical dimension, and the functions on them that cannot fail. -/
namespace Reckoner

/-- A complex number relative to the base units of its dimension. -/
structure Number extends Complex where
  dimension : Dimension

namespace Number

def real (x : Float) : Number := ⟨⟨x, 0⟩, .dimensionless⟩

def zero : Number := real 0

def one : Number := real 1

def i : Number := ⟨.i, .dimensionless⟩

def withDimension (n : Number) (d : Dimension) : Number := { n with dimension := d }

/-- Equality part by part, with equal dimensions; what is not a number differs from itself. -/
def eqv (a b : Number) : Bool := a.re == b.re && a.im == b.im && a.dimension == b.dimension

def reading (n : Number) : Float := n.re + n.im

def neg (n : Number) : Number := ⟨⟨-n.re, -n.im⟩, n.dimension⟩

def conj (n : Number) : Number := { n with im := -n.im }

def mul (a b : Number) : Number :=
  let value : Complex :=
    if a.isReal && b.isReal then .ofReal (a.re * b.re)
    else if b.isReal then ⟨a.re * b.re, a.im * b.re⟩
    else if a.isReal then ⟨a.re * b.re, a.re * b.im⟩
    else a.toComplex * b.toComplex
  ⟨value, a.dimension * b.dimension⟩

instance : Mul Number := ⟨mul⟩

instance : Neg Number := ⟨neg⟩

/-- A real power of a real number. One to any power is one. -/
def realPower (x y : Float) : Float := if x == 1 then 1 else Float.pow x y

/-- A power. Real bases stay real where the result is real, whole exponents are multiplied out and
all others take the principal branch; the dimension is raised to the real part of the exponent. -/
def pow (a b : Number) : Number :=
  let whole := b.isReal && Binary64.isWhole b.re
  let value : Complex :=
    if a.isReal && b.isReal && (a.re ≥ 0 || whole || a.re.isNaN) then .ofReal (realPower a.re b.re)
    else if whole && b.re.abs ≤ 2147483647 then a.toComplex.powInt (Binary64.toInt b.re)
    else if a.isZero then ⟨0, 0⟩
    else (b.toComplex * a.toComplex.ln).exp
  ⟨value, a.dimension.power b.re⟩

def bitwise (op : Int64 → Int64 → Int64) (a b : Number) : Number :=
  let word (x : Float) := Int64.ofInt (Binary64.toInt x)
  ⟨.ofReal (Binary64.ofInt (op (word a.re) (word b.re)).toInt), a.dimension⟩

def atan2 (y x : Number) : Number := real (Float.atan2 y.re x.re)

def sqrt (n : Number) : Number :=
  let value : Complex := if n.isReal && n.re ≥ 0 then .ofReal n.re.sqrt else n.toComplex.sqrt
  ⟨value, n.dimension.power 0.5⟩

/-- The cube root; a real number has a real one. -/
def cbrt (n : Number) : Number :=
  let third : Float := 1 / 3
  let value : Complex := if n.isReal then .ofReal (Binary64.cbrt n.re) else n.toComplex.pow (.ofReal third)
  ⟨value, n.dimension.power third⟩

/-- A plain function: `onReals` where the number is real and inside the domain, `onComplex`
elsewhere. -/
private def plain (inDomain : Float → Bool) (onReals : Float → Float) (onComplex : Complex → Complex)
    (n : Number) : Number :=
  if n.isReal && inDomain n.re then real (onReals n.re) else ⟨onComplex n.toComplex, .dimensionless⟩

private def everywhere (_ : Float) : Bool := true

def sin : Number → Number := plain everywhere Float.sin Complex.sin

def cos : Number → Number := plain everywhere Float.cos Complex.cos

def tan : Number → Number := plain everywhere Float.tan Complex.tan

def sinh : Number → Number := plain everywhere Float.sinh Complex.sinh

def cosh : Number → Number := plain everywhere Float.cosh Complex.cosh

def tanh : Number → Number := plain everywhere Float.tanh Complex.tanh

def asin : Number → Number := plain (·.abs ≤ 1) Float.asin Complex.asin

def acos : Number → Number := plain (·.abs ≤ 1) Float.acos Complex.acos

def atan : Number → Number := plain everywhere Float.atan Complex.atan

def asinh : Number → Number := plain everywhere Float.asinh Complex.asinh

def acosh : Number → Number := plain (· ≥ 1) Float.acosh Complex.acosh

def atanh : Number → Number := plain (·.abs < 1) Binary64.atanh Complex.atanh

def ln : Number → Number := plain (· ≥ 0) Float.log Complex.ln

def log10 : Number → Number := plain (· ≥ 0) Float.log10 Complex.log10

def exp : Number → Number := plain everywhere Float.exp Complex.exp

def mapParts (f : Float → Float) (n : Number) : Number := ⟨⟨f n.re, f n.im⟩, n.dimension⟩

def magnitude (n : Number) : Number := ⟨.ofReal n.abs, n.dimension⟩

def realPart (n : Number) : Number := ⟨.ofReal n.re, n.dimension⟩

def imaginaryPart (n : Number) : Number := ⟨.ofReal n.im, n.dimension⟩

def phase (n : Number) : Number := real n.arg

/-- The sign of a real number, and the point of the unit circle in the direction of another one. -/
def sign (n : Number) : Number :=
  if n.isReal then
    real (if n.re == 0 || n.re.isNaN then n.re else if n.re < 0 then -1 else 1)
  else
    let size := n.abs
    ⟨⟨n.re / size, n.im / size⟩, .dimensionless⟩

/-- The parts that are not zero, and the dimension behind a space. -/
def text (n : Number) : Text :=
  let value :=
    if n.im == 0 then Binary64.text n.re
    else if n.re == 0 then Binary64.text n.im ++ ['i']
    else if n.im > 0 then Binary64.text n.re ++ " + ".toList ++ Binary64.text n.im ++ ['i']
    else Binary64.text n.re ++ " - ".toList ++ Binary64.text (-n.im) ++ ['i']
  if n.dimension.isDimensionless then value else value ++ ' ' :: n.dimension.text

end Number
end Reckoner
