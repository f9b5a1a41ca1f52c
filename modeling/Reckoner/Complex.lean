import Reckoner.Binary64.Arithmetic

/-! Complex numbers over binary64 and their elementary functions on the principal branch. Products
and quotients fuse each multiplication with the following sum. -/
namespace Reckoner

structure Complex where
  re : Float
  im : Float

namespace Complex

open Binary64 (fusedMulAdd)

def one : Complex := ⟨1, 0⟩

def i : Complex := ⟨0, 1⟩

def ofReal (x : Float) : Complex := ⟨x, 0⟩

def isReal (z : Complex) : Bool := z.im == 0

def isZero (z : Complex) : Bool := z.re == 0 && z.im == 0

def abs (z : Complex) : Float := Binary64.hypot z.re z.im

def arg (z : Complex) : Float := Float.atan2 z.im z.re

instance : Add Complex := ⟨fun z w => ⟨z.re + w.re, z.im + w.im⟩⟩

instance : Sub Complex := ⟨fun z w => ⟨z.re - w.re, z.im - w.im⟩⟩

instance : Mul Complex :=
  ⟨fun z w => ⟨fusedMulAdd z.re w.re (-(z.im * w.im)), fusedMulAdd z.re w.im (z.im * w.re)⟩⟩

instance : Div Complex :=
  ⟨fun z w =>
    let norm := fusedMulAdd w.re w.re (w.im * w.im)
    ⟨fusedMulAdd z.re w.re (z.im * w.im) / norm, fusedMulAdd z.im w.re (-(z.re * w.im)) / norm⟩⟩

def reciprocal (z : Complex) : Complex :=
  let norm := fusedMulAdd z.re z.re (z.im * z.im)
  ⟨z.re / norm, -(z.im / norm)⟩

private def powNat (z : Complex) (n : Nat) (product : Complex) : Complex :=
  if n = 0 then product
  else powNat (z * z) (n / 2) (if n % 2 = 1 then product * z else product)
termination_by n

def powInt (z : Complex) (n : Int) : Complex :=
  let power := powNat z n.natAbs one
  if n < 0 then power.reciprocal else power

def exp (z : Complex) : Complex :=
  let scale := z.re.exp
  ⟨scale * z.im.cos, scale * z.im.sin⟩

def ln (z : Complex) : Complex := ⟨z.abs.log, z.arg⟩

/-- `z` to the power `w`, and zero for a zero base. -/
def pow (z w : Complex) : Complex :=
  if z.isZero then ⟨0, 0⟩ else (w * z.ln).exp

def sqrt (z : Complex) : Complex :=
  let r := z.abs
  ⟨(Binary64.midpoint r z.re).sqrt, Binary64.copySign ((r - z.re) / 2).sqrt z.im⟩

def sin (z : Complex) : Complex := ⟨z.re.sin * z.im.cosh, z.re.cos * z.im.sinh⟩

def cos (z : Complex) : Complex := ⟨z.re.cos * z.im.cosh, -z.re.sin * z.im.sinh⟩

def tan (z : Complex) : Complex := z.sin / z.cos

def sinh (z : Complex) : Complex := ⟨z.re.sinh * z.im.cos, z.re.cosh * z.im.sin⟩

def cosh (z : Complex) : Complex := ⟨z.re.cosh * z.im.cos, z.re.sinh * z.im.sin⟩

def tanh (z : Complex) : Complex := z.sinh / z.cosh

def asin (z : Complex) : Complex := (i * z + (one - z * z).sqrt).ln * ⟨0, -1⟩

def acos (z : Complex) : Complex := (z + i * (one - z * z).sqrt).ln * ⟨0, -1⟩

def atan (z : Complex) : Complex := ((i + z) / (i - z)).ln * ⟨0, 0.5⟩

def asinh (z : Complex) : Complex := (z + (z * z + one).sqrt).ln

def acosh (z : Complex) : Complex := (z + (z + one).sqrt * (z - one).sqrt).ln

def atanh (z : Complex) : Complex := ((one + z).ln - (one - z).ln) * ⟨0.5, 0⟩

def lnTen : Float := 2.302585092994046

def log10 (z : Complex) : Complex :=
  let w := z.ln
  ⟨w.re / lnTen, w.im / lnTen⟩

end Complex
end Reckoner
