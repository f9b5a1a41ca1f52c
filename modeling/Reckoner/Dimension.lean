import Reckoner.Binary64.Basic
import Reckoner.Text.Bytes

/-! Physical dimensions: one signed exponent of eight bits for each base quantity. Products and
quotients add and subtract exponents with wrap-around, so a dimension is determined by its
exponents. -/
namespace Reckoner

inductive BaseQuantity
  | length | mass | time | current | temperature | amount | luminosity | information
  deriving DecidableEq, Repr

namespace BaseQuantity

/-- All base quantities in the order they are written. -/
def all : List BaseQuantity :=
  [length, mass, time, current, temperature, amount, luminosity, information]

def symbol : BaseQuantity → Text
  | length => "m".toList
  | mass => "kg".toList
  | time => "s".toList
  | current => "A".toList
  | temperature => "K".toList
  | amount => "mol".toList
  | luminosity => "cd".toList
  | information => "bit".toList

theorem mem_all (q : BaseQuantity) : q ∈ all := by cases q <;> decide

end BaseQuantity

structure Dimension where
  length : Int8
  mass : Int8
  time : Int8
  current : Int8
  temperature : Int8
  amount : Int8
  luminosity : Int8
  information : Int8
  deriving DecidableEq, Repr

namespace Dimension

def exponent (d : Dimension) : BaseQuantity → Int8
  | .length => d.length
  | .mass => d.mass
  | .time => d.time
  | .current => d.current
  | .temperature => d.temperature
  | .amount => d.amount
  | .luminosity => d.luminosity
  | .information => d.information

def ofExponents (f : BaseQuantity → Int8) : Dimension where
  length := f .length
  mass := f .mass
  time := f .time
  current := f .current
  temperature := f .temperature
  amount := f .amount
  luminosity := f .luminosity
  information := f .information

@[simp] theorem exponent_ofExponents (f : BaseQuantity → Int8) : (ofExponents f).exponent = f := by
  funext q
  cases q <;> rfl

@[simp] theorem ofExponents_exponent (d : Dimension) : ofExponents d.exponent = d := rfl

theorem ext_exponent {a b : Dimension} (h : ∀ q, a.exponent q = b.exponent q) : a = b := by
  rw [← ofExponents_exponent a, ← ofExponents_exponent b, funext h]

def dimensionless : Dimension := ofExponents fun _ => 0

def isDimensionless (d : Dimension) : Bool := d == dimensionless

def base (q : BaseQuantity) : Dimension := ofExponents fun r => if r = q then 1 else 0

instance : Mul Dimension := ⟨fun a b => ofExponents fun q => a.exponent q + b.exponent q⟩

instance : Div Dimension := ⟨fun a b => ofExponents fun q => a.exponent q - b.exponent q⟩

@[simp] theorem exponent_mul (a b : Dimension) (q : BaseQuantity) :
    (a * b).exponent q = a.exponent q + b.exponent q := congrFun (exponent_ofExponents _) q

@[simp] theorem exponent_div (a b : Dimension) (q : BaseQuantity) :
    (a / b).exponent q = a.exponent q - b.exponent q := congrFun (exponent_ofExponents _) q

@[simp] theorem exponent_dimensionless (q : BaseQuantity) : dimensionless.exponent q = 0 :=
  congrFun (exponent_ofExponents _) q

/-- The signed integer of 64 bits nearest to an integer. -/
def clampToWord (n : Int) : Int := max (-0x8000000000000000) (min n 0x7fffffffffffffff)

/-- An exponent times a real number: the product is rounded to binary64, cut toward zero, clamped to
a signed word of 64 bits and taken modulo 256. -/
def scaleExponent (n : Int8) (factor : Float) : Int8 :=
  let signed (negative : Bool) (whole : Nat) : Int8 :=
    Int8.ofInt (clampToWord (if negative then -whole else whole))
  match Binary64.parts factor with
  | .notANumber => 0
  | .infinite negative => if n = 0 then 0 else signed (negative != decide (n < 0)) 0x10000000000000000
  | .finite negative m e =>
    let product := n.toInt.natAbs * m
    if product = 0 then 0
    else
      let (p, d) := Binary64.shiftRatio product 1 (-e)
      let (mantissa, exponent) := Binary64.roundRatio p d
      let (w, v) := Binary64.shiftRatio mantissa 1 (-exponent)
      signed (negative != decide (n < 0)) (w / v)

def power (d : Dimension) (factor : Float) : Dimension :=
  ofExponents fun q => scaleExponent (d.exponent q) factor

/-- The dimension of a sum: equal dimensions stay, and a plain number takes the other side's
dimension. -/
def additive? (a b : Dimension) : Option Dimension :=
  if a = b ∨ b.isDimensionless then some a
  else if a.isDimensionless then some b
  else none

/-- One factor of the text: the symbol with its exponent, unless that is one. -/
private def factorText (q : BaseQuantity) (n : Int8) : Text :=
  if n = 1 then q.symbol else q.symbol ++ '^' :: Text.ofInt n.toInt

def text (d : Dimension) : Text :=
  Text.join ['*'] ((BaseQuantity.all.filter (d.exponent · ≠ 0)).map fun q => factorText q (d.exponent q))

end Dimension
end Reckoner
