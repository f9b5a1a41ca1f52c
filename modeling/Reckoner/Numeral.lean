import Reckoner.Binary64.Arithmetic
import Reckoner.Binary64.Reading
import Reckoner.Token

/-! The values of number literals. Plain decimal ones are rounded once; in any other base the digits
are summed up in binary64 from the left. -/
namespace Reckoner.Numeral

open Text (digitOf isDigitOf)

/-- A literal taken apart: the base that its prefix selects, its digits with their point, and its exponent
without the letter in front. -/
structure Literal where
  marked : Option Nat
  mantissa : Text
  exponent : Option Text
  deriving DecidableEq, Repr

/-- The base that a literal selects by its second character, behind a zero. -/
def markedBase (base : Nat) : Text → Option Nat
  | '0' :: letter :: _ => Lexeme.markedBase base letter
  | _ => none

def splitExponent (digitBase : Nat) (body : Text) : Text × Option Text :=
  if isDigitOf digitBase 'e' then (body, none)
  else match Text.cut (fun c => c == 'e' || c == 'E') body with
    | some (mantissa, exponent) => (mantissa, some exponent)
    | none => (body, none)

def takeApart (base : Nat) (t : Text) : Literal :=
  let marked := markedBase base t
  let (mantissa, exponent) := splitExponent (marked.getD base) (if marked.isSome then t.drop 2 else t)
  { marked, mantissa, exponent }

def wholeValue (base : Nat) (digits : Text) : Option Float :=
  digits.foldlM (fun value c => (digitOf base c).map fun d => value * Float.ofNat base + Float.ofNat d) 0.0

/-- Digits behind a point added to a value, together with the weight of the last one. -/
def addFraction (base : Nat) (value : Float) (digits : Text) : Option Float :=
  Prod.fst <$> digits.foldlM (fun (value, weight) c =>
    let weight := weight / Float.ofNat base
    (digitOf base c).map fun d => (value + Float.ofNat d * weight, weight)) (value, 1.0)

def readExponent (t : Text) : Option Int :=
  (Binary64.readInt t).filter fun n => -0x80000000 ≤ n && n < 0x80000000

def Literal.isPlain (base : Nat) (literal : Literal) : Bool := base == 10 && literal.marked.isNone

def Literal.digits (literal : Literal) : Text × Text :=
  (Text.cut (· == '.') literal.mantissa).getD (literal.mantissa, [])

/-- The value of a literal that is summed up digit by digit; the exponent scales by `base`. -/
def Literal.scaled (base : Nat) (literal : Literal) : Option Float := do
  let digitBase := literal.marked.getD base
  let (whole, fraction) := literal.digits
  guard !(whole.isEmpty && fraction.isEmpty)
  let value ← wholeValue digitBase whole
  let value ← addFraction digitBase value fraction
  match literal.exponent with
  | none => return value
  | some exponent =>
    let n ← readExponent exponent
    return value * Binary64.powInt (Float.ofNat base) n

def read (base : Nat) (t : Text) : Option Float :=
  let literal := takeApart base t
  if literal.isPlain base then Binary64.read t else literal.scaled base

end Reckoner.Numeral
