import Reckoner.Binary64.Basic
import Reckoner.Text.Bytes

/-! Reading decimal text as the nearest binary64 number: an optional sign, digits with an optional
point and an optional exponent, or the words for infinity and for what is not a number. -/
namespace Reckoner.Binary64

def decimalValue (t : Text) : Nat := t.foldl (fun n c => n * 10 + (c.toNat - 48)) 0

def splitSign : Text → Bool × Text
  | '-' :: t => (true, t)
  | '+' :: t => (false, t)
  | t => (false, t)

def readInt (t : Text) : Option Int :=
  let (negative, digits) := splitSign t
  if digits.isEmpty || !digits.all Char.isDigit then none
  else some (if negative then -(decimalValue digits : Int) else decimalValue digits)

/-- The number nearest to `m * 10 ^ e`. A decimal that has its first digit far beyond the range of
binary64 is not worked out: it is infinite or zero. -/
def ofDecimal (negative : Bool) (m : Nat) (e : Int) : Float :=
  let order := (Text.ofNat m).length + e
  if m = 0 ∨ order < -400 then zero negative
  else if 400 < order then infinity negative
  else
    let magnitude := Float.ofScientific m (e < 0) e.natAbs
    if negative then -magnitude else magnitude

def splitFraction : Text → Text × Text
  | '.' :: t => (t.takeWhile Char.isDigit, t.dropWhile Char.isDigit)
  | t => ([], t)

def readPositional (negative : Bool) (t : Text) : Option Float :=
  let whole := t.takeWhile Char.isDigit
  let (fraction, rest) := splitFraction (t.dropWhile Char.isDigit)
  if whole.isEmpty && fraction.isEmpty then none
  else
    let value (e : Int) := ofDecimal negative (decimalValue (whole ++ fraction)) (e - fraction.length)
    match rest with
    | [] => some (value 0)
    | c :: exponent => if c = 'e' ∨ c = 'E' then (readInt exponent).map value else none

/-- The number that a decimal text stands for; the words may be written in either case. -/
def read (t : Text) : Option Float :=
  let (negative, body) := splitSign t
  let word := body.map Char.toLower
  if word = "inf".toList ∨ word = "infinity".toList then some (infinity negative)
  else if word = "nan".toList then some nan
  else readPositional negative body

end Reckoner.Binary64
