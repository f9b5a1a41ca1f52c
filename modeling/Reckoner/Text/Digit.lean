import Reckoner.Text.Bytes

/-! Digits of the bases from 2 to 36: the ten decimal digits, then the letters of either case. -/
namespace Reckoner.Text

def digitValue (c : Char) : Option Nat :=
  if '0' ≤ c ∧ c ≤ '9' then some (c.toNat - '0'.toNat)
  else if 'a' ≤ c ∧ c ≤ 'z' then some (c.toNat - 'a'.toNat + 10)
  else if 'A' ≤ c ∧ c ≤ 'Z' then some (c.toNat - 'A'.toNat + 10)
  else none

def digitOf (base : Nat) (c : Char) : Option Nat := (digitValue c).filter (· < base)

/-- Whether a character is a digit of `base`; a base out of range counts as the nearest one in it. -/
def isDigitOf (base : Nat) (c : Char) : Bool := (digitOf (max 2 (min base 36)) c).isSome

def digitChar (n : Nat) : Char :=
  if n < 10 then Char.ofNat ('0'.toNat + n) else Char.ofNat ('a'.toNat + (n - 10))

def prependDigits (base n : Nat) (written : Text) : Text :=
  if _ : n = 0 ∨ base ≤ 1 then written
  else prependDigits base (n / base) (digitChar (n % base) :: written)
termination_by n
decreasing_by exact Nat.div_lt_self (by omega) (by omega)

def ofNatBase (base n : Nat) : Text :=
  if n = 0 then ['0'] else prependDigits base n []

/-- The number whose digits in `base` are the given characters, unless one of them is no such digit. -/
def natOfDigits (base : Nat) (digits : Text) : Option Nat :=
  digits.foldlM (fun n c => (digitOf base c).map (n * base + ·)) 0

end Reckoner.Text
