import Reckoner.Text.Bytes

/-! The kinds of values, and the sets of kinds that an argument may have. -/
namespace Reckoner

inductive Kind
  | number | vector | function | bignum | string
  deriving DecidableEq, Repr

def Kind.text : Kind → Text
  | .number => "number".toList
  | .vector => "vector".toList
  | .function => "function".toList
  | .bignum => "bignum".toList
  | .string => "string".toList

abbrev KindSet := List Kind

namespace KindSet

def elementwise : KindSet := [.number, .vector]

def numeric : KindSet := [.number, .vector, .bignum]

def additive : KindSet := [.number, .vector, .bignum, .string]

def representable : KindSet := [.number, .bignum, .string]

def any : KindSet := [.number, .vector, .function, .bignum, .string]

/-- The names of the kinds, with `or` before the last. -/
def text (kinds : KindSet) : Text :=
  match kinds.getLast? with
  | none => "nothing".toList
  | some last =>
    let others := kinds.dropLast
    if others.isEmpty then last.text
    else Text.join ", ".toList (others.map Kind.text) ++ " or ".toList ++ last.text

end KindSet
end Reckoner
