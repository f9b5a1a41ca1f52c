import Reckoner.Dimension.Table
import Reckoner.Registry
import Reckoner.Value

/-! What parsing and evaluation look names and limits up in. -/
namespace Reckoner

structure Config where
  /-- How often the body of one loop may run. -/
  maxLoopRounds : Nat := 100000
  /-- The binary digits behind the point of bignums made from numbers and strings. -/
  bignumPrecision : Nat := 256
  /-- The decimal digits behind the point that are shown of a bignum. -/
  bignumDigits : Nat := Bignum.displayDigits
  /-- How deep calls may be nested. -/
  maxCallDepth : Nat := 1000000
  /-- How many cells the memory has for one vector. -/
  maxVectorCells : Nat := Matrix.addressable

structure Environment where
  functions : Registry Function := {}
  globals : Registry Value := {}
  units : UnitTable := .si
  config : Config := {}

namespace Environment

def format (env : Environment) (v : Value) : Text := v.format env.config.bignumDigits

end Environment
end Reckoner
