import Reckoner.Dimension

/-! Tables of unit names. A name that is not listed may be a listed one behind a metric letter; a
listed name always wins over that reading. -/
namespace Reckoner

structure Measure where
  multiplier : Float
  dimension : Dimension

/-- Unit names with their measures; a name occurs once. -/
structure UnitTable where
  entries : List (Text × Measure)

namespace UnitTable

def empty : UnitTable := ⟨[]⟩

def insert (table : UnitTable) (name : Text) (measure : Measure) : UnitTable :=
  ⟨(name, measure) :: table.entries.filter (·.1 ≠ name)⟩

def find? (table : UnitTable) (name : Text) : Option Measure := table.entries.lookup name

def metricLetter : Char → Option Float
  | 'Y' => some 1e24
  | 'Z' => some 1e21
  | 'E' => some 1e18
  | 'P' => some 1e15
  | 'T' => some 1e12
  | 'G' => some 1e9
  | 'M' => some 1e6
  | 'k' => some 1e3
  | 'h' => some 1e2
  | 'd' => some 1e-1
  | 'c' => some 1e-2
  | 'm' => some 1e-3
  | 'u' => some 1e-6
  | 'n' => some 1e-9
  | 'p' => some 1e-12
  | 'f' => some 1e-15
  | 'a' => some 1e-18
  | 'z' => some 1e-21
  | 'y' => some 1e-24
  | _ => none

/-- The measure of a name, read with a metric letter in front when it is not listed itself. -/
def lookup (table : UnitTable) (name : Text) : Option Measure :=
  match table.find? name with
  | some measure => some measure
  | none =>
    match name with
    | letter :: rest =>
      if rest.isEmpty then none
      else do
        let scale ← metricLetter letter
        let measure ← table.find? rest
        return { measure with multiplier := measure.multiplier * scale }
    | [] => none

private def unit (name : String) (multiplier : Float) (length mass time current : Int8) : Text × Measure :=
  (name.toList, ⟨multiplier, ⟨length, mass, time, current, 0, 0, 0, 0⟩⟩)

def si : UnitTable where
  entries :=
    [ unit "m" 1 1 0 0 0, unit "g" 1e-3 0 1 0 0, unit "kg" 1 0 1 0 0, unit "s" 1 0 0 1 0, unit "A" 1 0 0 0 1,
      ("K".toList, ⟨1, .base .temperature⟩), ("mol".toList, ⟨1, .base .amount⟩),
      ("cd".toList, ⟨1, .base .luminosity⟩), ("bit".toList, ⟨1, .base .information⟩),
      ("B".toList, ⟨8, .base .information⟩),
      unit "Hz" 1 0 0 (-1) 0, unit "N" 1 1 1 (-2) 0, unit "Pa" 1 (-1) 1 (-2) 0, unit "J" 1 2 1 (-2) 0,
      unit "W" 1 2 1 (-3) 0, unit "C" 1 0 0 1 1, unit "V" 1 2 1 (-3) (-1), unit "ohm" 1 2 1 (-3) (-2),
      unit "F" 1 (-2) (-1) 4 2, unit "T" 1 0 1 (-2) (-1), unit "L" 1e-3 3 0 0 0, unit "min" 60 0 0 1 0,
      unit "h" 3600 0 0 1 0, unit "day" 86400 0 0 1 0 ]

end UnitTable
end Reckoner
