import Reckoner.Number.Arithmetic

/-! Matrices of numbers, row by row, and the operations on them: transposition, cell-wise
combination, products and determinants. A matrix has as many cells as its width times its height. -/
namespace Reckoner

/-- A matrix; the cell in column `x` and row `y` has the index `x + y * width`. -/
structure Matrix where
  width : Nat
  height : Nat
  cells : Array Number

namespace Matrix

def WellFormed (m : Matrix) : Prop := m.cells.size = m.width * m.height

/-- How many cells of 24 bytes addresses of 47 bits reach. -/
def addressable : Nat := 0x7fffffffffff / 24

/-- The number of cells of a shape, when there is room for them: 64 bits have to hold the number, and the memory has
`limit` cells. -/
def room (limit width height : Nat) : Except RuntimeError Nat :=
  let count := width * height
  if 0xffffffffffffffff < count then .error (.allocationFailed 0xffffffffffffffff)
  else if limit < count then .error (.allocationFailed count)
  else .ok count

def eqv (a b : Matrix) : Bool :=
  a.width == b.width && a.height == b.height && a.cells.isEqv b.cells Number.eqv

def ofCells? (width height : Nat) (cells : Array Number) : Option Matrix :=
  if width * height = cells.size ∧ cells.size ≤ 0xffffffffffffffff then some ⟨width, height, cells⟩
  else none

def scalar (n : Number) : Matrix := ⟨1, 1, #[n]⟩

def filled (limit width height : Nat) (n : Number) : Except RuntimeError Matrix := do
  let count ← room limit width height
  return ⟨width, height, Array.replicate count n⟩

def get? (m : Matrix) (x y : Nat) : Option Number :=
  if x < m.width ∧ y < m.height then m.cells[x + y * m.width]? else none

def getOrZero (m : Matrix) (x y : Nat) : Number := (m.get? x y).getD .zero

/-- The matrix whose cells are computed one after the other, row by row; the first failure is the
result. -/
def tabulate (limit width height : Nat) (f : Nat → Nat → Except RuntimeError Number) :
    Except RuntimeError Matrix := do
  let count ← room limit width height
  let cells ← (Array.range count).mapM fun k => f (k % width) (k / width)
  return ⟨width, height, cells⟩

def identity (limit n : Nat) : Except RuntimeError Matrix :=
  tabulate limit n n fun x y => .ok (if x = y then .one else .zero)

def transpose (m : Matrix) : Matrix where
  width := m.height
  height := m.width
  cells := (Array.range m.cells.size).map fun k => m.getOrZero (k / m.height) (k % m.height)

def map (f : Number → Number) (m : Matrix) : Matrix := { m with cells := m.cells.map f }

def mapM (f : Number → Except RuntimeError Number) (m : Matrix) : Except RuntimeError Matrix := do
  return { m with cells := ← m.cells.mapM f }

inductive Extent
  | larger | smaller
  deriving DecidableEq

def Extent.of : Extent → Nat → Nat → Nat
  | larger => max
  | smaller => min

/-- The cells overwritten one after the other, row by row, by a function of the place and of the cell that stood
there; the first failure is the result. -/
def overwrite (f : Nat → Nat → Number → Except RuntimeError Number) (m : Matrix) : Except RuntimeError Matrix := do
  let mut cells := m.cells
  for y in [:m.height] do
    for x in [:m.width] do
      let index := x + y * m.width
      cells := cells.setIfInBounds index (← f x y (cells.getD index .zero))
  return { m with cells }

/-- Two matrices cell by cell, zeros standing in for the cells that one of them lacks. The cells of the first one are
overwritten when it has the shape of the result; otherwise there must be room for new ones. -/
def combine (limit : Nat) (extent : Extent) (f : Number → Number → Except RuntimeError Number) (a b : Matrix) :
    Except RuntimeError Matrix :=
  let width := extent.of a.width b.width
  let height := extent.of a.height b.height
  if a.width = width ∧ a.height = height then a.overwrite fun x y n => f n (b.getOrZero x y)
  else tabulate limit width height fun x y => f (a.getOrZero x y) (b.getOrZero x y)

def reading (m : Matrix) : Float := m.cells.foldl (fun total n => total + n.reading) (-0.0)

def sum (m : Matrix) : Except RuntimeError Number := m.cells.foldlM Number.add .zero

def rows (m : Matrix) : List (List Number) :=
  (List.range m.height).map fun y => (List.range m.width).map fun x => m.getOrZero x y

def mul (limit : Nat) (a b : Matrix) : Except RuntimeError Matrix :=
  if a.width ≠ b.height then .error (.shapeMismatch (.notChained a.width a.height b.width b.height))
  else
    tabulate limit b.width a.height fun x y =>
      (List.range a.width).foldlM (fun total k => total.add (a.getOrZero k y * b.getOrZero x k)) Number.zero

def head (row : List Number) : Number := row.headD .zero

/-- The position of the row whose first cell is largest, the last one of several. -/
def pivot : List (List Number) → Nat
  | [] => 0
  | row :: rows =>
    let rec go (best : Nat) (size : Float) (position : Nat) : List (List Number) → Nat
      | [] => best
      | row :: rows =>
        let size' := (head row).abs
        if Binary64.order size size' = .gt then go best size (position + 1) rows
        else go position size' (position + 1) rows
    go 0 (head row).abs 1 rows

/-- A row without its first cell, less the multiple of the pivot's row that clears that cell. -/
def clear (pivotHead : Number) (pivotRest row : List Number) :
    Except RuntimeError (List Number) := do
  let factor ← (head row).div pivotHead
  (row.tail.zip pivotRest).mapM fun (n, p) => n.sub (factor * p)

/-- Elimination column by column: the determinant of the rows times `product`. -/
def eliminate : Nat → Number → List (List Number) → Except RuntimeError Number
  | 0, product, _ => .ok product
  | n + 1, product, rows => do
    let position := pivot rows
    let chosen := rows.getD position []
    if (head chosen).isZero then return .zero
    let others := (rows.set position (rows.headD [])).tail
    let product := if position = 0 then product else -product
    let rest ← others.mapM (clear (head chosen) chosen.tail)
    eliminate n (product * head chosen) rest

def det (m : Matrix) : Except RuntimeError Number :=
  if m.width ≠ m.height then .error (.shapeMismatch (.notSquare m.width m.height))
  else eliminate m.width .one m.rows

def text (m : Matrix) : Text :=
  let cell (k : Nat) (n : Number) : Text :=
    if k = 0 then n.text else (if k % m.width = 0 then "; ".toList else ", ".toList) ++ n.text
  '<' :: (m.cells.toList.mapIdx cell).flatten ++ ['>']

end Matrix
end Reckoner
