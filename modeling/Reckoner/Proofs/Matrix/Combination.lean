import Reckoner.Proofs.Matrix.Cells
import Reckoner.Value.Arithmetic

/-! The operators on vectors: whichever way a combination takes, its cells are the combinations of the cells. -/
namespace Reckoner

namespace Matrix
variable {limit width height : Nat}

/-- Only the size of a shape is a reason to refuse it. -/
private theorem room_error {e : RuntimeError} (h : room limit width height = .error e) :
    ∃ count, e = .allocationFailed count := by
  simp only [room] at h
  split at h
  · cases h
    exact ⟨_, rfl⟩
  · split at h
    · cases h
      exact ⟨_, rfl⟩
    · cases h

section
variable {extent : Extent} {a b : Matrix} (hwidth : extent.of a.width b.width = width)
  (hheight : extent.of a.height b.height = height) (f : Number → Number → Except RuntimeError Number)
include hwidth hheight

/-- Overwriting the first matrix comes to the same as making a new one. -/
private theorem combine_eq (ha : a.WellFormed)
    (h : a.width = width ∧ a.height = height ∨ ∃ count, room limit width height = .ok count) :
    a.combine limit extent f b = rowByRow width height fun x y => f (a.getOrZero x y) (b.getOrZero x y) := by
  subst hwidth hheight
  by_cases hshape : a.width = extent.of a.width b.width ∧ a.height = extent.of a.height b.height
  · rw [combine, if_pos hshape, overwrite_eq ha, ← hshape.1, ← hshape.2]
  · obtain ⟨count, hroom⟩ := h.resolve_left hshape
    rw [combine, if_neg hshape, tabulate_eq _ hroom]

theorem combine_error {e : RuntimeError} (hshape : ¬(a.width = width ∧ a.height = height))
    (hroom : room limit width height = .error e) : a.combine limit extent f b = .error e := by
  subst hwidth hheight
  rw [combine, if_neg hshape, tabulate_error _ hroom]

end

end Matrix

namespace Value
open Reckoner.Matrix (room tabulate ComesTo)

private theorem extent_of (op : Builtin) (p q : Nat) :
    (extent op).of p q = if op ∈ [.add, .sub, .pow, .bitOr, .bitXor] then max p q else min p q := by
  cases op <;> rfl

/-- What an arithmetic operator makes of two vectors has the larger of the shapes under `+`, `-`, `^`, `or` and `xor`
and the smaller one otherwise. Each of its cells is the combination of the cells in that place, zero where a vector has
none, and the first cell that has no value, row by row, is the reason why there is no result. That is so when the first
vector has the shape of the result, so that its cells are overwritten, and when there is room for new ones; in the first
case both ways give the same. Otherwise the result is refused before any cell is computed. A number is a vector of one
cell in a sum, and goes with each cell of a vector otherwise, on either side. -/
theorem combine_cell_by_cell (op : Builtin) {a b : Matrix} (ha : a.WellFormed) (hb : b.WellFormed) (limit : Nat) :
    let larger := op ∈ [Builtin.add, .sub, .pow, .bitOr, .bitXor]
    let width := if larger then max a.width b.width else min a.width b.width
    let height := if larger then max a.height b.height else min a.height b.height
    let cell x y := numberBinary op (a.getOrZero x y) (b.getOrZero x y)
    let overwrites := a.width = width ∧ a.height = height
    binary op (.vector a) (.vector b) limit = .vector <$> combine op a b limit ∧
    (overwrites ∨ (∃ count, room limit width height = .ok count) →
      ComesTo width height cell (combine op a b limit) ∧
      ((∃ e, combine op a b limit = .error e) ↔ ∃ x y e, x < width ∧ y < height ∧ cell x y = .error e)) ∧
    (overwrites → ∀ count, room limit width height = .ok count → combine op a b limit = tabulate limit width height cell) ∧
    (¬overwrites → ∀ e, room limit width height = .error e →
      combine op a b limit = .error e ∧ ∃ count, e = .allocationFailed count) ∧
    ∀ n,
      (op = .add →
        binary op (.number n) (.vector b) limit = .vector <$> combine op (.scalar n) b limit ∧
        binary op (.vector a) (.number n) limit = .vector <$> combine op a (.scalar n) limit) ∧
      (op ≠ .add → ∃ r r',
        binary op (.number n) (.vector b) limit = .vector <$> r ∧ binary op (.vector a) (.number n) limit = .vector <$> r' ∧
        ComesTo b.width b.height (fun x y => numberBinary op n (b.getOrZero x y)) r ∧
        ComesTo a.width a.height (fun x y => numberBinary op (a.getOrZero x y) n) r') := by
  intro larger width height cell overwrites
  have hwidth : (extent op).of a.width b.width = width := extent_of op _ _
  have hheight : (extent op).of a.height b.height = height := extent_of op _ _
  have hcells (h : overwrites ∨ ∃ count, room limit width height = .ok count) :
      combine op a b limit = Matrix.rowByRow width height cell :=
    Matrix.combine_eq hwidth hheight (numberBinary op) ha h
  refine ⟨rfl, fun h => ?_, fun h count hroom => ?_, fun h e hroom => ?_, fun n => ⟨fun h => ?_, fun h => ?_⟩⟩
  · have hcomes : ComesTo width height cell (combine op a b limit) := hcells h ▸ Matrix.rowByRow_comesTo width height cell
    exact ⟨hcomes, hcomes.fails_iff⟩
  · rw [hcells (.inl h), Matrix.tabulate_eq cell hroom]
  · exact ⟨Matrix.combine_error hwidth hheight _ h hroom, Matrix.room_error hroom⟩
  · subst h
    exact ⟨rfl, rfl⟩
  · have hbefore : binary op (.number n) (.vector b) limit = .vector <$> b.mapM (numberBinary op n) :=
      congrArg (Value.vector <$> ·) (if_neg h)
    have hbehind : binary op (.vector a) (.number n) limit = .vector <$> a.mapM (numberBinary op · n) :=
      congrArg (Value.vector <$> ·) (if_neg h)
    refine ⟨_, _, hbefore, hbehind, ?_, ?_⟩
    · rw [Matrix.mapM_eq hb]
      exact Matrix.rowByRow_comesTo _ _ _
    · rw [Matrix.mapM_eq ha]
      exact Matrix.rowByRow_comesTo _ _ _

/-- A row of two cells less a column of two. -/
theorem combine_cell_by_cell_of_crossing :
    let a : Matrix := ⟨2, 1, #[.one, .one]⟩
    let b : Matrix := ⟨1, 2, #[.one, .one]⟩
    a.WellFormed ∧ b.WellFormed ∧
      ComesTo 2 2 (fun x y => numberBinary .sub (a.getOrZero x y) (b.getOrZero x y)) (combine .sub a b 4) := by
  intro a b
  have hroom : ∃ count, room 4 2 2 = .ok count := ⟨4, rfl⟩
  exact ⟨rfl, rfl, ((combine_cell_by_cell .sub (a := a) (b := b) rfl rfl 4).2.1 (.inr hroom)).1⟩

/-- Each cell of two vectors without cells has a sum, yet there is no room for all of them. -/
theorem combine_without_room :
    let a : Matrix := ⟨1000000000, 0, #[]⟩
    let b : Matrix := ⟨0, 1000000000000, #[]⟩
    a.WellFormed ∧ b.WellFormed ∧ (∀ limit, combine .add a b limit = .error (.allocationFailed 0xffffffffffffffff)) ∧
      ∀ x y, ∃ n, numberBinary .add (a.getOrZero x y) (b.getOrZero x y) = .ok n := by
  intro a b
  have hwidth : (extent .add).of a.width b.width = 1000000000 := by decide
  have hheight : (extent .add).of a.height b.height = 1000000000000 := by decide
  have hshape : ¬(a.width = 1000000000 ∧ a.height = 1000000000000) := by decide
  have hroom (limit : Nat) : room limit 1000000000 1000000000000 = .error (.allocationFailed 0xffffffffffffffff) := by
    simp [room]
  have hcell (x y : Nat) : a.getOrZero x y = .zero ∧ b.getOrZero x y = .zero := by
    simp [Matrix.getOrZero, Matrix.get?, a, b]
  refine ⟨rfl, (Nat.zero_mul _).symm, fun limit => Matrix.combine_error hwidth hheight _ hshape (hroom limit),
    fun x y => ?_⟩
  rw [(hcell x y).1, (hcell x y).2]
  exact ⟨_, rfl⟩

end Value
end Reckoner
