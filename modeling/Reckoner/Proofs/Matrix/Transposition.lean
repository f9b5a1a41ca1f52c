import Mathlib.Data.List.Nodup
import Mathlib.Data.List.Perm.Subperm
import Reckoner.Proofs.Matrix.Indexing
import Reckoner.Proofs.Matrix.Shapes

/-! Transposition: the cell in column `x` and row `y` comes to stand in column `y` and row `x`, and each cell is kept
once. Whoever asks the transpose for a cell with the indices exchanged gets the same answer, also where there is no
cell. -/
namespace Reckoner

namespace Matrix
variable {m m' : Matrix} {x y : Nat}

/-- A matrix has no cells but those inside its shape. -/
private theorem get?_eq_none_iff (hm : m.WellFormed) : m.get? x y = none ↔ ¬(x < m.width ∧ y < m.height) := by
  rw [get?]
  split
  · rename_i h
    have hlt : x + y * m.width < m.cells.size := hm ▸ index_lt h.1 h.2
    simp [h, hlt]
  · rename_i h
    simp [h]

/-- The cell with an index is the one in its column and row. -/
private theorem get?_index (hm : m.WellFormed) {k : Nat} (hk : k < m.cells.size) :
    m.get? (k % m.width) (k / m.width) = some m.cells[k] := by
  have hshape : k < m.width * m.height := hm ▸ hk
  rw [get?, if_pos ⟨mod_lt_width hshape, div_lt_height hshape⟩, mod_add_div_mul, Array.getElem?_eq_getElem hk]

/-- Matrices of one shape are equal when their cells are. -/
private theorem eq_of_get? (hm : m.WellFormed) (hm' : m'.WellFormed) (hwidth : m.width = m'.width)
    (hheight : m.height = m'.height) (h : ∀ x y, m.get? x y = m'.get? x y) : m = m' := by
  have hsize : m.cells.size = m'.cells.size := by rw [hm, hm', hwidth, hheight]
  have hcells : m.cells = m'.cells := by
    refine Array.ext hsize fun k hk hk' => ?_
    have hcell := h (k % m.width) (k / m.width)
    rw [get?_index hm hk, hwidth, get?_index hm' hk'] at hcell
    exact Option.some.inj hcell
  obtain ⟨width, height, cells⟩ := m
  cases hwidth
  cases hheight
  cases hcells
  rfl

private theorem transpose_getElem? {k : Nat} (hk : k < m.cells.size) :
    m.transpose.cells[k]? = some (m.getOrZero (k / m.height) (k % m.height)) := by
  simp [transpose, hk]

/-- The indices are exchanged. -/
private theorem get?_transpose (hm : m.WellFormed) (x y : Nat) : m.transpose.get? y x = m.get? x y := by
  have ht := transpose_wellFormed hm
  by_cases h : x < m.width ∧ y < m.height
  · have hindex : y + x * m.height < m.cells.size :=
      calc
        y + x * m.height < m.height * m.width := index_lt h.2 h.1
        _ = m.cells.size := by rw [hm, Nat.mul_comm]
    obtain ⟨n, hn⟩ := Option.ne_none_iff_exists'.mp (mt (get?_eq_none_iff hm).mp (not_not.mpr h))
    calc
      m.transpose.get? y x = m.transpose.cells[y + x * m.height]? := if_pos h.symm
      _ = some (m.getOrZero x y) := by rw [transpose_getElem? hindex, index_div h.2, index_mod h.2]
      _ = m.get? x y := by rw [getOrZero, hn, Option.getD_some]
  · rw [(get?_eq_none_iff ht).mpr (mt And.symm h), (get?_eq_none_iff hm).mpr h]

private theorem transpose_transpose (hm : m.WellFormed) : m.transpose.transpose = m := by
  have ht := transpose_wellFormed hm
  refine eq_of_get? (transpose_wellFormed ht) hm rfl rfl fun x y => ?_
  rw [get?_transpose ht, get?_transpose hm]

/-- The index that a cell of the transpose had before. -/
def source (m : Matrix) (k : Nat) : Nat := k / m.height + k % m.height * m.width

private theorem source_mod {k : Nat} (hk : k < m.height * m.width) : m.source k % m.width = k / m.height :=
  index_mod (div_lt_height hk)

private theorem source_div {k : Nat} (hk : k < m.height * m.width) : m.source k / m.width = k % m.height :=
  index_div (div_lt_height hk)

/-- Transposing once more takes a cell back. -/
private theorem source_transpose_source {k : Nat} (hk : k < m.height * m.width) : m.transpose.source (m.source k) = k :=
  calc
    m.transpose.source (m.source k) = m.source k / m.width + m.source k % m.width * m.height := rfl
    _ = k % m.height + k / m.height * m.height := by rw [source_div hk, source_mod hk]
    _ = k := mod_add_div_mul k m.height

/-- The cells of the transpose come from all places, each from its own. -/
private theorem map_source_perm (m : Matrix) :
    ((List.range (m.height * m.width)).map m.source).Perm (List.range (m.width * m.height)) := by
  have hinjective : ∀ k ∈ List.range (m.height * m.width), ∀ l ∈ List.range (m.height * m.width),
      m.source k = m.source l → k = l := by
    intro k hk l hl h
    rw [← source_transpose_source (List.mem_range.mp hk), h, source_transpose_source (List.mem_range.mp hl)]
  have hsubset : (List.range (m.height * m.width)).map m.source ⊆ List.range (m.width * m.height) := by
    intro l hl
    obtain ⟨k, hk, rfl⟩ := List.mem_map.mp hl
    rw [List.mem_range] at hk
    exact List.mem_range.mpr (index_lt (div_lt_height hk) (mod_lt_width hk))
  have hnodup := List.Nodup.map_on hinjective List.nodup_range
  exact (List.subperm_of_subset hnodup hsubset).perm_of_length_le (by simp [Nat.mul_comm])

/-- Nothing is lost and nothing is repeated. -/
private theorem transpose_cells_perm (hm : m.WellFormed) : m.transpose.cells.Perm m.cells := by
  have hsize : m.cells.size = m.height * m.width := hm.trans (Nat.mul_comm _ _)
  have htransposed : m.transpose.cells.toList =
      ((List.range (m.height * m.width)).map m.source).map fun k => m.getOrZero (k % m.width) (k / m.width) := by
    rw [transpose, Array.toList_map, Array.toList_range, hsize, List.map_map]
    refine List.map_congr_left fun k hk => ?_
    rw [Function.comp_apply, source_mod (List.mem_range.mp hk), source_div (List.mem_range.mp hk)]
  rw [Array.perm_iff_toList_perm, htransposed, toList_cells hm]
  exact (map_source_perm m).map _

end Matrix

def RuntimeError.OutOfBounds : RuntimeError → Prop
  | .indexOutOfBounds .. => True
  | _ => False

namespace Value
variable {m m' : Matrix}

/-- A number that is no count is refused before there is any question of bounds. -/
private theorem countOf_within (x : Float) : Ends (fun e => ¬e.OutOfBounds) (countOf x) fun _ => True := by
  have hwhole : Ends (fun e => ¬e.OutOfBounds) (wholeOf x) fun _ => True :=
    .ite (fun _ => id) fun _ => .ite (fun _ => id) fun _ => trivial
  exact hwhole.bind fun n _ => .ite (fun _ => id) fun _ => trivial

/-- A value stands for an index, or it does not, whatever function asks for it in whatever position. -/
private theorem indexArg_cases (v : Value) : (∃ n, ∀ function p, indexArg function p v = .ok n) ∨
    ∀ function p, ∃ e, indexArg function p v = .error e ∧ ¬e.OutOfBounds := by
  unfold indexArg numberArg
  cases v.number? with
  | none => exact .inr fun function p => ⟨_, rfl, id⟩
  | some a =>
    by_cases ha : (!a.isReal || !Binary64.isWhole a.re || a.re < 0) = true
    · refine .inr fun function p => ⟨.invalidArgument (.notIndex function p a.text), if_pos ha, id⟩
    · have hcount := countOf_within a.re
      have hread (function : Text) (p : Nat) : (do
          if !a.isReal || !Binary64.isWhole a.re || a.re < 0 then
            throw (.invalidArgument (.notIndex function p a.text))
          countOf a.re) = countOf a.re := if_neg ha
      cases hn : countOf a.re with
      | ok n => exact .inl ⟨n, fun function p => (hread function p).trans hn⟩
      | error e =>
        rw [hn] at hcount
        exact .inr fun function p => ⟨e, (hread function p).trans hn, hcount⟩

def cellAt (m : Matrix) (x y : Nat) : Except RuntimeError Value := do
  if m.width ≤ x then throw (.indexOutOfBounds (m.width - 1) x)
  match m.get? x y with
  | some n => return .number n
  | none => throw (.indexOutOfBounds (m.height - 1) y)

private theorem get_vector (m : Matrix) (column row : Value) : get (.vector m) column row =
    (do cellAt m (← indexArg Builtin.get.name 2 column) (← indexArg Builtin.get.name 3 row)) := rfl

private theorem cellAt_of_some {x y : Nat} {n : Number} (h : m.get? x y = some n) : cellAt m x y = .ok (.number n) := by
  have hx : x < m.width := by
    by_contra hx
    rw [Matrix.get?, if_neg fun hlt => hx hlt.1] at h
    cases h
  rw [cellAt, if_neg (Nat.not_le.mpr hx), h]
  rfl

private theorem cellAt_of_none {x y : Nat} (h : m.get? x y = none) : ∃ e, cellAt m x y = .error e ∧ e.OutOfBounds := by
  rw [cellAt, h]
  by_cases hx : m.width ≤ x
  · rw [if_pos hx]
    exact ⟨_, rfl, trivial⟩
  · rw [if_neg hx]
    exact ⟨_, rfl, trivial⟩

/-- Vectors that have each other's cells with the indices exchanged answer alike. -/
private theorem get_exchange (h : ∀ x y, m'.get? y x = m.get? x y) (column row : Value) :
    Coincide (fun e e' => e.OutOfBounds ↔ e'.OutOfBounds) Eq (get (.vector m') row column)
      (get (.vector m) column row) := by
  rw [get_vector, get_vector]
  -- the indices are read in opposite orders, so that where both are refused the errors may be about different ones
  rcases indexArg_cases column with ⟨x, hx⟩ | hx <;> rcases indexArg_cases row with ⟨y, hy⟩ | hy
  · rw [hx, hx, hy, hy]
    change Coincide _ Eq (cellAt m' y x) (cellAt m x y)
    cases hn : m.get? x y with
    | some n =>
      rw [cellAt_of_some hn, cellAt_of_some ((h x y).trans hn)]
      exact rfl
    | none =>
      obtain ⟨e, he, hbounds⟩ := cellAt_of_none hn
      obtain ⟨e', he', hbounds'⟩ := cellAt_of_none ((h x y).trans hn)
      rw [he, he']
      exact iff_of_true hbounds' hbounds
  · obtain ⟨e, he, hbounds⟩ := hy Builtin.get.name 3
    obtain ⟨e', he', hbounds'⟩ := hy Builtin.get.name 2
    rw [hx, hx, he, he']
    exact iff_of_false hbounds' hbounds
  · obtain ⟨e, he, hbounds⟩ := hx Builtin.get.name 2
    obtain ⟨e', he', hbounds'⟩ := hx Builtin.get.name 3
    rw [hy, hy, he, he']
    exact iff_of_false hbounds' hbounds
  · obtain ⟨e, he, hbounds⟩ := hx Builtin.get.name 2
    obtain ⟨e', he', hbounds'⟩ := hy Builtin.get.name 2
    rw [he, he']
    exact iff_of_false hbounds' hbounds

/-- The transpose of a vector has its cells, each once and at the exchanged indices, and the width and the height
exchanged; so a cell is asked for with the indices exchanged, by number or by value, and where the one vector has none,
the other has none. The loop that writes the columns down one after the other makes this vector and reads no cell that
is not there. Transposed again, it is what it was. -/
theorem transpose_exchanges_indices {m : Matrix} (hm : m.WellFormed) :
    ∃ t, transpose (.vector m) = .ok (.vector t) ∧ (∀ stray, Matrix.Checked.transpose stray m = .ok t) ∧
      t.WellFormed ∧ t.width = m.height ∧ t.height = m.width ∧ t.cells.Perm m.cells ∧
      (∀ x y, t.get? y x = m.get? x y) ∧ (∀ x y, m.get? x y = none ↔ ¬(x < m.width ∧ y < m.height)) ∧
      (∀ column row, Coincide (fun e e' => e.OutOfBounds ↔ e'.OutOfBounds) Eq (get (.vector t) row column)
        (get (.vector m) column row)) ∧
      transpose (.vector t) = .ok (.vector m) := by
  have hindices := Matrix.get?_transpose hm
  have hback : transpose (.vector m.transpose) = .ok (.vector m) :=
    congrArg (fun m => Except.ok (Value.vector m)) (Matrix.transpose_transpose hm)
  exact ⟨m.transpose, rfl, fun _ => Matrix.Checked.transpose_eq hm, Matrix.transpose_wellFormed hm, rfl, rfl,
    Matrix.transpose_cells_perm hm, hindices, fun _ _ => Matrix.get?_eq_none_iff hm, get_exchange hindices, hback⟩

/-- Three columns of two cells. -/
theorem transpose_exchanges_indices_of_columns :
    let m : Matrix := ⟨3, 2, #[.one, .zero, .i, .zero, .i, .one]⟩
    m.WellFormed ∧ ∃ t, transpose (.vector m) = .ok (.vector t) ∧ t.width = 2 ∧ t.height = 3 ∧ t.get? 1 2 = some .one ∧
      t.get? 2 1 = none := by
  intro m
  have hm : m.WellFormed := rfl
  obtain ⟨t, ht, -, -, hwidth, hheight, -, hindices, -⟩ := transpose_exchanges_indices hm
  exact ⟨hm, t, ht, hwidth, hheight, (hindices 2 1).trans rfl, (hindices 1 2).trans rfl⟩

end Value
end Reckoner
