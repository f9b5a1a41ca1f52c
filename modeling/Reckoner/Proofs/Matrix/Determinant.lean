import Reckoner.Proofs.Matrix.Elimination

/-! Determinants of matrices whose cells have one dimension in common. The elimination never fails: it divides by no zero,
and what it subtracts has the dimension of the cells. Each column adds a factor of this dimension, but a column in which
nothing but zeros is left makes the determinant a zero without any. -/
namespace Reckoner.Matrix

/-- As many rows as columns, and one dimension in all cells. -/
structure Uniform (u : Dimension) (n : Nat) (rows : List (List Number)) : Prop where
  height : rows.length = n
  width : ∀ row ∈ rows, row.length = n
  cells : ∀ row ∈ rows, ∀ c ∈ row, c.dimension = u

abbrev Succeeds {α : Type} (r : Except RuntimeError α) (Q : α → Prop) : Prop := Ends (fun _ => False) r Q

variable {u : Dimension} {n : Nat} {rows : List (List Number)}

private theorem div_succeeds {a b : Number} (hb : b.isZero = false) (ha : a.dimension = u)
    (hdimension : b.dimension = u) :
    Succeeds (a.div b) fun quotient => quotient.dimension = 1 := by
  rw [Number.div, hb]
  change a.dimension / b.dimension = 1
  rw [ha, hdimension, div_self']

private theorem sub_succeeds {a b : Number} (ha : a.dimension = u) (hb : b.dimension = u) :
    Succeeds (a.sub b) fun difference => difference.dimension = u := by
  rw [Number.sub, Number.commonDimension, ha, hb, Dimension.additive?_self]
  exact rfl

/-- A row that is cleared keeps the dimension of its cells. -/
private theorem clear_succeeds {pivot : Number} {pivotRest row : List Number} (hpivot : pivot.isZero = false)
    (hdimension : pivot.dimension = u) (hrest : ∀ c ∈ pivotRest, c.dimension = u) (hhead : (head row).dimension = u)
    (hrow : ∀ c ∈ row.tail, c.dimension = u) (hlength : row.tail.length = pivotRest.length) :
    Succeeds (clear pivot pivotRest row) fun cleared =>
      cleared.length = pivotRest.length ∧ ∀ c ∈ cleared, c.dimension = u := by
  unfold clear
  refine (div_succeeds hpivot hhead hdimension).bind fun factor hfactor => ?_
  have hcell (p : Number × Number) (hp : p ∈ row.tail.zip pivotRest) :
      Succeeds (p.1.sub (factor * p.2)) fun c => c.dimension = u := by
    refine sub_succeeds (hrow _ (List.of_mem_zip hp).1) ?_
    change factor.dimension * p.2.dimension = u
    rw [hfactor, one_mul, hrest _ (List.of_mem_zip hp).2]
  refine (Ends.mapM hcell).mono fun cleared ⟨hcount, hcells⟩ => ⟨?_, hcells⟩
  rw [hcount, List.length_zip, hlength, Nat.min_self]

private theorem Uniform.head_dimension (h : Uniform u (n + 1) rows) {row : List Number} (hrow : row ∈ rows) :
    (head row).dimension = u := by
  cases hcells : row with
  | nil =>
    have hwidth := h.width row hrow
    rw [hcells] at hwidth
    cases hwidth
  | cons c rest => exact h.cells row hrow c (by rw [hcells]; exact List.mem_cons_self)

/-- The rows that are left when the pivot's row changes places with the first one. -/
private theorem mem_others {position : Nat} (hrows : rows ≠ []) {row : List Number}
    (h : row ∈ (rows.set position (rows.headD [])).tail) : row ∈ rows := by
  obtain ⟨first, rest, rfl⟩ := List.exists_cons_of_ne_nil hrows
  rcases List.mem_or_eq_of_mem_set (List.mem_of_mem_tail h) with h | rfl
  · exact h
  · exact List.mem_cons_self

/-- One column: the rows without it, reduced by the pivot's row. -/
private theorem Uniform.step (h : Uniform u (n + 1) rows) {chosen : List Number} (hchosen : chosen ∈ rows)
    (position : Nat)
    (hpivot : (head chosen).isZero = false) :
    Succeeds ((rows.set position (rows.headD [])).tail.mapM (clear (head chosen) chosen.tail)) (Uniform u n) := by
  have hrows : rows ≠ [] := List.ne_nil_of_mem hchosen
  have htail {row : List Number} (hrow : row ∈ rows) : row.tail.length = n := by
    rw [List.length_tail, h.width row hrow]
    rfl
  have hcells {row : List Number} (hrow : row ∈ rows) : ∀ c ∈ row.tail, c.dimension = u :=
    fun c hc => h.cells row hrow c (List.mem_of_mem_tail hc)
  have hrow (row : List Number) (hrow : row ∈ (rows.set position (rows.headD [])).tail) :
      Succeeds (clear (head chosen) chosen.tail row) fun rest => rest.length = n ∧ ∀ c ∈ rest, c.dimension = u := by
    have hrow := mem_others hrows hrow
    rw [← htail hchosen]
    exact clear_succeeds hpivot (h.head_dimension hchosen) (hcells hchosen) (h.head_dimension hrow) (hcells hrow)
      ((htail hrow).trans (htail hchosen).symm)
  refine (Ends.mapM hrow).mono fun rest ⟨hcount, hrest⟩ => ?_
  refine ⟨?_, fun row hmem => (hrest row hmem).1, fun row hmem => (hrest row hmem).2⟩
  rw [hcount, List.length_tail, List.length_set, h.height]
  rfl

/-- An elimination succeeds, and gives the product of as many factors as there are columns, or a plain zero. -/
private theorem eliminate_succeeds (h : Uniform u n rows) (product : Number) :
    Succeeds (eliminate n product rows) fun d => d = .zero ∨ d.dimension = product.dimension * u ^ n := by
  induction n generalizing product rows with
  | zero => exact .inr (by rw [pow_zero, mul_one])
  | succ n ih =>
    have hrows : rows ≠ [] := List.ne_nil_of_length_eq_add_one h.height
    have hchosen : rows.getD (pivot rows) [] ∈ rows := by
      rw [List.getD_eq_getElem _ _ (Checked.pivot_lt hrows)]
      exact List.getElem_mem _
    rw [eliminate]
    generalize rows.getD (pivot rows) [] = chosen at hchosen
    refine .ite (fun _ => .inl rfl) fun hpivot => ?_
    refine (h.step hchosen _ (Bool.not_eq_true _ ▸ hpivot)).bind fun rest hrest => ?_
    refine (ih hrest _).mono fun d hd => hd.imp_right fun hd => ?_
    have hproduct : (if pivot rows = 0 then product else -product).dimension = product.dimension := by
      split <;> rfl
    rw [hd]
    change (if pivot rows = 0 then product else -product).dimension * (head chosen).dimension * u ^ n = _
    rw [hproduct, h.head_dimension hchosen, mul_assoc, ← pow_succ']

variable {m : Matrix}

private theorem rows_uniform (hm : m.WellFormed) (hsquare : m.width = m.height)
    (hcells : ∀ c ∈ m.cells, c.dimension = u) :
    Uniform u m.width m.rows := by
  have hrow {row : List Number} (hrow : row ∈ m.rows) :
      ∃ y < m.height, row = (List.range m.width).map fun x => m.getOrZero x y := by
    obtain ⟨y, hy, rfl⟩ := List.mem_map.mp hrow
    exact ⟨y, List.mem_range.mp hy, rfl⟩
  refine ⟨by simp [rows, hsquare], fun row hmem => ?_, fun row hmem c hc => ?_⟩
  · obtain ⟨y, -, rfl⟩ := hrow hmem
    simp
  · obtain ⟨y, hy, rfl⟩ := hrow hmem
    obtain ⟨x, hx, rfl⟩ := List.mem_map.mp hc
    have hx := List.mem_range.mp hx
    have hindex : x + y * m.width < m.cells.size := hm ▸ index_lt hx hy
    rw [getOrZero_of_lt hx hy, Array.getD, dif_pos hindex]
    exact hcells _ (Array.getElem_mem hindex)

/-- The determinant of a square matrix whose cells have one dimension: it exists, and unless it is a plain zero its
dimension is the power of that of the cells. -/
theorem det_of_uniform (hm : m.WellFormed) (hsquare : m.width = m.height) (hcells : ∀ c ∈ m.cells, c.dimension = u) :
    ∃ d, m.det = .ok d ∧ (d = .zero ∨ d.dimension = u ^ m.width) := by
  have hends := eliminate_succeeds (rows_uniform hm hsquare hcells) .one
  rw [det, if_neg (not_not.mpr hsquare)]
  cases hd : eliminate m.width .one m.rows with
  | error e =>
    rw [hd] at hends
    exact hends.elim
  | ok d =>
    rw [hd] at hends
    exact ⟨d, rfl, hends.imp_right fun hd => hd.trans (one_mul _)⟩

/-- When a matrix has nothing but zeros in its first column, its determinant is a zero without a dimension, whatever the
dimension of the cells. -/
theorem det_of_zero_column (hsquare : m.width = m.height) (hwidth : 0 < m.width)
    (hzero : ∀ y < m.height, (m.getOrZero 0 y).isZero) : m.det = .ok .zero := by
  obtain ⟨n, hn⟩ := Nat.exists_eq_succ_of_ne_zero (Nat.ne_of_gt hwidth)
  have hrows : m.rows ≠ [] := by
    refine List.ne_nil_of_length_pos ?_
    simpa [rows, ← hsquare] using hwidth
  have hhead : (head (m.rows.getD (pivot m.rows) [])).isZero := by
    have hlt := Checked.pivot_lt hrows
    have hpivot : pivot m.rows < m.height := by simpa [rows] using hlt
    have hrow : m.rows.getD (pivot m.rows) [] = (List.range m.width).map fun x => m.getOrZero x (pivot m.rows) := by
      rw [List.getD_eq_getElem _ _ hlt]
      simp [rows]
    rw [hrow, hn, List.range_succ_eq_map]
    exact hzero _ hpivot
  rw [det, if_neg (not_not.mpr hsquare), hn, eliminate]
  exact if_pos hhead

end Reckoner.Matrix
