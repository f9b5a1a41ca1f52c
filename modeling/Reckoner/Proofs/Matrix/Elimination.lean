import Reckoner.Proofs.Dimension.Group
import Reckoner.Proofs.Matrix.Indexing

/-! Determinants by elimination in place: rows are searched, swapped and reduced by index in one grid that keeps its
size. With each index checked the determinant is that of the elimination that drops a row and a column at each step. -/
namespace Reckoner.Matrix

abbrev Grid := Array (Array Number)

namespace Checked

section
variable (stray : RuntimeError)

def chunks (size : Nat) (cells : Array Number) : Except RuntimeError Grid :=
  if size = 0 then .error stray
  else .ok ((Array.range ((cells.size + size - 1) / size)).map fun y => cells.extract (y * size) (y * size + size))

def entry (grid : Grid) (y x : Nat) : Except RuntimeError Number := do
  read stray (← read stray grid y) x

def setEntry (grid : Grid) (y x : Nat) (n : Number) : Except RuntimeError Grid := do
  write stray grid y (← write stray (← read stray grid y) x n)

def swap (grid : Grid) (i j : Nat) : Except RuntimeError Grid := do
  let row ← read stray grid i
  let other ← read stray grid j
  write stray (← write stray grid i other) j row

def bringUp (column position : Nat) (grid : Grid) : Except RuntimeError Grid :=
  if position = column then .ok grid else swap stray grid position column

/-- Of two rows the one whose entry in the column is larger, the second one of a tie. -/
def larger (grid : Grid) (column best row : Nat) : Except RuntimeError Nat := do
  let size := (← entry stray grid best column).abs
  let size' := (← entry stray grid row column).abs
  return if Binary64.order size size' = .gt then best else row

/-- The row, from the column's own on, whose entry in the column is largest, the last one of several. -/
def pivot (n : Nat) (grid : Grid) (column : Nat) : Except RuntimeError Nat := do
  let mut best := column
  for row in [column + 1:n] do
    best ← larger stray grid column best row
  return best

def reduceEntry (column : Nat) (factor : Number) (row : Nat) (grid : Grid) (k : Nat) : Except RuntimeError Grid := do
  let scaled := factor * (← entry stray grid column k)
  let n ← (← entry stray grid row k).sub scaled
  setEntry stray grid row k n

def reduceRow (n column : Nat) (head : Number) (grid : Grid) (row : Nat) : Except RuntimeError Grid := do
  let factor ← (← entry stray grid row column).div head
  let mut grid := grid
  for k in [column:n] do
    grid ← reduceEntry stray column factor row grid k
  return grid

def eliminate (n : Nat) : Nat → Number → Grid → Except RuntimeError Number
  | 0, product, _ => .ok product
  | left + 1, product, grid => do
    let column := n - (left + 1)
    let position ← pivot stray n grid column
    if (← entry stray grid position column).isZero then return .zero
    let mut grid ← bringUp stray column position grid
    let product := if position = column then product else -product
    let head ← entry stray grid column column
    for row in [column + 1:n] do
      grid ← reduceRow stray n column head grid row
    eliminate n left (product * head) grid

def det (m : Matrix) : Except RuntimeError Number := do
  if m.width ≠ m.height then throw (.shapeMismatch (.notSquare m.width m.height))
  eliminate stray m.width m.width .one (← chunks stray (max m.width 1) m.cells)

end

end Checked

structure Grid.Square (n : Nat) (grid : Grid) : Prop where
  height : grid.size = n
  width : ∀ row ∈ grid, row.size = n

def Grid.rest (column : Nat) (grid : Grid) : List (List Number) :=
  (grid.toList.drop column).map fun row => row.toList.drop column

namespace Grid
variable {n column : Nat} {grid : Grid}

private theorem Square.getD (h : grid.Square n) {y : Nat} (hy : y < n) : (grid.getD y #[]).size = n := by
  have hlt : y < grid.size := h.height ▸ hy
  rw [Array.getD, dif_pos hlt]
  exact h.width _ (Array.getElem_mem hlt)

private theorem Square.set (h : grid.Square n) (y : Nat) {row : Array Number} (hrow : row.size = n) :
    Square n (grid.setIfInBounds y row) where
  height := Array.size_setIfInBounds.trans h.height
  width other hother := by
    rcases Array.mem_or_eq_of_mem_setIfInBounds hother with hother | rfl
    · exact h.width other hother
    · exact hrow

private theorem length_rest (h : grid.Square n) : (grid.rest column).length = n - column := by
  rw [rest, List.length_map, List.length_drop, Array.length_toList, h.height]

private theorem getElem?_rest (h : grid.Square n) {i : Nat} (hi : column + i < n) :
    (grid.rest column)[i]? = some ((grid.getD (column + i) #[]).toList.drop column) := by
  have hlt : column + i < grid.size := h.height ▸ hi
  simp [rest, Array.getD, hlt]

private theorem toList_drop {α : Type} (a : Array α) (default : α) (first : Nat) :
    a.toList.drop first = (List.range' first (a.size - first)).map fun k => a.getD k default := by
  refine List.ext_getElem (by simp) fun i hi _ => ?_
  have hlt : first + i < a.size := by
    rw [List.length_drop, Array.length_toList] at hi
    omega
  simp [Array.getD, hlt]

/-- The head of a row that is left is its entry in the column. -/
private theorem head_drop (row : Array Number) : head (row.toList.drop column) = row.getD column .zero := by
  rw [head, List.headD_eq_head?_getD, List.head?_drop, Array.getElem?_toList, Array.getD_eq_getD_getElem?]

end Grid

namespace Checked
variable {stray : RuntimeError} {n column : Nat} {grid : Grid}

private theorem entry_eq (h : grid.Square n) {y x : Nat} (hy : y < n) (hx : x < n) :
    entry stray grid y x = .ok ((grid.getD y #[]).getD x .zero) := by
  rw [entry, read_of_lt #[] (h.height ▸ hy)]
  exact read_of_lt .zero (h.getD hy ▸ hx)

/-- The search among the rows behind a position. -/
private theorem foldlM_larger (h : grid.Square n) (rows : List (List Number)) {position best : Nat}
    (hrows : (grid.rest column).drop position = rows) (hbest : best < position) (hposition : column + position ≤ n) :
    (List.range' (column + position) rows.length).foldlM (larger stray grid column) (column + best) =
      .ok (column + Matrix.pivot.go best ((grid.getD (column + best) #[]).getD column .zero).abs position rows) := by
  induction rows generalizing position best with
  | nil => rfl
  | cons row rows ih =>
    have hlength := congrArg List.length hrows
    rw [List.length_drop, Grid.length_rest h, List.length_cons] at hlength
    have hplace : column + position < n := by omega
    have hrow : row = (grid.getD (column + position) #[]).toList.drop column := by
      have hget := Grid.getElem?_rest h hplace
      rw [← Nat.add_zero position, ← List.getElem?_drop, hrows] at hget
      simpa using hget
    have hstep : larger stray grid column (column + best) (column + position) =
        .ok (if Binary64.order ((grid.getD (column + best) #[]).getD column .zero).abs (head row).abs = .gt then
          column + best else column + position) := by
      rw [larger, entry_eq h (by omega) (by omega), entry_eq h hplace (by omega), hrow, Grid.head_drop]
      rfl
    have hrest : (grid.rest column).drop (position + 1) = rows := by
      rw [← List.drop_drop, hrows, List.drop_one, List.tail_cons]
    rw [List.length_cons, List.range'_succ, List.foldlM_cons, hstep, Matrix.pivot.go]
    change (List.range' (column + (position + 1)) rows.length).foldlM _ _ = _
    split
    · exact ih hrest (Nat.lt_succ_of_lt hbest) hplace
    · rw [ih hrest (Nat.lt_succ_self position) hplace, hrow, Grid.head_drop]

/-- What is found is the pivot of the rows that are left. -/
private theorem pivot_eq (h : grid.Square n) (hcolumn : column < n) :
    pivot stray n grid column = .ok (column + Matrix.pivot (grid.rest column)) := by
  have hloop : pivot stray n grid column =
      (List.range' (column + 1) (n - (column + 1))).foldlM (larger stray grid column) column := by
    simp only [pivot, ← forIn_range', bind_pure_comp, bind_pure]
  have hlength : (grid.rest column).length = n - column := Grid.length_rest h
  rw [hloop]
  cases hrest : grid.rest column with
  | nil =>
    rw [hrest, List.length_nil] at hlength
    omega
  | cons row rows =>
    have hrow : row = (grid.getD column #[]).toList.drop column := by
      have hget := Grid.getElem?_rest (i := 0) h hcolumn
      rw [hrest] at hget
      simpa using hget
    have hrows : (grid.rest column).drop 1 = rows := by rw [hrest, List.drop_one, List.tail_cons]
    have hcount : n - (column + 1) = rows.length := by
      rw [hrest, List.length_cons] at hlength
      omega
    rw [hcount, Matrix.pivot, hrow, Grid.head_drop]
    exact foldlM_larger h rows hrows Nat.zero_lt_one hcolumn

private theorem go_lt (rows : List (List Number)) (size : Float) {best position : Nat} (hbest : best < position) :
    Matrix.pivot.go best size position rows < position + rows.length := by
  induction rows generalizing best size position with
  | nil => exact hbest
  | cons row rows ih =>
    rw [Matrix.pivot.go, List.length_cons, Nat.add_comm rows.length, ← Nat.add_assoc]
    split
    · exact ih size (Nat.lt_succ_of_lt hbest)
    · exact ih (head row).abs (Nat.lt_succ_self position)

theorem pivot_lt {rows : List (List Number)} (hrows : rows ≠ []) : Matrix.pivot rows < rows.length := by
  cases rows with
  | nil => exact absurd rfl hrows
  | cons row rows =>
    rw [Matrix.pivot, List.length_cons, Nat.add_comm]
    exact go_lt rows _ Nat.zero_lt_one

/-- Two rows of a grid in each other's place. -/
private theorem swap_eq (h : grid.Square n) {i j : Nat} (hi : i < n) (hj : j < n) :
    swap stray grid i j =
      .ok ((grid.setIfInBounds i (grid.getD j #[])).setIfInBounds j (grid.getD i #[])) := by
  have hset := h.set i (h.getD hj)
  rw [swap, read_of_lt #[] (h.height ▸ hi), read_of_lt #[] (h.height ▸ hj)]
  change write stray grid i _ >>= _ = _
  rw [write_of_lt _ (h.height ▸ hi)]
  exact write_of_lt _ (hset.height ▸ hj)

/-- What an elimination is left with after the swap: the pivot's row, and behind it the others. -/
private theorem rest_swap (h : grid.Square n) {position : Nat} (hposition : column + position < n)
    (hne : position ≠ 0) :
    Grid.rest column ((grid.setIfInBounds (column + position) (grid.getD column #[])).setIfInBounds column
        (grid.getD (column + position) #[])) =
      (grid.rest column).getD position [] ::
        ((grid.rest column).set position ((grid.rest column).headD [])).tail := by
  obtain ⟨before, rfl⟩ := Nat.exists_eq_succ_of_ne_zero hne
  have hcolumn : column < grid.size := by
    rw [h.height]
    omega
  have hchosen : (grid.rest column).getD (before + 1) [] =
      (grid.getD (column + (before + 1)) #[]).toList.drop column := by
    rw [List.getD_eq_getElem?_getD, Grid.getElem?_rest h hposition, Option.getD_some]
  have hdrop : grid.toList.drop column = grid.getD column #[] :: grid.toList.drop (column + 1) := by
    rw [List.drop_eq_getElem_cons (by simpa using hcolumn)]
    simp [Array.getD, hcolumn]
  rw [hchosen]
  simp [Grid.rest, hdrop, List.drop_set, List.map_set]

def reduced (n column : Nat) (pivotRow row : Array Number) : Except RuntimeError (Array Number) := do
  let factor ← (row.getD column .zero).div (pivotRow.getD column .zero)
  let cells ← (List.range' column (n - column)).mapM fun k =>
    (row.getD k .zero).sub (factor * pivotRow.getD k .zero)
  return (row.toList.take column ++ cells).toArray

private theorem setEntry_eq (h : grid.Square n) {y x : Nat} (hy : y < n) (hx : x < n) (value : Number) :
    setEntry stray grid y x value = .ok (grid.setIfInBounds y ((grid.getD y #[]).setIfInBounds x value)) := by
  rw [setEntry, read_of_lt #[] (h.height ▸ hy)]
  change write stray _ x value >>= _ = _
  rw [write_of_lt value (h.getD hy ▸ hx)]
  exact write_of_lt _ (h.height ▸ hy)

private theorem getD_setIfInBounds_self (h : grid.Square n) {y : Nat} (hy : y < n) (row : Array Number) :
    (grid.setIfInBounds y row).getD y #[] = row := by
  simp [Array.getD, h.height, hy]

private theorem getD_setIfInBounds_ne {y other : Nat} (hne : other ≠ y) (row : Array Number) :
    (grid.setIfInBounds y row).getD other #[] = grid.getD other #[] := by
  simp [Array.getD_eq_getD_getElem?, Array.getElem?_setIfInBounds_ne hne.symm]

/-- Reducing the entries of a row changes no other row. -/
private theorem foldlM_reduceEntry (stray : RuntimeError) (h : grid.Square n) {row : Nat} (hcolumn : column < row)
    (hrow : row < n) (factor : Number) {ks : List Nat} (hks : ∀ k ∈ ks, k < n) {cells : Array Number}
    (hcells : cells.size = n) :
    ks.foldlM (reduceEntry stray column factor row) (grid.setIfInBounds row cells) =
      grid.setIfInBounds row <$> ks.foldlM (fun cells k => cells.setIfInBounds k <$>
        (cells.getD k .zero).sub (factor * (grid.getD column #[]).getD k .zero)) cells := by
  induction ks generalizing cells with
  | nil => rfl
  | cons k ks ih =>
    have hk := hks k List.mem_cons_self
    have hset := h.set row hcells
    have hstep : reduceEntry stray column factor row (grid.setIfInBounds row cells) k =
        (do
          let n ← (cells.getD k .zero).sub (factor * (grid.getD column #[]).getD k .zero)
          return grid.setIfInBounds row (cells.setIfInBounds k n)) := by
      have habove : Array.getD (grid.setIfInBounds row cells) column #[] = grid.getD column #[] :=
        getD_setIfInBounds_ne (Nat.ne_of_lt hcolumn) cells
      have hself := getD_setIfInBounds_self h hrow cells
      rw [reduceEntry, entry_eq hset (Nat.lt_trans hcolumn hrow) hk, entry_eq hset hrow hk, habove, hself]
      change Number.sub _ _ >>= _ = _
      refine congrArg _ (funext fun value => ?_)
      rw [setEntry_eq hset hrow hk, hself, Array.setIfInBounds_setIfInBounds]
      rfl
    rw [List.foldlM_cons, List.foldlM_cons, hstep]
    cases (cells.getD k .zero).sub (factor * (grid.getD column #[]).getD k .zero) with
    | error e => rfl
    | ok value =>
      exact ih (fun k hk => hks k (List.mem_cons_of_mem _ hk)) (Array.size_setIfInBounds.trans hcells)

private theorem reduceRow_eq (h : grid.Square n) {row : Nat} (hcolumn : column < row) (hrow : row < n) :
    reduceRow stray n column ((grid.getD column #[]).getD column .zero) grid row =
      grid.setIfInBounds row <$> reduced n column (grid.getD column #[]) (grid.getD row #[]) := by
  have hloop (head : Number) : reduceRow stray n column head grid row = (do
      let factor ← (← entry stray grid row column).div head
      (List.range' column (n - column)).foldlM (reduceEntry stray column factor row) grid) := by
    simp only [reduceRow, ← forIn_range', bind_pure_comp, bind_pure]
  have hsame : grid.setIfInBounds row (grid.getD row #[]) = grid := by
    refine Array.ext Array.size_setIfInBounds fun y hy hy' => ?_
    rw [Array.getElem_setIfInBounds hy', Array.getD, dif_pos (h.height ▸ hrow)]
    split
    · subst y
      rfl
    · rfl
  rw [hloop, entry_eq h hrow (Nat.lt_trans hcolumn hrow), reduced]
  change Number.div _ _ >>= _ = _
  rw [map_bind]
  refine congrArg _ (funext fun factor => ?_)
  have hks (k : Nat) (hk : k ∈ List.range' column (n - column)) : k < n := by
    have := List.mem_range'_1.mp hk
    omega
  have hfold := foldlM_reduceEntry stray h hcolumn hrow factor hks (h.getD hrow)
  have hsize : column + (n - column) = (grid.getD row #[]).size := by
    rw [h.getD hrow]
    omega
  rw [hsame, foldlM_setIfInBounds (fun k value => value.sub (factor * (grid.getD column #[]).getD k .zero)) _ _
    (Nat.le_of_eq hsize), List.drop_eq_nil_of_le (Nat.le_of_eq hsize.symm)] at hfold
  rw [hfold]
  simp only [List.append_nil, map_eq_pure_bind, bind_assoc, pure_bind]

/-- What is subtracted to clear a cell has its dimension. -/
private theorem sub_quotient_mul {a b quotient : Number} (h : a.div b = .ok quotient) :
    ∃ n, a.sub (quotient * b) = .ok n := by
  have hquotient : quotient.dimension = a.dimension / b.dimension := by
    unfold Number.div at h
    split at h
    · cases h
    · cases h
      rfl
  have hproduct : (quotient * b).dimension = a.dimension := by
    change quotient.dimension * b.dimension = _
    rw [hquotient]
    exact div_mul_cancel a.dimension b.dimension
  rw [Number.sub, Number.commonDimension, hproduct, Dimension.additive?_self]
  exact ⟨_, rfl⟩

/-- Behind the cleared column a reduced row is that of an elimination that drops the column. -/
private theorem reduced_clear {pivotRow row : Array Number} (hpivot : pivotRow.size = n) (hrow : row.size = n)
    (hcolumn : column < n) :
    Coincide Eq (fun (row : Array Number) rest => row.size = n ∧ row.toList.drop (column + 1) = rest)
      (reduced n column pivotRow row)
      (clear (pivotRow.getD column .zero) (pivotRow.toList.drop (column + 1)) (row.toList.drop column)) := by
  have hcolumns : List.range' column (n - column) = column :: List.range' (column + 1) (n - (column + 1)) := by
    rw [show n - column = n - (column + 1) + 1 by omega, List.range'_succ]
  have hzip : (row.toList.drop (column + 1)).zip (pivotRow.toList.drop (column + 1)) =
      (List.range' (column + 1) (n - (column + 1))).map fun k => (row.getD k .zero, pivotRow.getD k .zero) := by
    rw [Grid.toList_drop row .zero, Grid.toList_drop pivotRow .zero, hrow, hpivot, List.zip_map']
  rw [reduced, clear, Grid.head_drop, List.tail_drop, hzip, hcolumns]
  cases hfactor : (row.getD column .zero).div (pivotRow.getD column .zero) with
  | error e => exact rfl
  | ok factor =>
    obtain ⟨first, hfirst⟩ := sub_quotient_mul hfactor
    let value (k : Nat) := (row.getD k .zero).sub (factor * pivotRow.getD k .zero)
    change Coincide Eq _ ((column :: _).mapM value >>= _) (List.mapM _ _)
    rw [List.mapM_cons, show value column = .ok first from hfirst, List.mapM_map]
    change Coincide Eq _ (List.mapM value _ >>= _ >>= _) (List.mapM value _)
    cases hrest : (List.range' (column + 1) (n - (column + 1))).mapM value with
    | error e => exact rfl
    | ok rest =>
      have hbefore : (row.toList.take column ++ [first]).length = column + 1 := by
        simp [hrow, hcolumn.le]
      have hlength : rest.length = n - (column + 1) := by simpa using length_of_mapM hrest
      have hcells : row.toList.take column ++ first :: rest = row.toList.take column ++ [first] ++ rest := by simp
      change (row.toList.take column ++ first :: rest).toArray.size = n ∧ _ = _
      rw [hcells]
      refine ⟨?_, ?_⟩
      · rw [List.size_toArray, List.length_append, hbefore, hlength]
        omega
      · exact List.drop_left' hbefore

/-- Reducing the rows below the pivot's row drops it and the column. -/
private theorem foldlM_reduceRow (h : grid.Square n) (hcolumn : column < n) :
    Coincide Eq (fun grid rest => grid.Square n ∧ grid.rest (column + 1) = rest)
      ((List.range' (column + 1) (n - (column + 1))).foldlM
        (reduceRow stray n column ((grid.getD column #[]).getD column .zero)) grid)
      ((grid.rest column).tail.mapM
        (clear ((grid.getD column #[]).getD column .zero) ((grid.getD column #[]).toList.drop (column + 1)))) := by
  generalize hpivot : grid.getD column #[] = pivotRow
  have hpivotSize : pivotRow.size = n := hpivot ▸ h.getD hcolumn
  have hbelow (row : Nat) (hrow : row ∈ List.range' (column + 1) (n - (column + 1))) : column < row ∧ row < n := by
    have := List.mem_range'_1.mp hrow
    omega
  -- the pivot's row stays what it is
  have hfold := Ends.foldlM_congr (E := fun _ => True)
    (Q := fun current : Grid => current.Square n ∧ current.getD column #[] = pivotRow)
    (f := reduceRow stray n column (pivotRow.getD column .zero))
    (g := fun current row => current.setIfInBounds row <$> reduced n column pivotRow (current.getD row #[]))
    (l := List.range' (column + 1) (n - (column + 1))) ⟨h, hpivot⟩ fun current hcurrent row hrow => by
      obtain ⟨hsquare, hsame⟩ := hcurrent
      obtain ⟨habove, hlt⟩ := hbelow row hrow
      refine ⟨hsame ▸ reduceRow_eq hsquare habove hlt, .map ?_⟩
      refine (reduced_clear hpivotSize (hsquare.getD hlt) hcolumn).ends fun cells _ hcells => ?_
      exact ⟨hsquare.set row hcells.1, (getD_setIfInBounds_ne (Nat.ne_of_lt habove) cells).trans hsame⟩
  have hsize : column + 1 + (n - (column + 1)) = grid.size := by
    rw [h.height]
    omega
  have hrest : (grid.rest column).tail =
      (List.range' (column + 1) (n - (column + 1))).map fun row => (grid.getD row #[]).toList.drop column := by
    rw [Grid.rest, ← List.map_tail, List.tail_drop, Grid.toList_drop grid #[], h.height, List.map_map]
    rfl
  have hrows : Coincide Eq
      (List.Forall₂ fun (row : Array Number) rest => row.size = n ∧ row.toList.drop (column + 1) = rest)
      ((List.range' (column + 1) (n - (column + 1))).mapM fun row => reduced n column pivotRow (grid.getD row #[]))
      ((grid.rest column).tail.mapM
        (clear (pivotRow.getD column .zero) (pivotRow.toList.drop (column + 1)))) := by
    rw [hrest, List.mapM_map]
    exact Coincide.mapM fun row hrow => reduced_clear hpivotSize (h.getD (hbelow row hrow).2) hcolumn
  have hends := hfold.2
  rw [foldlM_setIfInBounds (fun _ => reduced n column pivotRow) grid #[] (Nat.le_of_eq hsize)] at hfold hends
  rw [hfold.1]
  refine (Coincide.map_left (hrows.mono fun rows rests hrows => ?_)).and_ends (hends.mono fun _ hgrid => hgrid.1)
  have hrests : rows.map (fun row => row.toList.drop (column + 1)) = rests := by
    induction hrows with
    | nil => rfl
    | cons hrow _ ih => rw [List.map_cons, hrow.2, ih]
  have hbefore : (grid.toList.take (column + 1)).length = column + 1 := by
    rw [List.length_take, Array.length_toList, h.height, Nat.min_eq_left hcolumn]
  rw [Grid.rest, List.append_assoc, List.drop_left' hbefore, List.drop_eq_nil_of_le (Nat.le_of_eq hsize.symm),
    List.append_nil, hrests]

/-- After the swap, if there is one, the row that was found stands in the column's own row, and the others below it. -/
private theorem exists_swapped (stray : RuntimeError) (h : grid.Square n) {position : Nat}
    (hposition : column + position < n) :
    ∃ swapped : Grid,
      bringUp stray column (column + position) grid = .ok swapped ∧ swapped.Square n ∧
      swapped.getD column #[] = grid.getD (column + position) #[] ∧
      (swapped.rest column).tail = ((grid.rest column).set position ((grid.rest column).headD [])).tail := by
  have hcolumn : column < n := by omega
  by_cases hzero : position = 0
  · subst hzero
    refine ⟨grid, if_pos rfl, h, rfl, ?_⟩
    cases grid.rest column <;> rfl
  · have hne : ¬column + position = column := by omega
    have hset := h.set (column + position) (h.getD hcolumn)
    refine ⟨_, (if_neg hne).trans (swap_eq h hposition hcolumn), hset.set column (h.getD hposition),
      getD_setIfInBounds_self hset hcolumn _, ?_⟩
    rw [rest_swap h hposition hzero, List.tail_cons]

private theorem eliminate_succ (left : Nat) (product : Number) :
    eliminate stray n (left + 1) product grid = (do
      let column := n - (left + 1)
      let position ← pivot stray n grid column
      if (← entry stray grid position column).isZero then return .zero
      let swapped ← bringUp stray column position grid
      let head ← entry stray swapped column column
      let reduced ← (List.range' (column + 1) (n - (column + 1))).foldlM (reduceRow stray n column head) swapped
      eliminate stray n left ((if position = column then product else -product) * head) reduced) := by
  simp only [eliminate, ← forIn_range', bind_pure_comp]

/-- An elimination in place comes to the one that drops rows and columns. -/
private theorem eliminate_eq (stray : RuntimeError) (left : Nat) (product : Number) (h : grid.Square n)
    (hleft : left ≤ n) :
    eliminate stray n left product grid = Matrix.eliminate left product (grid.rest (n - left)) := by
  induction left generalizing product grid with
  | zero => rfl
  | succ left ih =>
    have hnext : n - (left + 1) + 1 = n - left := by omega
    have hcolumn : n - (left + 1) < n := by omega
    rw [eliminate_succ, Matrix.eliminate]
    generalize n - (left + 1) = column at hnext hcolumn ⊢
    have hlength : (grid.rest column).length = n - column := Grid.length_rest h
    have hfound : column + Matrix.pivot (grid.rest column) < n := by
      have hlt := pivot_lt (List.ne_nil_of_length_pos (hlength ▸ Nat.sub_pos_of_lt hcolumn))
      omega
    simp only [pivot_eq h hcolumn]
    generalize Matrix.pivot (grid.rest column) = position at hfound ⊢
    have hchosen : (grid.rest column).getD position [] =
        (grid.getD (column + position) #[]).toList.drop column := by
      rw [List.getD_eq_getElem?_getD, Grid.getElem?_rest h hfound, Option.getD_some]
    obtain ⟨swapped, hswapped, hsquare, hpivot, htail⟩ := exists_swapped stray h hfound
    change (entry stray grid (column + position) column >>= _) = _
    rw [entry_eq h hfound hcolumn, hchosen, Grid.head_drop]
    change (if _ then _ else _) = _
    refine ite_congr rfl (fun _ => rfl) fun _ => ?_
    rw [hswapped]
    change (entry stray swapped column column >>= _) = _
    rw [entry_eq hsquare hcolumn hcolumn, ← htail, ← hpivot, List.tail_drop]
    refine (foldlM_reduceRow hsquare hcolumn).bind_eq fun reduced rest hreduced => ?_
    rw [ih _ hreduced.1 (Nat.le_of_succ_le hleft), ← hreduced.2, hnext]
    simp only [Nat.add_eq_left]

variable {m : Matrix}

/-- A row of a matrix is a stretch of its cells. -/
private theorem extract_row (hm : m.WellFormed) {y : Nat} (hy : y < m.height) :
    (m.cells.extract (y * m.width) (y * m.width + m.width)).toList =
      (List.range m.width).map fun x => m.getOrZero x y := by
  have hstop : y * m.width + m.width ≤ m.cells.size := by
    rw [hm, ← Nat.succ_mul, Nat.mul_comm m.width]
    exact Nat.mul_le_mul_right _ hy
  refine List.ext_getElem (by simp; omega) fun x _ hx => ?_
  have hx : x < m.width := by simpa using hx
  have hlt : x + y * m.width < m.cells.size := by omega
  simp [getOrZero_of_lt hx hy, Array.getD, hlt, Nat.add_comm]

private theorem chunks_eq (stray : RuntimeError) (hm : m.WellFormed) (hsquare : m.width = m.height) :
    ∃ grid, chunks stray (max m.width 1) m.cells = .ok grid ∧ grid.Square m.width ∧ grid.rest 0 = m.rows := by
  have hcount : (m.cells.size + max m.width 1 - 1) / max m.width 1 = m.width := by
    rw [hm, ← hsquare]
    cases m.width with
    | zero => rfl
    | succ n =>
      rw [Nat.max_eq_left (Nat.succ_le_succ (Nat.zero_le n)), Nat.add_succ_sub_one,
        Nat.mul_add_div (Nat.succ_pos n), Nat.div_eq_of_lt (Nat.lt_succ_self n), Nat.add_zero]
  have hsize (y : Nat) (hy : y < m.width) : max m.width 1 = m.width := Nat.max_eq_left (Nat.zero_lt_of_lt hy)
  refine ⟨_, if_neg (by omega), ⟨by simp [hcount], fun row hrow => ?_⟩, ?_⟩
  · obtain ⟨y, hy, rfl⟩ := Array.mem_map.mp hrow
    rw [hcount, Array.mem_range] at hy
    have hlength := congrArg List.length (extract_row hm (hsquare ▸ hy))
    rw [List.length_map, List.length_range, Array.length_toList] at hlength
    rwa [hsize y hy]
  · rw [Grid.rest, rows, hcount, ← hsquare, List.drop_zero, Array.toList_map, Array.toList_range, List.map_map]
    refine List.map_congr_left fun y hy => ?_
    have hy := List.mem_range.mp hy
    simp only [Function.comp_apply, List.drop_zero, hsize y hy]
    exact extract_row hm (hsquare ▸ hy)

theorem det_eq (hm : m.WellFormed) : det stray m = m.det := by
  rw [det, Matrix.det]
  by_cases hsquare : m.width = m.height
  · obtain ⟨grid, hgrid, hrows, hrest⟩ := chunks_eq stray hm hsquare
    have heliminate := eliminate_eq stray m.width .one hrows (Nat.le_refl _)
    rw [Nat.sub_self, hrest] at heliminate
    rw [if_neg (not_not.mpr hsquare), if_neg (not_not.mpr hsquare), hgrid]
    exact heliminate
  · rw [if_pos hsquare, if_pos hsquare]
    rfl

end Checked
end Reckoner.Matrix
