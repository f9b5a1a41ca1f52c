import Reckoner.Proofs.Matrix.Cells

/-! The operations on matrices with a check wherever they read or write by index and wherever they divide. A check that
fails ends the operation with an error of its own; on matrices whose cells fill their shape, none fails. -/
namespace Reckoner.Matrix
namespace Checked

section
variable (stray : RuntimeError) {α : Type}

def read (a : Array α) (index : Nat) : Except RuntimeError α :=
  if h : index < a.size then .ok a[index] else .error stray

def write (a : Array α) (index : Nat) (value : α) : Except RuntimeError (Array α) :=
  if index < a.size then .ok (a.setIfInBounds index value) else .error stray

def remainder (n divisor : Nat) : Except RuntimeError Nat :=
  if divisor = 0 then .error stray else .ok (n % divisor)

def transpose (m : Matrix) : Except RuntimeError Matrix := do
  let mut cells := #[]
  for x in [:m.width] do
    for y in [:m.height] do
      cells := cells.push (← read stray m.cells (x + y * m.width))
  return ⟨m.height, m.width, cells⟩

def identity (limit n : Nat) : Except RuntimeError Matrix := do
  let m ← filled limit n n .zero
  let mut cells := m.cells
  for i in [:n] do
    cells ← write stray cells (i + i * n) .one
  return { m with cells }

def build (limit width height : Nat) (f : Nat → Nat → Except RuntimeError Number) : Except RuntimeError Matrix := do
  let _ ← room limit width height
  let mut cells := #[]
  for y in [:height] do
    for x in [:width] do
      cells := cells.push (← f x y)
  match ofCells? width height cells with
  | some m => return m
  | none => throw stray

def replace (width : Nat) (f : Nat → Nat → Number → Except RuntimeError Number) (cells : Array Number) (x y : Nat) :
    Except RuntimeError (Array Number) := do
  let index := x + y * width
  let n ← f x y (← read stray cells index)
  write stray cells index n

def overwrite (f : Nat → Nat → Number → Except RuntimeError Number) (m : Matrix) : Except RuntimeError Matrix := do
  let mut cells := m.cells
  for y in [:m.height] do
    for x in [:m.width] do
      cells ← replace stray m.width f cells x y
  return { m with cells }

def combine (limit : Nat) (extent : Extent) (f : Number → Number → Except RuntimeError Number) (a b : Matrix) :
    Except RuntimeError Matrix :=
  let width := extent.of a.width b.width
  let height := extent.of a.height b.height
  if a.width = width ∧ a.height = height then overwrite stray (fun x y n => f n (b.getOrZero x y)) a
  else build stray limit width height fun x y => f (a.getOrZero x y) (b.getOrZero x y)

def separator (width index : Nat) : Except RuntimeError Text := do
  if index = 0 then return []
  return if (← remainder stray index width) = 0 then "; ".toList else ", ".toList

def text (m : Matrix) : Except RuntimeError Text := do
  let written ← m.cells.toList.zipIdx.foldlM (fun written p => do
    return written ++ (← separator stray m.width p.2) ++ p.1.text) ['<']
  return written ++ ['>']

end

variable {stray : RuntimeError} {m : Matrix}

theorem read_of_lt {α : Type} {a : Array α} {index : Nat} (default : α) (h : index < a.size) :
    read stray a index = .ok (a.getD index default) := by
  rw [read, dif_pos h, Array.getD, dif_pos h]
  rfl

theorem write_of_lt {α : Type} {a : Array α} {index : Nat} (value : α) (h : index < a.size) :
    write stray a index value = .ok (a.setIfInBounds index value) := if_pos h

theorem transpose_eq (hm : m.WellFormed) : transpose stray m = .ok m.transpose := by
  have hloops : transpose stray m = (fun cells => ⟨m.height, m.width, cells⟩) <$>
      (List.range m.width).foldlM (fun cells x => (List.range m.height).foldlM (fun cells y =>
        cells.push <$> read stray m.cells (x + y * m.width)) cells) #[] := by
    simp only [transpose, ← forIn_range, bind_pure_comp, Functor.map_map]
  have hcell (y x : Nat) (hy : y < m.height) (hx : x < m.width) :
      read stray m.cells (x + y * m.width) = .ok (m.getOrZero x y) := by
    rw [getOrZero_of_lt hx hy]
    exact read_of_lt _ (hm ▸ index_lt hx hy)
  have hsize : m.cells.size = m.height * m.width := hm.trans (Nat.mul_comm _ _)
  rw [hloops, foldlM_push m.height m.width fun y x => read stray m.cells (x + y * m.width), rowByRow_congr hcell,
    rowByRow_ok, Matrix.transpose, hsize, ← Array.toList_range, ← Array.toList_map]

private theorem build_eq (limit width height : Nat) (f : Nat → Nat → Except RuntimeError Number) :
    build stray limit width height f = tabulate limit width height f := by
  have hloops : build stray limit width height f = (do
      let _ ← room limit width height
      let m ← rowByRow width height f
      match ofCells? width height m.cells with
      | some m => return m
      | none => throw stray) := by
    simp only [build, ← foldlM_push, ← forIn_range, bind_pure_comp, Functor.map_map, bind_map_left]
  rw [hloops]
  cases hroom : room limit width height with
  | error e => exact (tabulate_error f hroom).symm
  | ok count =>
    rw [tabulate_eq f hroom]
    change rowByRow width height f >>= _ = _
    have hcomes := rowByRow_comesTo width height f
    cases hrow : rowByRow width height f with
    | error e => rfl
    | ok m =>
      rw [hrow] at hcomes
      obtain ⟨rfl, rfl, hm, -⟩ := hcomes
      change (match ofCells? m.width m.height m.cells with | some m => return m | none => throw stray) = _
      rw [ofCells?, if_pos ⟨hm.symm, hm ▸ (room_eq hroom).2⟩]
      rfl

private theorem overwrite_eq (hm : m.WellFormed) (f : Nat → Nat → Number → Except RuntimeError Number) :
    overwrite stray f m = m.overwrite f := by
  have hloops : overwrite stray f m = (fun cells => { m with cells }) <$>
      (List.range m.height).foldlM (fun cells y => (List.range m.width).foldlM (fun cells x =>
        replace stray m.width f cells x y) cells) m.cells := by
    simp only [overwrite, ← forIn_range, bind_pure_comp]
  rw [hloops, overwrite_eq_foldlM, foldlM_rows m.width m.height fun cells x y => replace stray m.width f cells x y]
  -- the number of cells stays what it is
  let sized (cells : Array Number) : Prop := cells.size = m.width * m.height
  refine congrArg _ (Ends.foldlM_congr (E := fun _ => True) (Q := sized) hm fun cells hcells k hk => ?_).1
  have hlt : k < cells.size := hcells ▸ List.mem_range.mp hk
  rw [replace, mod_add_div_mul, read_of_lt .zero hlt]
  change f _ _ _ >>= _ = _ ∧ _
  cases f (k % m.width) (k / m.width) (cells.getD k .zero) with
  | error e => exact ⟨rfl, trivial⟩
  | ok n => exact ⟨write_of_lt n hlt, Array.size_setIfInBounds.trans hcells⟩

theorem combine_eq {a b : Matrix} (ha : a.WellFormed) (limit : Nat) (extent : Extent)
    (f : Number → Number → Except RuntimeError Number) :
    combine stray limit extent f a b = a.combine limit extent f b := by
  simp only [combine, Matrix.combine, overwrite_eq ha, build_eq]

/-- The diagonal filled down to some row. -/
private theorem foldlM_diagonal (stray : RuntimeError) {n rows : Nat} (hrows : rows ≤ n) :
    ∃ cells : Array Number, (List.range rows).foldlM (fun cells i => write stray cells (i + i * n) .one)
        (Array.replicate (n * n) .zero) = .ok cells ∧ cells.size = n * n ∧
      ∀ k (hk : k < cells.size), cells[k] = if k % n = k / n ∧ k / n < rows then .one else .zero := by
  induction rows with
  | zero => exact ⟨_, rfl, Array.size_replicate, fun k hk => by simp⟩
  | succ row ih =>
    obtain ⟨cells, hcells, hsize, hvalues⟩ := ih (Nat.le_of_lt hrows)
    have hlt : row + row * n < cells.size := hsize ▸ index_lt hrows hrows
    have hplace (k : Nat) : row + row * n = k ↔ k % n = row ∧ k / n = row := by
      constructor
      · rintro rfl
        exact ⟨index_mod hrows, index_div hrows⟩
      · rintro ⟨hmod, hdiv⟩
        rw [← mod_add_div_mul k n, hmod, hdiv]
    refine ⟨cells.setIfInBounds (row + row * n) .one, ?_, Array.size_setIfInBounds.trans hsize, fun k hk => ?_⟩
    · rw [List.range_succ, List.foldlM_append, hcells]
      exact congrArg (· >>= pure) (write_of_lt .one hlt)
    · rw [Array.size_setIfInBounds] at hk
      rw [Array.getElem_setIfInBounds hk, hvalues k hk]
      grind

theorem identity_eq (limit n : Nat) : identity stray limit n = Matrix.identity limit n := by
  have hloop : identity stray limit n = (do
      let m ← filled limit n n .zero
      (fun cells => { m with cells }) <$>
        (List.range n).foldlM (fun cells i => write stray cells (i + i * n) .one) m.cells) := by
    simp only [identity, ← forIn_range, bind_pure_comp]
  rw [hloop, Matrix.identity, filled]
  cases hroom : room limit n n with
  | error e => exact (tabulate_error _ hroom).symm
  | ok count =>
    obtain ⟨rfl, -⟩ := room_eq hroom
    obtain ⟨cells, hcells, hsize, hvalues⟩ := foldlM_diagonal stray (Nat.le_refl n)
    rw [tabulate_eq _ hroom, rowByRow_ok]
    change (fun cells => (⟨n, n, cells⟩ : Matrix)) <$> (List.range n).foldlM (fun cells i =>
      write stray cells (i + i * n) Number.one) (Array.replicate (n * n) .zero) = _
    rw [hcells]
    refine congrArg (fun cells => Except.ok (⟨n, n, cells⟩ : Matrix)) ?_
    refine Array.ext (by simpa using hsize) fun k hk _ => ?_
    rw [hvalues k hk]
    simp [div_lt_height (hsize ▸ hk)]

theorem text_eq (hm : m.WellFormed) : text stray m = .ok m.text := by
  let mark (k : Nat) : Text := if k = 0 then [] else if k % m.width = 0 then "; ".toList else ", ".toList
  have hmark (k : Nat) (hk : k < m.cells.size) : separator stray m.width k = .ok (mark k) := by
    have hwidth : m.width ≠ 0 := fun hzero => by
      rw [hm, hzero, Nat.zero_mul] at hk
      exact Nat.not_lt_zero k hk
    simp only [separator, remainder, if_neg hwidth, mark]
    split <;> rfl
  let step (written : Text) (p : Number × Nat) : Text := written ++ (mark p.2 ++ p.1.text)
  have hsteps : m.cells.toList.zipIdx.foldlM (fun written p => do
        return written ++ (← separator stray m.width p.2) ++ p.1.text) ['<'] =
      .ok (m.cells.toList.zipIdx.foldl step ['<']) := by
    refine (foldlM_congr (fun written p hp => ?_) _).trans (List.foldlM_pure (f := step))
    rw [hmark p.2 (by simpa using (List.mem_zipIdx hp).2.1)]
    exact congrArg Except.ok (List.append_assoc ..)
  have hcell (k : Nat) (n : Number) : (if k = 0 then n.text else
      (if k % m.width = 0 then "; ".toList else ", ".toList) ++ n.text) = mark k ++ n.text := by
    by_cases hk : k = 0 <;> simp [mark, hk]
  rw [text, hsteps, List.foldl_append_eq_append (f := fun p : Number × Nat => mark p.2 ++ p.1.text), Matrix.text]
  simp only [hcell, List.mapIdx_eq_zipIdx_map]
  rfl

end Checked
end Reckoner.Matrix
