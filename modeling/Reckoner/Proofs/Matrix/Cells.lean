import Mathlib.Data.List.Basic
import Reckoner.Matrix
import Reckoner.Proofs.Outcome

/-! The places of cells, and the loops over them. A loop over the columns of each row meets the cells in the order of
their indices, so that whatever fills a matrix row by row comes to one sequence of cells. -/
namespace Reckoner

/-- A loop over rows and, within each, over columns is a loop over indices. -/
theorem foldlM_rows {m : Type → Type} [Monad m] [LawfulMonad m] {σ : Type} (width height : Nat)
    (step : σ → Nat → Nat → m σ) (s : σ) :
    (List.range height).foldlM (fun s y => (List.range width).foldlM (fun s x => step s x y) s) s =
      (List.range (width * height)).foldlM (fun s k => step s (k % width) (k / width)) s := by
  induction height with
  | zero => rfl
  | succ height ih =>
    rw [List.range_succ, List.foldlM_append, ih, Nat.mul_succ, List.range_add, List.foldlM_append]
    refine congrArg _ (funext fun s => ?_)
    rw [List.foldlM_map]
    simp only [List.foldlM_cons, List.foldlM_nil, bind_pure]
    refine foldlM_congr (fun s x hx => ?_) s
    have hx := List.mem_range.mp hx
    rw [Nat.mul_add_mod, Nat.mod_eq_of_lt hx, Nat.mul_add_div (Nat.zero_lt_of_lt hx), Nat.div_eq_of_lt hx, Nat.add_zero]

theorem length_of_mapM {ε α β : Type} {f : α → Except ε β} {l : List α} {r : List β} (h : l.mapM f = .ok r) :
    r.length = l.length := by
  have hends : Ends (fun _ => True) (l.mapM f) fun r => r.length = l.length ∧ ∀ b ∈ r, True :=
    Ends.mapM fun c _ => by cases f c <;> trivial
  rw [h] at hends
  exact hends.1

/-- A list of values is made of all of them; otherwise the first failure is the result. -/
private theorem mapM_range {ε β : Type} (f : Nat → Except ε β) (n : Nat) :
    match (List.range n).mapM f with
    | .ok l => l.length = n ∧ ∀ k b, l[k]? = some b → f k = .ok b
    | .error e => ∃ k < n, f k = .error e ∧ ∀ j < k, ∃ b, f j = .ok b := by
  induction n with
  | zero => exact ⟨rfl, by simp⟩
  | succ n ih =>
    rw [List.range_succ, List.mapM_append]
    cases hl : (List.range n).mapM f with
    | error e =>
      rw [hl] at ih
      obtain ⟨k, hk, hfails⟩ := ih
      exact ⟨k, Nat.lt_succ_of_lt hk, hfails⟩
    | ok l =>
      rw [hl] at ih
      obtain ⟨rfl, hvalues⟩ := ih
      rw [List.mapM_cons, List.mapM_nil]
      cases hlast : f l.length with
      | error e =>
        refine ⟨l.length, Nat.lt_succ_self _, hlast, fun j hj => ?_⟩
        exact ⟨l[j], hvalues j _ (List.getElem?_eq_getElem hj)⟩
      | ok b =>
        refine ⟨List.length_append, fun k c hk => ?_⟩
        rcases Nat.lt_trichotomy k l.length with hlt | rfl | hgt
        · exact hvalues k c (by rwa [List.getElem?_append_left hlt] at hk)
        · rw [hlast]
          simpa using hk
        · rw [List.getElem?_eq_none (by simpa using Nat.succ_le_of_lt hgt)] at hk
          cases hk

/-- Elements from an index on that are overwritten in their order. -/
theorem foldlM_setIfInBounds {α ε : Type} (g : Nat → α → Except ε α) (a : Array α) (default : α) {first count : Nat}
    (h : first + count ≤ a.size) :
    (List.range' first count).foldlM (fun a k => a.setIfInBounds k <$> g k (a.getD k default)) a =
      (fun l => (a.toList.take first ++ l ++ a.toList.drop (first + count)).toArray) <$>
        (List.range' first count).mapM fun k => g k (a.getD k default) := by
  induction count with
  | zero => simp
  | succ count ih =>
    rw [List.range'_1_concat, List.foldlM_append, ih (by omega), List.mapM_append]
    cases hl : (List.range' first count).mapM fun k => g k (a.getD k default) with
    | error e => rfl
    | ok l =>
      have hlength : l.length = count := by simpa using length_of_mapM hl
      let before := a.toList.take first ++ l
      have hbefore : before.length = first + count := by
        rw [List.length_append, List.length_take, hlength, Array.length_toList, Nat.min_eq_left (by omega)]
      have hdrop : a.toList.drop (first + count) =
          a.getD (first + count) default :: a.toList.drop (first + count + 1) := by
        have hlt : first + count < a.size := by omega
        rw [List.drop_eq_getElem_cons (by simpa using hlt)]
        simp [Array.getD, hlt]
      have hget : (before ++ a.toList.drop (first + count)).toArray.getD (first + count) default =
          a.getD (first + count) default := by
        rw [Array.getD_eq_getD_getElem?, List.getElem?_toArray, List.getElem?_append_right (Nat.le_of_eq hbefore),
          hbefore, hdrop]
        simp
      have hset (v : α) : (before ++ a.toList.drop (first + count)).toArray.setIfInBounds (first + count) v =
          (a.toList.take first ++ (l ++ [v]) ++ a.toList.drop (first + count + 1)).toArray := by
        rw [List.setIfInBounds_toArray, List.set_append_right _ _ (Nat.le_of_eq hbefore), hbefore, hdrop]
        simp [before]
      change ((fun v => _) <$> g _ (Array.getD (before ++ _).toArray _ _) >>= pure) = _
      rw [hget, List.mapM_cons, List.mapM_nil]
      cases g (first + count) (a.getD (first + count) default) with
      | error e => rfl
      | ok v => exact congrArg Except.ok (hset v)

namespace Matrix
variable {limit width height x y k : Nat} {m : Matrix}

theorem index_lt (hx : x < width) (hy : y < height) : x + y * width < width * height :=
  calc
    x + y * width < width + y * width := Nat.add_lt_add_right hx _
    _ = width * (y + 1) := by rw [Nat.mul_succ, Nat.mul_comm, Nat.add_comm]
    _ ≤ width * height := Nat.mul_le_mul_left _ hy

theorem index_mod (hx : x < width) : (x + y * width) % width = x := by
  rw [Nat.add_mul_mod_self_right, Nat.mod_eq_of_lt hx]

theorem index_div (hx : x < width) : (x + y * width) / width = y := by
  rw [Nat.add_mul_div_right _ _ (Nat.zero_lt_of_lt hx), Nat.div_eq_of_lt hx, Nat.zero_add]

theorem mod_lt_width (hk : k < width * height) : k % width < width :=
  Nat.mod_lt _ (Nat.pos_of_ne_zero fun hzero => by simp [hzero] at hk)

theorem div_lt_height (hk : k < width * height) : k / width < height := Nat.div_lt_of_lt_mul hk

theorem mod_add_div_mul (k width : Nat) : k % width + k / width * width = k := by
  rw [Nat.mul_comm, Nat.mod_add_div]

theorem getOrZero_of_lt (hx : x < m.width) (hy : y < m.height) :
    m.getOrZero x y = m.cells.getD (x + y * m.width) .zero := by
  rw [getOrZero, get?, if_pos ⟨hx, hy⟩, Array.getD_eq_getD_getElem?]

private theorem getOrZero_index (hk : k < m.width * m.height) :
    m.getOrZero (k % m.width) (k / m.width) = m.cells.getD k .zero := by
  rw [getOrZero_of_lt (mod_lt_width hk) (div_lt_height hk), mod_add_div_mul]

/-- Where there is room for a shape, there is room for all of its cells, and a word counts them. -/
theorem room_eq {count : Nat} (h : room limit width height = .ok count) :
    count = width * height ∧ width * height ≤ 0xffffffffffffffff := by
  simp only [room] at h
  split at h
  · cases h
  · rename_i hcount
    split at h
    · cases h
    · cases h
      exact ⟨rfl, Nat.le_of_not_lt hcount⟩

def rowByRow (width height : Nat) (cell : Nat → Nat → Except RuntimeError Number) : Except RuntimeError Matrix :=
  (fun cells => ⟨width, height, cells.toArray⟩) <$>
    (List.range (width * height)).mapM fun k => cell (k % width) (k / width)

theorem rowByRow_congr {f g : Nat → Nat → Except RuntimeError Number}
    (h : ∀ x y, x < width → y < height → f x y = g x y) : rowByRow width height f = rowByRow width height g := by
  rw [rowByRow, rowByRow, mapM_congr fun k hk => ?_]
  have hk := List.mem_range.mp hk
  exact h _ _ (mod_lt_width hk) (div_lt_height hk)

theorem rowByRow_ok (width height : Nat) (f : Nat → Nat → Number) :
    rowByRow width height (fun x y => .ok (f x y)) =
      .ok ⟨width, height, ((List.range (width * height)).map fun k => f (k % width) (k / width)).toArray⟩ :=
  congrArg _ (List.mapM_pure ..)

/-- Cells appended row by row. -/
theorem foldlM_push (width height : Nat) (f : Nat → Nat → Except RuntimeError Number) :
    (fun cells => ⟨width, height, cells⟩) <$>
      (List.range height).foldlM (fun cells y => (List.range width).foldlM (fun cells x => cells.push <$> f x y) cells)
        #[] = rowByRow width height f := by
  have hlist : (List.range (width * height)).foldlM (fun cells k => cells.push <$> f (k % width) (k / width)) #[] =
      List.toArray <$> (List.range (width * height)).mapM fun k => f (k % width) (k / width) := by
    have harray : (Array.range (width * height)).mapM (fun k => f (k % width) (k / width)) = _ :=
      Array.mapM_eq_mapM_toList
    rwa [Array.mapM_eq_foldlM, ← Array.foldlM_toList, Array.toList_range] at harray
  rw [foldlM_rows width height fun (cells : Array Number) x y => cells.push <$> f x y, hlist, Functor.map_map, rowByRow]

theorem tabulate_eq (f : Nat → Nat → Except RuntimeError Number) {count : Nat}
    (hroom : room limit width height = .ok count) : tabulate limit width height f = rowByRow width height f := by
  rw [tabulate, hroom, (room_eq hroom).1, rowByRow]
  change ((Array.range (width * height)).mapM fun k => f (k % width) (k / width)) >>= _ = _
  rw [Array.mapM_eq_mapM_toList, Array.toList_range]
  simp only [map_eq_pure_bind, bind_assoc, pure_bind]

theorem tabulate_error (f : Nat → Nat → Except RuntimeError Number) {e : RuntimeError}
    (hroom : room limit width height = .error e) : tabulate limit width height f = .error e := by
  rw [tabulate, hroom]
  rfl

/-- The cells are overwritten in the order of their indices. -/
theorem overwrite_eq_foldlM (f : Nat → Nat → Number → Except RuntimeError Number) (m : Matrix) :
    m.overwrite f = (fun cells => { m with cells }) <$> (List.range (m.width * m.height)).foldlM (fun cells k =>
      cells.setIfInBounds k <$> f (k % m.width) (k / m.width) (cells.getD k .zero)) m.cells := by
  have hloops : m.overwrite f = (fun cells => { m with cells }) <$>
      (List.range m.height).foldlM (fun cells y => (List.range m.width).foldlM (fun cells x =>
        cells.setIfInBounds (x + y * m.width) <$> f x y (cells.getD (x + y * m.width) .zero)) cells) m.cells := by
    simp only [overwrite, ← forIn_range, bind_pure_comp, Functor.map_map]
  rw [hloops, foldlM_rows m.width m.height fun (cells : Array Number) x y =>
    cells.setIfInBounds (x + y * m.width) <$> f x y (cells.getD (x + y * m.width) .zero)]
  simp only [mod_add_div_mul]

theorem overwrite_eq (hm : m.WellFormed) (f : Nat → Nat → Number → Except RuntimeError Number) :
    m.overwrite f = rowByRow m.width m.height fun x y => f x y (m.getOrZero x y) := by
  have hcells : (List.range (m.width * m.height)).mapM (fun k => f (k % m.width) (k / m.width) (m.cells.getD k .zero)) =
      (List.range (m.width * m.height)).mapM fun k =>
        f (k % m.width) (k / m.width) (m.getOrZero (k % m.width) (k / m.width)) :=
    mapM_congr fun k hk => by rw [getOrZero_index (List.mem_range.mp hk)]
  have hsize : 0 + m.width * m.height = m.cells.size := (Nat.zero_add _).trans hm.symm
  rw [List.range_eq_range'] at hcells
  rw [overwrite_eq_foldlM, List.range_eq_range',
    foldlM_setIfInBounds (fun k => f (k % m.width) (k / m.width)) m.cells .zero (Nat.le_of_eq hsize), hcells,
    rowByRow, Functor.map_map, List.drop_eq_nil_of_le (Nat.le_of_eq hsize.symm)]
  simp only [List.append_nil, List.take_zero, List.nil_append, List.range_eq_range']

/-- The cells in the order of their indices. -/
theorem toList_cells (hm : m.WellFormed) :
    m.cells.toList = (List.range (m.width * m.height)).map fun k => m.getOrZero (k % m.width) (k / m.width) := by
  refine List.ext_getElem (by rw [List.length_map, List.length_range]; exact hm) fun k hk _ => ?_
  rw [List.getElem_map, List.getElem_range, getOrZero_index (hm ▸ hk)]
  simp [Array.getD, show k < m.cells.size from hk]

theorem mapM_eq (hm : m.WellFormed) (f : Number → Except RuntimeError Number) :
    m.mapM f = rowByRow m.width m.height fun x y => f (m.getOrZero x y) := by
  rw [mapM, Array.mapM_eq_mapM_toList, toList_cells hm, List.mapM_map, rowByRow]
  simp only [map_eq_pure_bind, bind_assoc, pure_bind, Function.comp_def]

/-- A result is that of computing the cells of a shape in their order: the matrix of that shape and of all their values,
or the error of the first cell, row by row, that has no value. -/
def ComesTo (width height : Nat) (cell : Nat → Nat → Except RuntimeError Number) :
    Except RuntimeError Matrix → Prop
  | .ok m => m.width = width ∧ m.height = height ∧ m.WellFormed ∧
      ∀ x y, x < width → y < height → ∃ n, m.get? x y = some n ∧ cell x y = .ok n
  | .error e => ∃ x y, x < width ∧ y < height ∧ cell x y = .error e ∧
      ∀ x' y', x' < width → y' < y ∨ y' = y ∧ x' < x → ∃ n, cell x' y' = .ok n

/-- There is no matrix exactly when some cell has no value. -/
theorem ComesTo.fails_iff {cell : Nat → Nat → Except RuntimeError Number} {r : Except RuntimeError Matrix}
    (h : ComesTo width height cell r) :
    (∃ e, r = .error e) ↔ ∃ x y e, x < width ∧ y < height ∧ cell x y = .error e := by
  cases r with
  | error e =>
    obtain ⟨x, y, hx, hy, hfails, -⟩ := h
    exact iff_of_true ⟨e, rfl⟩ ⟨x, y, e, hx, hy, hfails⟩
  | ok m =>
    obtain ⟨-, -, -, hvalues⟩ := h
    constructor
    · rintro ⟨e, he⟩
      cases he
    · rintro ⟨x, y, e, hx, hy, hfails⟩
      obtain ⟨n, -, hn⟩ := hvalues x y hx hy
      rw [hfails] at hn
      cases hn

/-- The values in their order are those of the cells. -/
theorem rowByRow_comesTo (width height : Nat) (cell : Nat → Nat → Except RuntimeError Number) :
    ComesTo width height cell (rowByRow width height cell) := by
  have hrange := mapM_range (fun k => cell (k % width) (k / width)) (width * height)
  rw [rowByRow]
  cases hl : (List.range (width * height)).mapM fun k => cell (k % width) (k / width) with
  | error e =>
    rw [hl] at hrange
    obtain ⟨k, hk, hfails, hbefore⟩ := hrange
    refine ⟨k % width, k / width, mod_lt_width hk, div_lt_height hk, hfails, fun x' y' hx' hy' => ?_⟩
    -- what comes before in the order of rows and columns has a smaller index
    have hindex : x' + y' * width < k := by
      rcases hy' with hy' | ⟨rfl, hxk⟩
      · calc
          x' + y' * width < width * (k / width) := index_lt hx' hy'
          _ ≤ k := Nat.mul_div_le k width
      · calc
          x' + k / width * width < k % width + k / width * width := Nat.add_lt_add_right hxk _
          _ = k := Nat.mod_add_div' k width
    obtain ⟨n, hn⟩ := hbefore _ hindex
    exact ⟨n, by rwa [index_mod hx', index_div hx'] at hn⟩
  | ok l =>
    rw [hl] at hrange
    obtain ⟨hlength, hvalues⟩ := hrange
    refine ⟨rfl, rfl, hlength, fun x y hx hy => ?_⟩
    have hlt : x + y * width < l.length := hlength ▸ index_lt hx hy
    refine ⟨l[x + y * width], ?_, ?_⟩
    · simp [get?, hx, hy, hlt]
    · have hvalue := hvalues _ _ (List.getElem?_eq_getElem hlt)
      rwa [index_mod hx, index_div hx] at hvalue

end Matrix
end Reckoner
