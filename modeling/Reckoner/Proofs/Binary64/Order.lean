import Reckoner.Binary64.Arithmetic
import Reckoner.Proofs.Binary64.Rational

/-! The order of binary64 numbers is that of the values they stand for: the rational numbers with an infinity at either
end, and what is not a number above them all. Exponents are compared before mantissas there, and that is right because a
mantissa is full unless the exponent is the smallest one. -/
namespace Reckoner.Binary64

open Float.Model Float.Model.UnpackedFloat

private theorem compare_of_strictMono {α β : Type} [LinearOrder α] [LinearOrder β] {f : α → β} (h : StrictMono f)
    (a b : α) :
    compare (f a) (f b) = compare a b := by
  rw [← cmp_eq_compare, ← cmp_eq_compare, h.cmp_map_eq]

private theorem compare_of_strictAnti {α β : Type} [LinearOrder α] [LinearOrder β] {f : α → β} (h : StrictAnti f)
    (a b : α) :
    compare (f a) (f b) = compare b a := by
  rw [← cmp_eq_compare, ← cmp_eq_compare, h.cmp_map_eq]

section
variable {s t : Sign} {m n : Nat} {e f : Int} {hm : 0 < m} {hn : 0 < n}

/-- A mantissa has at most 53 bits, and all of them unless the exponent is the smallest one. -/
private theorem Canonical.bounds (h : Canonical (.finite s m e hm)) :
    m < 2 * hiddenBit ∧ minExponent ≤ e ∧ (minExponent < e → hiddenBit ≤ m) := by
  cases h with
  | subnormal s m hm hsmall => exact ⟨by omega, Int.le_refl _, fun h => absurd h (Int.lt_irrefl _)⟩
  | normal s m e hm hlow hhigh helow hehigh => exact ⟨hhigh, helow, fun _ => hlow⟩

/-- Of two positive numbers the one with the larger exponent is larger. -/
private theorem magnitude_lt (hx : Canonical (.finite s m e hm)) (hy : Canonical (.finite t n f hn)) (h : e < f) :
    (m : Rat) * 2 ^ e < n * 2 ^ f := by
  obtain ⟨hhigh, helow, -⟩ := hx.bounds
  have hfull : (hiddenBit : Rat) ≤ n := by exact_mod_cast hy.bounds.2.2 (Int.lt_of_le_of_lt helow h)
  have hmantissa : (m : Rat) < 2 * hiddenBit := by exact_mod_cast hhigh
  calc
    (m : Rat) * 2 ^ e < 2 * hiddenBit * 2 ^ e := by gcongr
    _ = hiddenBit * 2 ^ (e + 1) := by
      rw [zpow_add_one₀ two_ne_zero]
      ring
    _ ≤ n * 2 ^ f := by
      gcongr
      exacts [one_le_two, h]

private theorem compare_magnitude (hx : Canonical (.finite s m e hm)) (hy : Canonical (.finite t n f hn)) :
    (compare e f).then (compare m n) = compare ((m : Rat) * 2 ^ e) (n * 2 ^ f) := by
  rcases lt_trichotomy e f with h | rfl | h
  · rw [compare_lt_iff_lt.mpr h, compare_lt_iff_lt.mpr (magnitude_lt hx hy h)]
    rfl
  · have hscale : (0 : Rat) < 2 ^ e := by positivity
    have hmono : StrictMono fun m : Nat => (m : Rat) * 2 ^ e := fun m n h =>
      mul_lt_mul_of_pos_right (Nat.cast_lt.mpr h) hscale
    rw [compare_eq_iff_eq.mpr rfl, compare_of_strictMono hmono m n]
    rfl
  · rw [compare_gt_iff_gt.mpr h, compare_gt_iff_gt.mpr (magnitude_lt hy hx h)]
    rfl

end

/-- Where a number stands in the order: minus infinity, the finite numbers by their values, infinity, and what is not a
number. -/
def unpackedPlace : UnpackedFloat → Nat ×ₗ Rat
  | .infinity .negative => toLex (0, 0)
  | .finite .negative m e _ => toLex (1, -(m * 2 ^ e))
  | .zero _ => toLex (1, 0)
  | .finite .positive m e _ => toLex (1, m * 2 ^ e)
  | .infinity .positive => toLex (2, 0)
  | .notANumber => toLex (3, 0)

def place (x : Float) : Nat ×ₗ Rat := unpackedPlace x.toModel.unpack

/-- A finite number stands at its value. -/
private theorem place_of_rational? {x : Float} {a : Rat} (h : rational? x = some a) : place x = toLex (1, a) := by
  rw [rational?, parts_eq] at h
  rw [place]
  generalize x.toModel.unpack = u at h
  cases u with
  | notANumber | infinity s => cases h
  | zero s =>
    have hvalue : (Parts.ofUnpacked (.zero s)).rational? = some 0 := by simp [Parts.ofUnpacked, Parts.rational?]
    cases hvalue.symm.trans h
    rfl
  | finite s m e hm =>
    cases s with
    | negative =>
      have hvalue : (Parts.ofUnpacked (.finite .negative m e hm)).rational? = some (-((m : Rat) * 2 ^ e)) := by
        simp [Parts.ofUnpacked, Parts.rational?]
      cases hvalue.symm.trans h
      rfl
    | positive =>
      have hsign : (Sign.positive == Sign.negative) = false := rfl
      have hvalue : (Parts.ofUnpacked (.finite .positive m e hm)).rational? = some ((m : Rat) * 2 ^ e) := by
        simp [Parts.ofUnpacked, Parts.rational?, hsign]
      cases hvalue.symm.trans h
      rfl

private theorem place_lt_place {i j : Nat} (h : i < j) (a b : Rat) : toLex (i, a) < toLex (j, b) :=
  Prod.Lex.toLex_lt_toLex.mpr (.inl h)

private theorem compare_place_lt {i j : Nat} (h : i < j) (a b : Rat) : compare (toLex (i, a)) (toLex (j, b)) = .lt :=
  compare_lt_iff_lt.mpr (place_lt_place h a b)

private theorem compare_place_gt {i j : Nat} (h : j < i) (a b : Rat) : compare (toLex (i, a)) (toLex (j, b)) = .gt :=
  compare_gt_iff_gt.mpr (place_lt_place h b a)

private theorem compare_place_finite (a b : Rat) : compare (toLex ((1 : Nat), a)) (toLex (1, b)) = compare a b := by
  have hmono : StrictMono fun a : Rat => toLex ((1 : Nat), a) := fun a b h =>
    Prod.Lex.toLex_lt_toLex.mpr (.inr ⟨rfl, h⟩)
  exact compare_of_strictMono hmono a b

private theorem compare_finite {s t : Sign} {m n : Nat} {e f : Int} {hm : 0 < m} {hn : 0 < n}
    (hx : Canonical (.finite s m e hm)) (hy : Canonical (.finite t n f hn)) :
    UnpackedFloat.compare (.finite s m e hm) (.finite t n f hn) =
      some (compare (unpackedPlace (.finite s m e hm)) (unpackedPlace (.finite t n f hn))) := by
  have hmpos : (0 : Rat) < m * 2 ^ e := by positivity
  have hnpos : (0 : Rat) < n * 2 ^ f := by positivity
  have hanti : StrictAnti fun a : Rat => -a := fun a b => neg_lt_neg
  cases s <;> cases t <;> simp only [UnpackedFloat.compare, unpackedPlace, compare_place_finite, Option.some.injEq]
  case negative.negative =>
    rw [compare_of_strictAnti hanti, compare_magnitude hx hy, ← Std.OrientedOrd.eq_swap]
  case negative.positive => exact (compare_lt_iff_lt.mpr (by linarith)).symm
  case positive.negative => exact (compare_gt_iff_gt.mpr (by linarith)).symm
  case positive.positive => exact compare_magnitude hx hy

/-- Numbers are compared as the values they stand for. -/
private theorem compare_unpacked {u v : UnpackedFloat} (hu : Canonical u) (hv : Canonical v) (hu' : u.isNaN = false)
    (hv' : v.isNaN = false) : u.compare v = some (compare (unpackedPlace u) (unpackedPlace v)) := by
  have hpos {m : Nat} {e : Int} (hm : 0 < m) : (0 : Rat) < m * 2 ^ e := by positivity
  -- next to an infinity the classes decide, and among finite numbers the values
  cases u with
  | notANumber => cases hu'
  | infinity s =>
    cases v with
    | notANumber => cases hv'
    | infinity t =>
      cases s <;> cases t <;> simp [UnpackedFloat.compare, unpackedPlace, compare_place_lt, compare_place_gt] <;> rfl
    | zero t => cases s <;> simp [UnpackedFloat.compare, unpackedPlace, compare_place_lt, compare_place_gt]
    | finite t n f hn =>
      cases s <;> cases t <;> simp [UnpackedFloat.compare, unpackedPlace, compare_place_lt, compare_place_gt]
  | zero s =>
    cases v with
    | notANumber => cases hv'
    | infinity t => cases t <;> simp [UnpackedFloat.compare, unpackedPlace, compare_place_lt, compare_place_gt]
    | zero t => simp [UnpackedFloat.compare, unpackedPlace]
    | finite t n f hn =>
      cases t <;> simp only [UnpackedFloat.compare, unpackedPlace, compare_place_finite, Option.some.injEq]
      case negative => exact (compare_gt_iff_gt.mpr (neg_lt_zero.mpr (hpos hn))).symm
      case positive => exact (compare_lt_iff_lt.mpr (hpos hn)).symm
  | finite s m e hm =>
    cases v with
    | notANumber => cases hv'
    | infinity t =>
      cases s <;> cases t <;> simp [UnpackedFloat.compare, unpackedPlace, compare_place_lt, compare_place_gt]
    | zero t =>
      cases s <;> simp only [UnpackedFloat.compare, unpackedPlace, compare_place_finite, Option.some.injEq]
      case negative => exact (compare_lt_iff_lt.mpr (neg_lt_zero.mpr (hpos hm))).symm
      case positive => exact (compare_gt_iff_gt.mpr (hpos hm)).symm
    | finite t n f hn => exact compare_finite hu hv

private theorem lt_iff_place {x y : Float} (hx : x.isNaN = false) (hy : y.isNaN = false) :
    x < y ↔ place x < place y := by
  change decide (x.toModel < y.toModel) = true ↔ _
  rw [decide_eq_true_iff]
  change (x.toModel.unpack.compare y.toModel.unpack == some .lt) = true ↔ _
  have hcanonical (x : Float) : Canonical x.toModel.unpack := canonical_unpack _
  rw [compare_unpacked (hcanonical x) (hcanonical y) hx hy, beq_iff_eq, Option.some.injEq, compare_lt_iff_lt]
  rfl

private theorem place_of_isNaN {x : Float} (h : x.isNaN = true) : place x = toLex (3, 0) := by
  change x.toModel.unpack.isNaN = true at h
  rw [place]
  cases hx : x.toModel.unpack with
  | notANumber => rfl
  | infinity | zero | finite =>
    rw [hx] at h
    cases h

/-- What is a number stands below what is not. -/
private theorem place_lt_of_isNaN {x : Float} (h : x.isNaN = false) : place x < toLex (3, 0) := by
  change x.toModel.unpack.isNaN = false at h
  rw [place]
  cases hx : x.toModel.unpack with
  | notANumber =>
    rw [hx] at h
    cases h
  | infinity s => cases s <;> exact place_lt_place (by decide) _ _
  | zero s => exact place_lt_place (by decide) _ _
  | finite s m e hm => cases s <;> exact place_lt_place (by decide) _ _

/-- The order is that of places. -/
theorem order_eq_compare (x y : Float) : order x y = compare (place x) (place y) := by
  rw [order]
  cases hx : x.isNaN <;> cases hy : y.isNaN
  case false.false =>
    simp only [lt_iff_place hx hy, lt_iff_place hy hx, Bool.false_eq_true, if_false]
    rcases lt_trichotomy (place x) (place y) with h | h | h
    · rw [if_pos h, compare_lt_iff_lt.mpr h]
    · simp [h]
    · rw [if_neg h.not_gt, if_pos h, compare_gt_iff_gt.mpr h]
  case false.true => exact (compare_lt_iff_lt.mpr (place_of_isNaN hy ▸ place_lt_of_isNaN hx)).symm
  case true.false => exact (compare_gt_iff_gt.mpr (place_of_isNaN hx ▸ place_lt_of_isNaN hy)).symm
  case true.true => exact (compare_eq_iff_eq.mpr ((place_of_isNaN hx).trans (place_of_isNaN hy).symm)).symm

/-- Finite numbers have the order of their values. -/
theorem order_of_rational? {x y : Float} {a b : Rat} (hx : rational? x = some a) (hy : rational? y = some b) :
    order x y = compare a b := by
  rw [order_eq_compare, place_of_rational? hx, place_of_rational? hy, compare_place_finite]

end Reckoner.Binary64
