import Mathlib.Data.Complex.Basic
import Mathlib.Data.Rat.Cast.Order
import Mathlib.Tactic.FieldSimp
import Mathlib.Tactic.Linarith
import Mathlib.Tactic.Ring
import Reckoner.Proofs.Bignum.Reading

/-! How far the operations on bignums are from exact arithmetic. A number that is read is rounded to the nearest
multiple of its last place, sums are exact, and each part of a product or a reciprocal is off by less than one unit in
its last place: products are summed before they are rounded, and operands of different precision lose nothing. -/
namespace Reckoner.Bignum

variable {x y : Bignum}

def value (x : Bignum) : Rat := x.re / 2 ^ x.precision

def imaginary (x : Bignum) : Rat := x.im / 2 ^ x.precision

noncomputable def toComplex (x : Bignum) : ℂ := ⟨x.value, x.imaginary⟩

@[simp] theorem toComplex_re (x : Bignum) : x.toComplex.re = x.value := rfl

@[simp] theorem toComplex_im (x : Bignum) : x.toComplex.im = x.imaginary := rfl

theorem isZero_iff : x.isZero = true ↔ x.re = 0 ∧ x.im = 0 := by
  rw [isZero, Bool.and_eq_true, beq_iff_eq, beq_iff_eq]

/-! ### Rounding to whole numbers -/

/-- Division toward zero is off by less than one. -/
private theorem abs_tdiv_sub_lt {n d : Int} (hd : d ≠ 0) : |(n.tdiv d : Rat) - n / d| < 1 := by
  have hd' : (d : Rat) ≠ 0 := Int.cast_ne_zero.mpr hd
  have hsplit : (n : Rat) = d * n.tdiv d + n.tmod d := by exact_mod_cast (Int.mul_tdiv_add_tmod n d).symm
  have hrest : |(n.tmod d : Rat)| < |(d : Rat)| := by
    have hlt : |n.tmod d| < |d| := by
      rw [Int.abs_eq_natAbs, Int.abs_eq_natAbs, Int.natAbs_tmod]
      exact_mod_cast Nat.mod_lt _ (Int.natAbs_pos.mpr hd)
    exact_mod_cast hlt
  have herror : (n.tdiv d : Rat) - n / d = -(n.tmod d / d) := by
    rw [hsplit]
    field_simp
    ring
  rw [herror, abs_neg, abs_div, div_lt_one (abs_pos.mpr hd')]
  exact hrest

theorem shiftRight_eq (n : Int) (p : Nat) : n >>> p = n / 2 ^ p := by
  rw [Int.shiftRight_eq_div_pow, Nat.cast_pow, Nat.cast_ofNat]

/-- A shift to the right is off by less than one. -/
theorem abs_shiftRight_sub_lt (n : Int) (p : Nat) : |((n >>> p : Int) : Rat) - n / 2 ^ p| < 1 := by
  have hpos : (0 : Rat) < 2 ^ p := by positivity
  have hlow : ((n / 2 ^ p : Int) : Rat) ≤ n / 2 ^ p := by
    rw [le_div_iff₀ hpos]
    exact_mod_cast Int.ediv_mul_le n (by positivity : (2 : Int) ^ p ≠ 0)
  have hhigh : (n / 2 ^ p : Rat) < (n / 2 ^ p : Int) + 1 := by
    rw [div_lt_iff₀ hpos]
    exact_mod_cast Int.lt_ediv_add_one_mul_self n (by positivity : (0 : Int) < 2 ^ p)
  rw [shiftRight_eq, abs_lt]
  constructor <;> linarith

/-- Division after adding half of the divisor, rounded down, is off by at most a half: an odd divisor leaves no rest
of exactly a half. -/
private theorem abs_halfUp_sub_le (n : Nat) {d : Nat} (hd : 0 < d) :
    |(((n + d / 2) / d : Nat) : Rat) - n / d| ≤ 1 / 2 := by
  have hd' : (0 : Rat) < d := Nat.cast_pos.mpr hd
  have hsplit := Nat.div_add_mod (n + d / 2) d
  have hrest := Nat.mod_lt (n + d / 2) hd
  have hlow : 2 * (d * ((n + d / 2) / d)) ≤ 2 * n + d := by omega
  have hhigh : 2 * n ≤ 2 * (d * ((n + d / 2) / d)) + d := by omega
  have hlow' : (2 * (d * ((n + d / 2) / d : Nat)) : Rat) ≤ 2 * n + d := by exact_mod_cast hlow
  have hhigh' : (2 * n : Rat) ≤ 2 * (d * ((n + d / 2) / d : Nat)) + d := by exact_mod_cast hhigh
  rw [abs_le]
  constructor
  · rw [neg_le_sub_iff_le_add, div_le_iff₀ hd']
    linarith
  · rw [sub_le_iff_le_add, ← sub_le_iff_le_add', le_div_iff₀ hd']
    linarith

/-- What is at most a half away is the nearest whole number. -/
private theorem abs_sub_le_abs_sub {n : Int} {w : Rat} (h : |(n : Rat) - w| ≤ 1 / 2) (k : Int) :
    |(n : Rat) - w| ≤ |(k : Rat) - w| := by
  by_cases hk : k = n
  · rw [hk]
  · have hone : (1 : Rat) ≤ |(k : Rat) - n| := by exact_mod_cast Int.one_le_abs (sub_ne_zero.mpr hk)
    have htriangle := abs_sub_le (k : Rat) w n
    rw [abs_sub_comm w n] at htriangle
    linarith

/-- What is off by less than one before it is scaled is off by less than one unit in the last place. -/
private theorem abs_div_sub_lt {n q : Rat} (h : |n - q| < 1) (p : Nat) : |n / 2 ^ p - q / 2 ^ p| < 1 / 2 ^ p := by
  have hpos : (0 : Rat) < 2 ^ p := by positivity
  rw [← sub_div, abs_div, abs_of_pos hpos]
  exact div_lt_div_of_pos_right h hpos

/-- A bound on a rational number, among the real numbers. -/
private theorem abs_cast_lt {q : Rat} {p : Nat} (h : |q| < 1 / 2 ^ p) : |(q : ℝ)| < 1 / 2 ^ p := by
  have hcast : ((|q| : Rat) : ℝ) < ((1 / 2 ^ p : Rat) : ℝ) := Rat.cast_lt.mpr h
  push_cast at hcast
  exact hcast

/-! ### Reading -/

variable {base precision : Nat} {t : Text} {w : Rat}

/-- Reading rounds to the nearest number of the precision. -/
private theorem parse_nearest (precision : Nat) (hbase : 2 ≤ base) (hbase' : base ≤ 36) (h : Writes base t w) :
    ∃ x, parse base precision t = some x ∧ x.precision = precision ∧ x.im = 0 ∧ x.dimension = .dimensionless ∧
      |x.value - w| ≤ 1 / 2 / 2 ^ precision ∧ ∀ k : Int, |x.value - w| ≤ |k / 2 ^ precision - w| := by
  cases h with
  | @mk before sign body behind whole fraction negative ds hbefore hsign hbody hdigits hne hbehind =>
    have hwritten : whole ++ fraction ≠ [] := by
      intro hnil
      rw [hnil] at hdigits
      cases hdigits
      exact hne rfl
    refine ⟨_, parse_written hbase hbase' hbefore hsign hbody hwritten hdigits.natOfDigits hbehind, rfl, rfl, rfl, ?_⟩
    generalize Nat.ofDigits base ds.reverse = m
    have hweight : 0 < base ^ fraction.length := Nat.pow_pos (by omega)
    have hpos : (0 : Rat) < 2 ^ precision := by positivity
    set magnitude := (m * 2 ^ precision + base ^ fraction.length / 2) / base ^ fraction.length
    set stored : Int := if negative then -magnitude else magnitude
    set number : Rat := (if negative then -1 else 1) * (m / base ^ fraction.length)
    have hhalf : |(stored : Rat) - number * 2 ^ precision| ≤ 1 / 2 := by
      have hmagnitude := abs_halfUp_sub_le (m * 2 ^ precision) hweight
      push_cast at hmagnitude
      have hscaled : (m / base ^ fraction.length * 2 ^ precision : Rat) = m * 2 ^ precision / base ^ fraction.length :=
        div_mul_eq_mul_div ..
      cases negative with
      | false => simpa [stored, number, hscaled] using hmagnitude
      | true => simpa [stored, number, hscaled, neg_add_eq_sub, abs_sub_comm] using hmagnitude
    have hdistance (k : Int) :
        |(k / 2 ^ precision : Rat) - number| = |(k : Rat) - number * 2 ^ precision| / 2 ^ precision := by
      rw [eq_div_iff hpos.ne', ← abs_of_pos hpos, ← abs_mul, abs_of_pos hpos, sub_mul, div_mul_cancel₀ _ hpos.ne']
    refine ⟨?half, fun k => ?nearest⟩
    case half =>
      rw [value, hdistance stored]
      exact div_le_div_of_nonneg_right hhalf hpos.le
    case nearest =>
      rw [value, hdistance stored, hdistance k]
      exact div_le_div_of_nonneg_right (abs_sub_le_abs_sub hhalf k) hpos.le

/-! ### Sums -/

/-- The stored integer at a larger precision stands for the same number. -/
private theorem rescaled_div (x : Bignum) (n : Int) {p : Nat} (hp : x.precision ≤ p) :
    (x.rescaled n p : Rat) / 2 ^ p = n / 2 ^ x.precision := by
  obtain ⟨k, rfl⟩ := Nat.exists_eq_add_of_le hp
  rw [rescaled, Nat.add_sub_cancel_left, Nat.shiftLeft_eq, Nat.one_mul, pow_add]
  push_cast
  field_simp

private theorem value_rescaled (x : Bignum) {p : Nat} (hp : x.precision ≤ p) : x.value = x.rescaled x.re p / 2 ^ p :=
  (rescaled_div x x.re hp).symm

private theorem imaginary_rescaled (x : Bignum) {p : Nat} (hp : x.precision ≤ p) :
    x.imaginary = x.rescaled x.im p / 2 ^ p :=
  (rescaled_div x x.im hp).symm

private theorem toComplex_neg (x : Bignum) : x.neg.toComplex = -x.toComplex := by
  apply Complex.ext <;> simp [neg, value, imaginary, neg_div]

private theorem sum_exact {d : Dimension} (operation : Aligned) (right : Bignum)
    (h : x.dimension.additive? y.dimension = some d) :
    ∃ z, sum operation x y right = .ok z ∧ z.precision = max x.precision y.precision ∧ z.dimension = d ∧
      z.toComplex = x.toComplex + y.toComplex := by
  have hx := le_max_left x.precision y.precision
  have hy := le_max_right x.precision y.precision
  refine ⟨_, by rw [sum, h], rfl, rfl, Complex.ext ?_ ?_⟩
  · rw [Complex.add_re, toComplex_re, toComplex_re, toComplex_re, x.value_rescaled hx, y.value_rescaled hy, value]
    push_cast
    ring
  · rw [Complex.add_im, toComplex_im, toComplex_im, toComplex_im, x.imaginary_rescaled hx, y.imaginary_rescaled hy,
      imaginary]
    push_cast
    ring

/-! ### Products -/

section Products
variable (x y : Bignum)

/-- The real part of a product is rounded down to the next multiple of its last place. -/
theorem abs_value_mul_sub_lt :
    |(x.mul y).value - (x.value * y.value - x.imaginary * y.imaginary)| < 1 / 2 ^ max x.precision y.precision := by
  set p := max x.precision y.precision
  have hx : x.precision ≤ p := le_max_left ..
  have hy : y.precision ≤ p := le_max_right ..
  have hexact : x.value * y.value - x.imaginary * y.imaginary =
      ((x.rescaled x.re p * y.rescaled y.re p - x.rescaled x.im p * y.rescaled y.im p : Int) / 2 ^ p : Rat) /
        2 ^ p := by
    rw [x.value_rescaled hx, y.value_rescaled hy, x.imaginary_rescaled hx, y.imaginary_rescaled hy]
    push_cast
    ring
  rw [hexact]
  exact abs_div_sub_lt (abs_shiftRight_sub_lt _ p) p

/-- So is the imaginary part. -/
private theorem abs_imaginary_mul_sub_lt :
    |(x.mul y).imaginary - (x.value * y.imaginary + x.imaginary * y.value)| < 1 / 2 ^ max x.precision y.precision := by
  set p := max x.precision y.precision
  have hx : x.precision ≤ p := le_max_left ..
  have hy : y.precision ≤ p := le_max_right ..
  have hexact : x.value * y.imaginary + x.imaginary * y.value =
      ((x.rescaled x.re p * y.rescaled y.im p + x.rescaled x.im p * y.rescaled y.re p : Int) / 2 ^ p : Rat) /
        2 ^ p := by
    rw [x.value_rescaled hx, y.value_rescaled hy, x.imaginary_rescaled hx, y.imaginary_rescaled hy]
    push_cast
    ring
  rw [hexact]
  exact abs_div_sub_lt (abs_shiftRight_sub_lt _ p) p

end Products

/-- Each part of a product is off by less than one unit in its last place. -/
theorem mul_rounded (x y : Bignum) :
    |((x.mul y).toComplex - x.toComplex * y.toComplex).re| < 1 / 2 ^ max x.precision y.precision ∧
      |((x.mul y).toComplex - x.toComplex * y.toComplex).im| < 1 / 2 ^ max x.precision y.precision := by
  have hre := abs_cast_lt (abs_value_mul_sub_lt x y)
  have him := abs_cast_lt (abs_imaginary_mul_sub_lt x y)
  push_cast at hre him
  exact ⟨hre, him⟩

/-! ### Reciprocals -/

private theorem norm_ne_zero (h : x.isZero = false) : x.re * x.re + x.im * x.im ≠ 0 := by
  intro hnorm
  have hre : x.re = 0 := by nlinarith [mul_self_nonneg x.re, mul_self_nonneg x.im]
  have him : x.im = 0 := by nlinarith [mul_self_nonneg x.re, mul_self_nonneg x.im]
  exact Bool.false_ne_true (h.symm.trans (isZero_iff.mpr ⟨hre, him⟩))

/-- A part divided by the square of the absolute value, as the quotient of stored integers. -/
private theorem div_norm_eq (h : x.isZero = false) (n : Int) :
    (n / 2 ^ x.precision : Rat) / (x.value * x.value + x.imaginary * x.imaginary) =
      ((n * (1 <<< (2 * x.precision) : Nat) : Int) / (x.re * x.re + x.im * x.im : Int) : Rat) / 2 ^ x.precision := by
  have hnorm : (x.re * x.re + x.im * x.im : Rat) ≠ 0 := by exact_mod_cast norm_ne_zero h
  rw [value, imaginary, Nat.shiftLeft_eq, Nat.one_mul, two_mul, pow_add]
  push_cast
  field_simp

/-- The parts of a reciprocal, which is real when the number is. -/
theorem reciprocal_parts (h : x.isZero = false) :
    ∃ r, x.reciprocal = .ok r ∧ r.precision = x.precision ∧ r.dimension = .dimensionless / x.dimension ∧
      (x.im = 0 → r.im = 0) ∧
      |r.value - x.value / (x.value * x.value + x.imaginary * x.imaginary)| < 1 / 2 ^ x.precision ∧
      |r.imaginary - -(x.imaginary / (x.value * x.value + x.imaginary * x.imaginary))| < 1 / 2 ^ x.precision := by
  have hne := norm_ne_zero h
  set norm := x.re * x.re + x.im * x.im with hnorm
  let r : Bignum := ⟨(x.re * (1 <<< (2 * x.precision) : Nat)).tdiv norm,
    -(x.im * (1 <<< (2 * x.precision) : Nat)).tdiv norm, x.precision, .dimensionless / x.dimension⟩
  have hr : x.reciprocal = .ok r := by rw [reciprocal, if_neg hne]
  refine ⟨r, hr, rfl, rfl, ?real, ?re, ?im⟩
  case real =>
    intro hreal
    simp only [r, hreal, Int.zero_mul, Int.zero_tdiv, Int.neg_zero]
  case re =>
    have hexact := div_norm_eq h x.re
    rw [← value] at hexact
    rw [hexact]
    exact abs_div_sub_lt (abs_tdiv_sub_lt hne) _
  case im =>
    have hexact := div_norm_eq h x.im
    rw [← imaginary] at hexact
    have hrounding := abs_div_sub_lt (abs_tdiv_sub_lt (n := x.im * (1 <<< (2 * x.precision) : Nat)) hne) x.precision
    rw [hexact, sub_neg_eq_add, imaginary, Int.cast_neg, neg_div, neg_add_eq_sub, abs_sub_comm]
    exact hrounding

/-- Each part of a reciprocal is off by less than one unit in its last place. -/
theorem reciprocal_rounded (h : x.isZero = false) :
    ∃ r, x.reciprocal = .ok r ∧ r.precision = x.precision ∧ (x.im = 0 → r.im = 0) ∧
      |(r.toComplex - x.toComplex⁻¹).re| < 1 / 2 ^ x.precision ∧
      |(r.toComplex - x.toComplex⁻¹).im| < 1 / 2 ^ x.precision := by
  obtain ⟨r, hr, hprecision, -, hreal, hre, him⟩ := reciprocal_parts h
  refine ⟨r, hr, hprecision, hreal, ?_⟩
  have hre := abs_cast_lt hre
  have him := abs_cast_lt him
  rw [Complex.sub_re, Complex.sub_im, Complex.inv_re, Complex.inv_im, Complex.normSq_apply, neg_div]
  push_cast at hre him
  exact ⟨hre, him⟩

/-- The error of each operation on its own. A text that writes a number is read as the multiple of the last place that
is nearest to the number; sums and differences are exact; the parts of a product and of a reciprocal are less than one
unit in the last place off. -/
theorem operations_rounded :
    (∀ (base precision : Nat) (t : Text) (w : Rat), 2 ≤ base → base ≤ 36 → Writes base t w →
      ∃ x, parse base precision t = some x ∧ x.precision = precision ∧ x.im = 0 ∧ x.dimension = .dimensionless ∧
        |x.value - w| ≤ 1 / 2 / 2 ^ precision ∧ ∀ k : Int, |x.value - w| ≤ |k / 2 ^ precision - w|) ∧
    (∀ (x y : Bignum) (d : Dimension), x.dimension.additive? y.dimension = some d →
      (∃ z, x.add y = .ok z ∧ z.precision = max x.precision y.precision ∧ z.dimension = d ∧
        z.toComplex = x.toComplex + y.toComplex) ∧
      ∃ z, x.sub y = .ok z ∧ z.precision = max x.precision y.precision ∧ z.dimension = d ∧
        z.toComplex = x.toComplex - y.toComplex) ∧
    (∀ x y : Bignum, (x.mul y).precision = max x.precision y.precision ∧
      |((x.mul y).toComplex - x.toComplex * y.toComplex).re| < 1 / 2 ^ max x.precision y.precision ∧
      |((x.mul y).toComplex - x.toComplex * y.toComplex).im| < 1 / 2 ^ max x.precision y.precision) ∧
    ∀ x : Bignum, x.isZero = false → ∃ r, x.reciprocal = .ok r ∧ r.precision = x.precision ∧
      |(r.toComplex - x.toComplex⁻¹).re| < 1 / 2 ^ x.precision ∧
      |(r.toComplex - x.toComplex⁻¹).im| < 1 / 2 ^ x.precision := by
  refine ⟨fun base precision t w hbase hbase' ht => parse_nearest precision hbase hbase' ht, fun x y d hd => ?sums,
    fun x y => ⟨rfl, mul_rounded x y⟩, fun x hx => ?reciprocal⟩
  case sums =>
    refine ⟨sum_exact .add y hd, ?_⟩
    obtain ⟨z, hz, hprecision, hdimension, hexact⟩ := sum_exact (y := y.neg) .subtract y hd
    exact ⟨z, hz, hprecision, hdimension, by rw [hexact, toComplex_neg, sub_eq_add_neg]⟩
  case reciprocal =>
    obtain ⟨r, hr, hprecision, -, herror⟩ := reciprocal_rounded hx
    exact ⟨r, hr, hprecision, herror⟩

/-- A negative number written without a digit in front of the point, and operations on complex lengths of two
precisions. -/
theorem operations_rounded_of_mixed :
    let x : Bignum := ⟨-5, 3, 2, .base .length⟩
    let y : Bignum := ⟨7, 1, 3, .base .length⟩
    let written : Text := [' ', '-', '.', '1', '2']
    Writes 3 written (-(5 / 9)) ∧
      (∃ z, parse 3 2 written = some z ∧ z.precision = 2 ∧ z.im = 0 ∧ z.dimension = .dimensionless ∧
        |z.value - -(5 / 9)| ≤ 1 / 2 / 2 ^ 2 ∧ ∀ k : Int, |z.value - -(5 / 9)| ≤ |(k : Rat) / 2 ^ 2 - -(5 / 9)|) ∧
      x.dimension.additive? y.dimension = some (.base .length) ∧
      (∃ z, x.add y = .ok z ∧ z.precision = 3 ∧ z.dimension = .base .length ∧
        z.toComplex = x.toComplex + y.toComplex) ∧
      |((x.mul y).toComplex - x.toComplex * y.toComplex).re| < 1 / 2 ^ 3 ∧
      x.isZero = false ∧ ∃ r, x.reciprocal = .ok r ∧ r.precision = 2 ∧
        |(r.toComplex - x.toComplex⁻¹).re| < 1 / 2 ^ 2 ∧ |(r.toComplex - x.toComplex⁻¹).im| < 1 / 2 ^ 2 := by
  intro x y written
  obtain ⟨hread, hsums, hproducts, hreciprocals⟩ := operations_rounded
  have hwrites : Writes 3 written (-(5 / 9)) := by
    have hdigits : Text.HasDigits 3 ['1', '2'] [1, 2] := .cons (by decide) (.cons (by decide) .nil)
    have hmk := @Writes.mk 3 [' '] ['-'] _ [] [] ['1', '2'] true [1, 2] (List.forall_mem_singleton.mpr (by decide))
      .minus (.within [] _) hdigits (by decide) (List.forall_mem_nil _)
    have hvalue : (if true then -1 else 1 : Rat) * ((5 : Nat) / (3 : Nat) ^ 2) = -(5 / 9) := by norm_num
    exact hvalue ▸ hmk
  have hadditive : x.dimension.additive? y.dimension = some (.base .length) := by decide
  exact ⟨hwrites, hread 3 2 _ _ (by decide) (by decide) hwrites, hadditive, (hsums x y _ hadditive).1,
    (hproducts x y).2.1, by decide, hreciprocals x (by decide)⟩

end Reckoner.Bignum
