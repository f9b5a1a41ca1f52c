import Mathlib.Analysis.Complex.Norm
import Reckoner.Proofs.Bignum.Division
import Reckoner.Proofs.Bignum.Integers
import Reckoner.Proofs.Dimension.Group

/-! Negative powers of bignums. The power of the positive exponent comes first, from products that are each rounded
down, and its reciprocal last: a number below one may have a power that is rounded to zero, which then has no
reciprocal. -/
namespace Reckoner.Bignum

variable {x b c : Bignum}

/-! ### Products at one precision -/

private theorem rescaled_self (n : Int) : x.rescaled n x.precision = n := by
  rw [rescaled, Nat.sub_self, Nat.shiftLeft_zero, Nat.cast_one, Int.mul_one]

/-- Whole numbers of units of the last place that differ by less than one unit are equal. -/
private theorem eq_of_abs_div_sub_lt {m n : Int} {p : Nat} (h : |(m / 2 ^ p - n / 2 ^ p : Rat)| < 1 / 2 ^ p) :
    m = n := by
  have hpos : (0 : Rat) < 2 ^ p := by positivity
  rw [← sub_div, abs_div, abs_of_pos hpos, div_lt_div_iff_of_pos_right hpos] at h
  have hlt : |m - n| < 1 := by exact_mod_cast h
  exact sub_eq_zero.mp (Int.abs_lt_one_iff.mp hlt)

section Real
variable (hb : b.im = 0) (hc : c.im = 0) (hbx : b.precision = x.precision) (hcx : c.precision = x.precision)
include hb hc hbx hcx

/-- A product of real numbers of the precision of a third one. -/
private theorem mul_real_same :
    b.mul c = ⟨(b.re * c.re) >>> x.precision, 0, x.precision, b.dimension * c.dimension⟩ := by
  have hmax : max b.precision c.precision = x.precision := by rw [hbx, hcx, max_self]
  have hleft := rescaled_self (x := b) b.re
  have hright := rescaled_self (x := c) c.re
  rw [mul_real hb hc, hmax]
  rw [hbx] at hleft
  rw [hcx] at hright
  rw [hleft, hright]

/-- It is rounded down. -/
private theorem value_mul_le : (b.mul c).value ≤ b.value * c.value := by
  have hpos : (0 : Rat) < 2 ^ x.precision := by positivity
  have hfloor : ((b.re * c.re / 2 ^ x.precision : Int) * 2 ^ x.precision : Rat) ≤ b.re * c.re := by
    exact_mod_cast Int.ediv_mul_le (b.re * c.re) (by positivity : (2 : Int) ^ x.precision ≠ 0)
  rw [mul_real_same hb hc hbx hcx, value, value, value, hbx, hcx, div_mul_div_comm,
    div_le_div_iff₀ hpos (mul_pos hpos hpos), shiftRight_eq, ← mul_assoc]
  exact mul_le_mul_of_nonneg_right hfloor hpos.le

private theorem re_mul_nonneg (hb0 : 0 ≤ b.re) (hc0 : 0 ≤ c.re) : 0 ≤ (b.mul c).re := by
  rw [mul_real_same hb hc hbx hcx, shiftRight_eq]
  exact Int.ediv_nonneg (mul_nonneg hb0 hc0) (by positivity)

/-- A product of numbers that are not inside the unit interval is not either: the bounds are whole numbers, which
rounding down keeps. -/
private theorem le_abs_re_mul (hb1 : 2 ^ x.precision ≤ |b.re|) (hc1 : 2 ^ x.precision ≤ |c.re|) :
    2 ^ x.precision ≤ |(b.mul c).re| := by
  have hscale : (0 : Int) < 2 ^ x.precision := by positivity
  have hproduct := mul_le_mul hb1 hc1 hscale.le (abs_nonneg _)
  rw [mul_real_same hb hc hbx hcx, shiftRight_eq, le_abs']
  rw [← abs_mul, le_abs'] at hproduct
  rcases hproduct with hneg | hpos
  · exact .inl (Int.ediv_le_of_le_mul hscale (by linarith))
  · exact .inr (Int.le_ediv_of_mul_le hscale hpos)

/-- A product that has no more digits than are kept is exact. -/
private theorem value_mul_eq (hdigits : ∃ n : Int, b.value * c.value = n / 2 ^ x.precision) :
    (b.mul c).value = b.value * c.value := by
  have hmax : max b.precision c.precision = x.precision := by rw [hbx, hcx, max_self]
  have hrounding := abs_mul_sub_lt hb hc
  obtain ⟨n, hn⟩ := hdigits
  rw [hn, hmax, value, mul, hmax] at hrounding
  rw [hn, value, mul, hmax, eq_of_abs_div_sub_lt hrounding]

end Real

private theorem one_mul_self (h : b.precision = x.precision) : (one x.precision).mul b = b := by
  have hshift (n : Int) : (2 ^ x.precision * n) >>> x.precision = n := by
    rw [shiftRight_eq]
    exact Int.mul_ediv_cancel_left n (by positivity)
  have hone (n : Int) : (one x.precision).rescaled n x.precision = n := rescaled_self (x := one x.precision) n
  have hself (n : Int) : b.rescaled n x.precision = n := h ▸ rescaled_self n
  have hmax : max (one x.precision).precision b.precision = x.precision := h ▸ max_self _
  have hdimension : Dimension.dimensionless * b.dimension = b.dimension := one_mul b.dimension
  rw [mul, hmax]
  simp only [hone, hself]
  simp only [one, Nat.shiftLeft_eq, Nat.one_mul, Nat.cast_pow, Nat.cast_ofNat, Int.zero_mul, Int.sub_zero,
    Int.add_zero, hshift, hdimension]
  rw [← h]

private theorem isZero_mul (hb : b.isZero) : (b.mul c).isZero := by
  obtain ⟨hre, him⟩ := isZero_iff.mp hb
  simp [isZero_iff, mul, rescaled, hre, him]

/-- A number whose power is a whole number of units of the last place has smaller powers that are such numbers too. -/
private theorem exists_eq_div_pow {q : Rat} {k m p : Nat} (hk : k ≤ m) (h : ∃ n : Int, q ^ m = n / 2 ^ p) :
    ∃ n : Int, q ^ k = n / 2 ^ p := by
  obtain ⟨n, hn⟩ := h
  have hden : q.den ^ m ∣ 2 ^ p := by
    have hdvd : ((n / (2 ^ p : Int) : Rat).den : Int) ∣ 2 ^ p := by
      rw [← Rat.divInt_eq_div]
      exact Rat.den_dvd ..
    rw [← Rat.den_pow, hn]
    exact_mod_cast hdvd
  obtain ⟨t, ht⟩ := (pow_dvd_pow q.den hk).trans hden
  have ht' : (2 : Rat) ^ p = q.den ^ k * t := by exact_mod_cast ht
  have ht0 : (t : Rat) ≠ 0 := by
    intro h0
    rw [h0, mul_zero] at ht'
    exact pow_ne_zero p two_ne_zero ht'
  refine ⟨q.num ^ k * t, ?_⟩
  rw [ht']
  conv_lhs => rw [← Rat.num_div_den q, div_pow]
  push_cast
  rw [mul_div_mul_right _ _ ht0]

/-! ### Errors of powers -/

/-- How far one rounded product may be off: less than a unit in the last place of each part that is not zero. -/
noncomputable def roundoff (x : Bignum) : ℝ := (if x.im = 0 then 1 else √2) / 2 ^ x.precision

/-- How far a power may be off that is the product of `k` factors, multiplied in any order. -/
noncomputable def powerError (x : Bignum) (k : Nat) : ℝ :=
  max 1 ‖x.toComplex‖ ^ k * ((1 + x.roundoff) ^ (k - 1) - 1)

private theorem roundoff_nonneg (x : Bignum) : 0 ≤ x.roundoff := by
  rw [roundoff]
  split <;> positivity

private theorem norm_mul_sub_le (hb : b.precision = x.precision) (hc : c.precision = x.precision)
    (hreal : x.im = 0 → b.im = 0 ∧ c.im = 0) :
    ‖(b.mul c).toComplex - b.toComplex * c.toComplex‖ ≤ x.roundoff := by
  obtain ⟨hre, him⟩ := mul_rounded b c
  have hmax : max b.precision c.precision = x.precision := by rw [hb, hc, max_self]
  rw [hmax] at hre him
  rw [roundoff]
  split
  case isTrue hx =>
    obtain ⟨hb0, hc0⟩ := hreal hx
    have him0 : ((b.mul c).toComplex - b.toComplex * c.toComplex).im = 0 := by
      simp [imaginary, mul_real hb0 hc0, hb0, hc0]
    rw [Complex.norm_def, Complex.normSq_apply, him0, mul_zero, add_zero, Real.sqrt_mul_self_eq_abs]
    exact hre.le
  case isFalse hx =>
    rw [← mul_one_div]
    exact (Complex.norm_le_sqrt_two_mul_max _).trans
      (mul_le_mul_of_nonneg_left (max_le hre.le him.le) (Real.sqrt_nonneg 2))

/-- The errors of two powers and of their product make up the error of the power. -/
private theorem norm_sub_pow_le {z u v w : ℂ} {s t : ℝ} {i j : Nat} (hi : 0 < i) (hj : 0 < j) (ht : 0 ≤ t) (hs : 1 ≤ s)
    (hz : ‖z‖ ≤ s) (hu : ‖u - z ^ i‖ ≤ s ^ i * ((1 + t) ^ (i - 1) - 1))
    (hv : ‖v - z ^ j‖ ≤ s ^ j * ((1 + t) ^ (j - 1) - 1)) (hw : ‖w - u * v‖ ≤ t) :
    ‖w - z ^ (i + j)‖ ≤ s ^ (i + j) * ((1 + t) ^ (i + j - 1) - 1) := by
  obtain ⟨i, rfl⟩ := Nat.exists_eq_add_of_le' hi
  obtain ⟨j, rfl⟩ := Nat.exists_eq_add_of_le' hj
  rw [Nat.add_sub_cancel] at hu hv
  have hpow (k : Nat) : ‖z ^ k‖ ≤ s ^ k := by
    rw [norm_pow]
    exact pow_le_pow_left₀ (norm_nonneg z) hz k
  have hu' : ‖u‖ ≤ s ^ (i + 1) * (1 + t) ^ i := by
    calc ‖u‖ ≤ ‖u - z ^ (i + 1)‖ + ‖z ^ (i + 1)‖ := norm_le_norm_sub_add ..
      _ ≤ s ^ (i + 1) * ((1 + t) ^ i - 1) + s ^ (i + 1) := add_le_add hu (hpow _)
      _ = s ^ (i + 1) * (1 + t) ^ i := by ring
  have hgrowth (k : Nat) : 1 ≤ (1 + t) ^ k := one_le_pow₀ (by linarith)
  have hround : t ≤ s ^ (i + 1 + (j + 1)) * t * (1 + t) ^ (i + j) := by
    rw [mul_right_comm, mul_comm]
    exact le_mul_of_one_le_right ht (one_le_mul_of_one_le_of_one_le (one_le_pow₀ hs) (hgrowth (i + j)))
  have hsplit : w - z ^ (i + 1 + (j + 1)) = w - u * v + (u * (v - z ^ (j + 1)) + (u - z ^ (i + 1)) * z ^ (j + 1)) := by
    ring
  calc ‖w - z ^ (i + 1 + (j + 1))‖
      ≤ ‖w - u * v‖ + (‖u‖ * ‖v - z ^ (j + 1)‖ + ‖u - z ^ (i + 1)‖ * ‖z ^ (j + 1)‖) := by
        rw [hsplit, ← norm_mul, ← norm_mul]
        exact (norm_add_le _ _).trans (add_le_add_right (norm_add_le _ _) _)
    _ ≤ t + (s ^ (i + 1) * (1 + t) ^ i * (s ^ (j + 1) * ((1 + t) ^ j - 1)) +
          s ^ (i + 1) * ((1 + t) ^ i - 1) * s ^ (j + 1)) := by
        have hleft := mul_le_mul hu' hv (norm_nonneg _) (by positivity)
        have hright := mul_le_mul hu (hpow (j + 1)) (norm_nonneg _)
          (mul_nonneg (by positivity) (sub_nonneg.mpr (hgrowth i)))
        exact add_le_add hw (add_le_add hleft hright)
    _ = t + s ^ (i + 1 + (j + 1)) * ((1 + t) ^ (i + j) - 1) := by ring
    _ ≤ s ^ (i + 1 + (j + 1)) * t * (1 + t) ^ (i + j) + s ^ (i + 1 + (j + 1)) * ((1 + t) ^ (i + j) - 1) := by
        gcongr
    _ = s ^ (i + 1 + (j + 1)) * ((1 + t) ^ (i + 1 + (j + 1) - 1) - 1) := by
        rw [Nat.add_sub_assoc (by omega), Nat.add_sub_cancel, Nat.add_right_comm i 1 j]
        ring

/-! ### What every power keeps -/

/-- What holds of the `k`-th power of a number however it is multiplied together. -/
structure IsPower (x : Bignum) (k : Nat) (b : Bignum) : Prop where
  precision : b.precision = x.precision
  real : x.im = 0 → b.im = 0
  zero : x.isZero → b.isZero
  near : ‖b.toComplex - x.toComplex ^ k‖ ≤ x.powerError k
  /-- A real number that is not inside the unit interval has such powers. -/
  large : x.im = 0 → 2 ^ x.precision ≤ |x.re| → 2 ^ x.precision ≤ |b.re|
  /-- Rounding down never takes a power of a positive number above the exact one. -/
  below : x.im = 0 → 0 ≤ x.re → 0 ≤ b.re ∧ b.value ≤ x.value ^ k
  /-- A power is exact where it has no more digits than the precision. -/
  exact : x.im = 0 → ∀ m ≥ k, (∃ n : Int, x.value ^ m = n / 2 ^ x.precision) → b.value = x.value ^ k

namespace IsPower

variable {i j k : Nat}

private theorem self (x : Bignum) : IsPower x 1 x where
  precision := rfl
  real := id
  zero := id
  near := by simp [powerError]
  large _ := id
  below _ h := ⟨h, (pow_one _).ge⟩
  exact _ _ _ _ := (pow_one _).symm

private theorem mul (hi : 0 < i) (hj : 0 < j) (hb : IsPower x i b) (hc : IsPower x j c) :
    IsPower x (i + j) (b.mul c) where
  precision := by rw [Bignum.mul, hb.precision, hc.precision, max_self]
  real hx := by rw [mul_real (hb.real hx) (hc.real hx)]
  zero hx := isZero_mul (hb.zero hx)
  near := norm_sub_pow_le hi hj x.roundoff_nonneg (le_max_left ..) (le_max_right ..) hb.near hc.near
    (norm_mul_sub_le hb.precision hc.precision fun hx => ⟨hb.real hx, hc.real hx⟩)
  large hx hlarge := le_abs_re_mul (hb.real hx) (hc.real hx) hb.precision hc.precision (hb.large hx hlarge)
    (hc.large hx hlarge)
  below hx hnonneg := by
    obtain ⟨hb0, hble⟩ := hb.below hx hnonneg
    obtain ⟨hc0, hcle⟩ := hc.below hx hnonneg
    have hx0 : 0 ≤ x.value := div_nonneg (Int.cast_nonneg hnonneg) (by positivity)
    have hc0' : 0 ≤ c.value := div_nonneg (Int.cast_nonneg hc0) (by positivity)
    refine ⟨re_mul_nonneg (hb.real hx) (hc.real hx) hb.precision hc.precision hb0 hc0, ?_⟩
    calc (b.mul c).value ≤ b.value * c.value := value_mul_le (hb.real hx) (hc.real hx) hb.precision hc.precision
      _ ≤ x.value ^ i * x.value ^ j := mul_le_mul hble hcle hc0' (pow_nonneg hx0 i)
      _ = x.value ^ (i + j) := (pow_add ..).symm
  exact hx m hm hdigits := by
    have hproduct : b.value * c.value = x.value ^ (i + j) := by
      rw [hb.exact hx m (by omega) hdigits, hc.exact hx m (by omega) hdigits, pow_add]
    rw [← hproduct]
    refine value_mul_eq (hb.real hx) (hc.real hx) hb.precision hc.precision ?_
    rw [hproduct]
    exact exists_eq_div_pow hm hdigits

/-- The power that squaring makes is one. -/
private theorem powNat (x : Bignum) {n : Nat} (hn : 0 < n) : IsPower x n (x.powNat n (one x.precision)) := by
  have hmul (i j : Nat) (b c : Bignum) (hj : 0 < j) (hb : i = 0 ∧ b = one x.precision ∨ 0 < i ∧ IsPower x i b)
      (hc : j = 0 ∧ c = one x.precision ∨ 0 < j ∧ IsPower x j c) :
      i + j = 0 ∧ b.mul c = one x.precision ∨ 0 < i + j ∧ IsPower x (i + j) (b.mul c) := by
    obtain ⟨rfl, -⟩ | ⟨-, hc⟩ := hc
    · exact absurd hj (lt_irrefl 0)
    · refine .inr ⟨Nat.add_pos_right i hj, ?_⟩
      obtain ⟨rfl, rfl⟩ | ⟨hi, hb⟩ := hb
      · rw [one_mul_self hc.precision, Nat.zero_add]
        exact hc
      · exact hb.mul hi hj hc
  have hpower := powNat_induction hmul n Nat.one_pos (.inr ⟨Nat.one_pos, self x⟩) (.inl ⟨rfl, rfl⟩)
  rw [Nat.zero_add, Nat.one_mul] at hpower
  exact hpower.elim (fun h => absurd h.1 hn.ne') And.right

end IsPower

/-! ### Its reciprocal -/

private theorem reciprocal_eq_error (h : x.isZero) : x.reciprocal = .error .divisionByZero := by
  obtain ⟨hre, him⟩ := isZero_iff.mp h
  rw [reciprocal, hre, him]
  rfl

private theorem pow_of_neg {n : Int} (hneg : n < 0) (hlow : -65536 ≤ n) :
    x.pow n = (x.powNat n.natAbs (one x.precision)).reciprocal.map fun r =>
      { r with dimension := x.dimension.power (Binary64.ofInt n) } := by
  rw [pow, if_neg (by rw [maxExponent]; omega), if_pos hneg]
  cases (x.powNat n.natAbs (one x.precision)).reciprocal <;> rfl

/-- The error of a number, carried over to its inverse. -/
private theorem abs_inv_sub_inv_le {v w e : ℝ} (h : |w - v| ≤ e) (he : e < |v|) :
    |w⁻¹ - v⁻¹| ≤ e / (|v| * (|v| - e)) := by
  have hwe : |v| - e ≤ |w| := by
    have htriangle := abs_sub_abs_le_abs_sub v w
    rw [abs_sub_comm] at htriangle
    linarith
  have hv0 : v ≠ 0 := abs_pos.mp (((abs_nonneg _).trans h).trans_lt he)
  have hw0 : w ≠ 0 := abs_pos.mp (by linarith)
  have hpos : 0 < |v| * (|v| - e) := mul_pos (abs_pos.mpr hv0) (by linarith)
  rw [inv_sub_inv hw0 hv0, abs_div, abs_mul, abs_sub_comm, mul_comm |w|]
  exact div_le_div₀ ((abs_nonneg _).trans h) h hpos (mul_le_mul_of_nonneg_left hwe (abs_nonneg v))

private theorem toComplex_eq_zero (h : x.isZero) : x.toComplex = 0 := by
  obtain ⟨hre, him⟩ := isZero_iff.mp h
  apply Complex.ext <;> simp [value, imaginary, hre, him]

private theorem toComplex_real (h : x.im = 0) : x.toComplex = ((x.value : ℝ) : ℂ) := by
  apply Complex.ext <;> simp [imaginary, h]

section Negative
variable {n : Int} (hneg : n < 0) (hlow : -65536 ≤ n)
include hneg hlow

private theorem pow_eq_error_iff :
    x.pow n = .error .divisionByZero ↔ (x.powNat n.natAbs (one x.precision)).isZero := by
  rw [pow_of_neg hneg hlow]
  cases h : (x.powNat n.natAbs (one x.precision)).isZero with
  | true => simp [reciprocal_eq_error h, Except.map]
  | false =>
    obtain ⟨r, hr, -⟩ := reciprocal_parts h
    simp [hr, Except.map]

/-- Only where the power vanishes in its errors may it be rounded to zero. -/
private theorem norm_pow_le_of_error (h : x.pow n = .error .divisionByZero) :
    ‖x.toComplex‖ ^ n.natAbs ≤ x.powerError n.natAbs := by
  have hpower := IsPower.powNat x (Int.natAbs_pos.mpr hneg.ne)
  have hnear := hpower.near
  rw [toComplex_eq_zero ((pow_eq_error_iff hneg hlow).mp h), zero_sub, norm_neg, norm_pow] at hnear
  exact hnear

/-- A positive number whose power is below the last place fails. -/
private theorem pow_error_of_lt (hreal : x.im = 0) (hpos : 0 < x.re)
    (h : x.value ^ n.natAbs < 1 / 2 ^ x.precision) : x.pow n = .error .divisionByZero := by
  have hpower := IsPower.powNat x (Int.natAbs_pos.mpr hneg.ne)
  obtain ⟨hnonneg, hbelow⟩ := hpower.below hreal hpos.le
  have hscale : (0 : Rat) < 2 ^ x.precision := by positivity
  have hlt := hbelow.trans_lt h
  rw [value, hpower.precision, div_lt_div_iff_of_pos_right hscale] at hlt
  have hlt' : (x.powNat n.natAbs (one x.precision)).re < 1 := by exact_mod_cast hlt
  have hzero : (x.powNat n.natAbs (one x.precision)).re = 0 := by omega
  exact (pow_eq_error_iff hneg hlow).mpr (isZero_iff.mpr ⟨hzero, hpower.real hreal⟩)

/-- A real number outside the unit interval does not fail. -/
private theorem pow_ne_error_of_one_le (hreal : x.im = 0) (h : 1 ≤ |x.value|) : x.pow n ≠ .error .divisionByZero := by
  have hpower := IsPower.powNat x (Int.natAbs_pos.mpr hneg.ne)
  have hscale : (0 : Rat) < 2 ^ x.precision := by positivity
  rw [value, abs_div, abs_of_pos hscale, le_div_iff₀ hscale, one_mul] at h
  have hlarge := hpower.large hreal (by exact_mod_cast h)
  intro herror
  have hzero := (isZero_iff.mp ((pow_eq_error_iff hneg hlow).mp herror)).1
  rw [hzero, abs_zero] at hlarge
  exact absurd hlarge (not_le.mpr (by positivity))

/-- What is returned is the reciprocal of the power. -/
private theorem pow_of_ne_zero (h : (x.powNat n.natAbs (one x.precision)).isZero = false) :
    ∃ r, x.pow n = .ok r ∧ r.precision = x.precision ∧ (x.im = 0 → r.im = 0) ∧
      |(r.toComplex - (x.powNat n.natAbs (one x.precision)).toComplex⁻¹).re| < 1 / 2 ^ x.precision ∧
      |(r.toComplex - (x.powNat n.natAbs (one x.precision)).toComplex⁻¹).im| < 1 / 2 ^ x.precision := by
  have hpower := IsPower.powNat x (Int.natAbs_pos.mpr hneg.ne)
  obtain ⟨r, hr, hprecision, hreal, hre, him⟩ := reciprocal_rounded h
  rw [hpower.precision] at hprecision hre him
  refine ⟨{ r with dimension := x.dimension.power (Binary64.ofInt n) }, ?_, hprecision,
    fun hx => hreal (hpower.real hx), hre, him⟩
  rw [pow_of_neg hneg hlow, hr]
  rfl

end Negative

/-- How far the inverse of a power may be off where that error leaves something of the power. -/
private theorem abs_inv_powNat_sub_le {m : Nat} (hm : 0 < m) (hreal : x.im = 0)
    (h : x.powerError m < |(x.value : ℝ)| ^ m) :
    |((x.powNat m (one x.precision)).value : ℝ)⁻¹ - ((x.value : ℝ) ^ m)⁻¹| ≤
      x.powerError m / (|(x.value : ℝ)| ^ m * (|(x.value : ℝ)| ^ m - x.powerError m)) := by
  have hpower := IsPower.powNat x hm
  have hnear := hpower.near
  rw [toComplex_real (hpower.real hreal), toComplex_real hreal, ← Complex.ofReal_pow, ← Complex.ofReal_sub,
    Complex.norm_real, Real.norm_eq_abs] at hnear
  rw [← abs_pow] at h ⊢
  exact abs_inv_sub_inv_le hnear h

private theorem zpow_of_neg {n : Int} (hneg : n < 0) (a : ℝ) : a ^ n = (a ^ n.natAbs)⁻¹ := by
  rw [← zpow_natCast, ← zpow_neg, Int.ofNat_natAbs_of_nonpos hneg.le, neg_neg]

/-- A negative power fails exactly where the power of the positive exponent is rounded to zero. That is so for zero
and for a positive number with a power below the last place; elsewhere only if the power is no larger than the errors
that its products may add up to, and for no real number outside the unit interval. What is returned is less than one
unit in the last place off the reciprocal of the rounded power, and so off the exact one by that and what the errors of
the products come to in the inverse: they come to nothing where the power has no more digits than are kept. -/
theorem pow_negative (x : Bignum) (n : Int) (hneg : n < 0) (hlow : -65536 ≤ n) :
    let m := n.natAbs
    let power := x.powNat m (one x.precision)
    (x.pow n = .error .divisionByZero ↔ power.isZero) ∧
    (x.isZero → x.pow n = .error .divisionByZero) ∧
    (x.pow n = .error .divisionByZero → ‖x.toComplex‖ ^ m ≤ x.powerError m) ∧
    (x.im = 0 → 0 < x.re → x.value ^ m < 1 / 2 ^ x.precision → x.pow n = .error .divisionByZero) ∧
    (x.im = 0 → 1 ≤ |x.value| → x.pow n ≠ .error .divisionByZero) ∧
    (power.isZero = false → ∃ r, x.pow n = .ok r ∧ r.precision = x.precision ∧
      |(r.toComplex - power.toComplex⁻¹).re| < 1 / 2 ^ x.precision ∧
      |(r.toComplex - power.toComplex⁻¹).im| < 1 / 2 ^ x.precision ∧
      (x.im = 0 → r.im = 0 ∧
        (x.powerError m < |(x.value : ℝ)| ^ m → |(r.value - x.value ^ n : ℝ)| <
          1 / 2 ^ x.precision + x.powerError m / (|(x.value : ℝ)| ^ m * (|(x.value : ℝ)| ^ m - x.powerError m))) ∧
        ((∃ k : Int, x.value ^ m = k / 2 ^ x.precision) → |(r.value - x.value ^ n : ℝ)| < 1 / 2 ^ x.precision))) := by
  intro m power
  have hm : 0 < m := Int.natAbs_pos.mpr hneg.ne
  have hpower : IsPower x m power := IsPower.powNat x hm
  refine ⟨pow_eq_error_iff hneg hlow, fun hzero => (pow_eq_error_iff hneg hlow).mpr (hpower.zero hzero),
    norm_pow_le_of_error hneg hlow, pow_error_of_lt hneg hlow, pow_ne_error_of_one_le hneg hlow, fun hne => ?returned⟩
  obtain ⟨r, hr, hprecision, hreal, hre, him⟩ := pow_of_ne_zero hneg hlow hne
  refine ⟨r, hr, hprecision, hre, him, fun hx => ⟨hreal hx, ?_⟩⟩
  have hinverse : |(r.value - (power.value : ℝ)⁻¹ : ℝ)| < 1 / 2 ^ x.precision := by
    rw [toComplex_real (hreal hx), toComplex_real (hpower.real hx), ← Complex.ofReal_inv, ← Complex.ofReal_sub,
      Complex.ofReal_re] at hre
    exact hre
  rw [zpow_of_neg hneg]
  constructor
  case left =>
    intro hsmall
    exact (abs_sub_le _ _ _).trans_lt (add_lt_add_of_lt_of_le hinverse (abs_inv_powNat_sub_le hm hx hsmall))
  case right =>
    intro hdigits
    have hexact : (power.value : ℝ) = (x.value : ℝ) ^ m := by exact_mod_cast hpower.exact hx m le_rfl hdigits
    rw [← hexact]
    exact hinverse

/-- The square of minus one and a half has no more than the two binary digits that are kept. -/
theorem pow_negative_of_fractions :
    let x : Bignum := ⟨-6, 0, 2, .base .length⟩
    (-2 : Int) < 0 ∧ (-65536 : Int) ≤ -2 ∧ x.pow (-2) ≠ .error .divisionByZero ∧
      ∃ r, x.pow (-2) = .ok r ∧ |(r.value - x.value ^ (-2 : Int) : ℝ)| < 1 / 2 ^ 2 := by
  intro x
  obtain ⟨hiff, -, -, -, hlarge, hreturned⟩ := pow_negative x (-2) (by decide) (by decide)
  have hne : x.pow (-2) ≠ .error .divisionByZero := hlarge rfl (by norm_num [x, value, abs_of_neg])
  have hpower : (x.powNat 2 (one 2)).isZero = false := Bool.eq_false_iff.mpr fun h => hne (hiff.mpr h)
  obtain ⟨r, hr, -, -, -, hreal⟩ := hreturned hpower
  exact ⟨by decide, by decide, hne, r, hr, (hreal rfl).2.2 ⟨9, by norm_num [x, value]⟩⟩

/-- The 300th power of one half, at 256 binary digits behind the point, is rounded to zero, and the third power of
three quarters, at two digits, to one quarter. -/
theorem pow_negative_not_exact :
    (¬∀ (x : Bignum) (n : Int), -65536 ≤ n → n < 0 → (x.pow n = .error .divisionByZero ↔ x.isZero)) ∧
      ¬∀ (x : Bignum) (n : Int), -65536 ≤ n → n < 0 → x.isZero = false → x.im = 0 → x.pow n ≠ .error .divisionByZero →
        ∃ r, x.pow n = .ok r ∧ |r.value - x.value ^ n| ≤ 1 / 2 ^ r.precision := by
  constructor
  · intro h
    have hfails : Bignum.pow ⟨2 ^ 255, 0, 256, .dimensionless⟩ (-300) = .error .divisionByZero := by decide +kernel
    exact absurd ((h _ (-300) (by decide) (by decide)).mp hfails) (by decide)
  · intro h
    have hpower : Bignum.pow ⟨3, 0, 2, .dimensionless⟩ (-3) = .ok ⟨16, 0, 2, .dimensionless⟩ := by decide +kernel
    obtain ⟨r, hr, herror⟩ :=
      h ⟨3, 0, 2, .dimensionless⟩ (-3) (by decide) (by decide) (by decide) rfl (by simp [hpower])
    obtain rfl := Except.ok.inj (hpower.symm.trans hr)
    norm_num [value] at herror

end Reckoner.Bignum
