import Reckoner.Proofs.Bignum.Rounding

/-! Quotients of real bignums. A quotient is the product with a reciprocal of fixed point, so that the error of the
reciprocal is multiplied by the dividend: a dividend above one costs digits at the end. -/
namespace Reckoner.Bignum

variable {x y : Bignum}

private theorem rescaled_zero (x : Bignum) (p : Nat) : x.rescaled 0 p = 0 := Int.zero_mul _

/-- A product of real numbers is real. -/
theorem mul_real (hx : x.im = 0) (hy : y.im = 0) :
    x.mul y = ⟨(x.rescaled x.re (max x.precision y.precision) * y.rescaled y.re (max x.precision y.precision)) >>>
      max x.precision y.precision, 0, max x.precision y.precision, x.dimension * y.dimension⟩ := by
  simp only [mul, hx, hy, rescaled_zero, Int.mul_zero, Int.zero_mul, Int.sub_zero, Int.add_zero, Int.zero_shiftRight]

/-- A product of real numbers is rounded down to the next multiple of its last place. -/
theorem abs_mul_sub_lt (hx : x.im = 0) (hy : y.im = 0) :
    |(x.mul y).value - x.value * y.value| < 1 / 2 ^ max x.precision y.precision := by
  simpa [imaginary, hx, hy] using abs_value_mul_sub_lt x y

/-- The reciprocal of a real number other than zero is real, and off by less than one unit in its last place. -/
private theorem reciprocal_real (hx : x.im = 0) (hne : x.re ≠ 0) :
    ∃ r, x.reciprocal = .ok r ∧ r.im = 0 ∧ r.precision = x.precision ∧ r.dimension = .dimensionless / x.dimension ∧
      |r.value - 1 / x.value| < 1 / 2 ^ x.precision := by
  have hzero : x.isZero = false := Bool.eq_false_iff.mpr fun h => hne (isZero_iff.mp h).1
  have hvalue : x.value ≠ 0 := div_ne_zero (Int.cast_ne_zero.mpr hne) (by positivity)
  obtain ⟨r, hr, hprecision, hdimension, hreal, herror, -⟩ := reciprocal_parts hzero
  have hexact : x.value / (x.value * x.value + x.imaginary * x.imaginary) = 1 / x.value := by
    rw [imaginary, hx]
    field_simp
    simp
  exact ⟨r, hr, hreal hx, hprecision, hdimension, hexact ▸ herror⟩

/-- The quotient of real numbers is real and has the larger precision. It is off by less than one unit in its last
place and the dividend times one unit in the last place of the divisor. -/
theorem div_error (a b : Bignum) (ha : a.im = 0) (hb : b.im = 0) (hne : b.re ≠ 0) :
    ∃ c, a.div b = .ok c ∧ c.im = 0 ∧ c.precision = max a.precision b.precision ∧
      c.dimension = a.dimension * (.dimensionless / b.dimension) ∧
      |c.value - a.value / b.value| < 1 / 2 ^ max a.precision b.precision + |a.value| / 2 ^ b.precision := by
  obtain ⟨r, hr, hreal, hprecision, hdimension, herror⟩ := reciprocal_real hb hne
  refine ⟨a.mul r, by rw [div, hr]; rfl, ?im, ?precision, ?dimension, ?error⟩
  case im => rw [mul_real ha hreal]
  case precision => rw [mul_real ha hreal, hprecision]
  case dimension => rw [mul_real ha hreal, hdimension]
  case error =>
    have hrounding := abs_mul_sub_lt ha hreal
    have hscaled : |a.value * r.value - a.value / b.value| ≤ |a.value| / 2 ^ b.precision := by
      calc |a.value * r.value - a.value / b.value| = |a.value| * |r.value - 1 / b.value| := by
            rw [← abs_mul, mul_sub, mul_one_div]
        _ ≤ |a.value| * (1 / 2 ^ b.precision) := mul_le_mul_of_nonneg_left herror.le (abs_nonneg _)
        _ = |a.value| / 2 ^ b.precision := mul_one_div ..
    rw [hprecision] at hrounding
    calc |(a.mul r).value - a.value / b.value|
        ≤ |(a.mul r).value - a.value * r.value| + |a.value * r.value - a.value / b.value| := abs_sub_le ..
      _ < _ := add_lt_add_of_lt_of_le hrounding hscaled

/-- A negative number of two binary digits behind the point over one of three. -/
theorem div_error_of_mixed :
    let a : Bignum := ⟨-50, 0, 2, .base .length⟩
    let b : Bignum := ⟨24, 0, 3, .base .time⟩
    a.im = 0 ∧ b.im = 0 ∧ b.re ≠ 0 ∧
      ∃ c, a.div b = .ok c ∧ c.im = 0 ∧ c.precision = max a.precision b.precision ∧
        c.dimension = a.dimension * (.dimensionless / b.dimension) ∧
        |c.value - a.value / b.value| < 1 / 2 ^ max a.precision b.precision + |a.value| / 2 ^ b.precision :=
  ⟨rfl, rfl, by decide, div_error _ _ rfl rfl (by decide)⟩

/-- Twelve over three, at 256 binary digits behind the point, is four units in the last place short of four. -/
theorem div_not_within_last_place :
    ¬∀ a b : Bignum, a.im = 0 → b.im = 0 → b.re ≠ 0 →
      ∃ c, a.div b = .ok c ∧ |c.value - a.value / b.value| ≤ 1 / 2 ^ max a.precision b.precision := by
  intro h
  obtain ⟨c, hc, herror⟩ := h ⟨12 * 2 ^ 256, 0, 256, .dimensionless⟩ ⟨3 * 2 ^ 256, 0, 256, .dimensionless⟩ rfl rfl
    (by decide)
  have hquotient : c = ⟨4 * 2 ^ 256 - 4, 0, 256, .dimensionless⟩ := by
    have hdiv : Bignum.div ⟨12 * 2 ^ 256, 0, 256, .dimensionless⟩ ⟨3 * 2 ^ 256, 0, 256, .dimensionless⟩ =
        .ok ⟨4 * 2 ^ 256 - 4, 0, 256, .dimensionless⟩ := by decide +kernel
    exact Except.ok.inj (hc.symm.trans hdiv)
  subst hquotient
  norm_num [value] at herror

end Reckoner.Bignum
