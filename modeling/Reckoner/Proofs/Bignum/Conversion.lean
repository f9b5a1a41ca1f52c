import Reckoner.Proofs.Bignum.Rounding
import Reckoner.Proofs.Binary64.Scaling

/-! Bignums as binary64 numbers. The 64 leading bits of the stored integer are taken, rounded down, and what they stand
for is rounded to nearest. A stored integer of at most 64 bits is so rounded once; a longer one may be rounded twice, and
then the result is off by a little more than half of its last bit. -/
namespace Reckoner.Bignum

open Binary64 (IsTwoPow mantissa ofDyadic ofInt pack powInt rational?)

/-- How many bits of a stored integer stand behind the 64 leading ones. -/
def excess (value : Int) : Nat := (if value = 0 then 0 else value.natAbs.log2 + 1) - 64

def leading (value : Int) : Int := value >>> excess value

private theorem fixedToFloat_eq (p : Nat) (value : Int) :
    fixedToFloat p value = ofInt (leading value) * powInt 2 ((excess value : Int) - p) := rfl

section
variable {value : Int} {p : Nat}

private theorem excess_of_ne_zero (h : value ≠ 0) :
    excess value = value.natAbs.log2 + 1 - 64 := by rw [excess, if_neg h]

private theorem leading_of_excess (h : excess value = 0) :
    leading value = value := by rw [leading, h, Int.shiftRight_zero]

private theorem le_leading_iff (c : Int) : c ≤ leading value ↔ c * 2 ^ excess value ≤ value := by
  rw [leading, shiftRight_eq]
  exact Int.le_ediv_iff_mul_le (by positivity)

private theorem leading_le {c : Int} (h : value ≤ c * 2 ^ excess value) : leading value ≤ c := by
  rw [leading, shiftRight_eq]
  exact Int.ediv_le_of_le_mul (by positivity) h

private theorem leading_neg_iff : leading value < 0 ↔ value < 0 := by
  rw [← not_le, ← not_le, le_leading_iff, Int.zero_mul]

/-- The leading bits are as many as they should be, or rounding down takes a negative integer to a power of two. -/
private theorem leading_bounds (h : value ≠ 0) {k : Nat} (hk : value.natAbs.log2 = k + excess value) :
    2 ^ k ≤ (leading value).natAbs ∧ (leading value).natAbs ≤ 2 ^ (k + 1) := by
  have hlow : 2 ^ k * 2 ^ excess value ≤ value.natAbs := by
    rw [← Nat.pow_add, ← hk]
    exact Nat.log2_self_le (Int.natAbs_ne_zero.mpr h)
  have hhigh : value.natAbs < 2 ^ (k + 1) * 2 ^ excess value := by
    rw [← Nat.pow_add, Nat.add_right_comm, ← hk]
    exact Nat.lt_log2_self
  zify at hlow hhigh ⊢
  rcases lt_or_gt_of_ne h with hneg | hpos
  · have hleading := leading_neg_iff.mpr hneg
    rw [abs_of_neg hneg] at hlow hhigh
    rw [abs_of_neg hleading]
    have hle : leading value ≤ -2 ^ k := leading_le (by linarith)
    have hge : -2 ^ (k + 1) ≤ leading value := (le_leading_iff _).mpr (by linarith)
    constructor <;> linarith
  · have hleading : 0 ≤ leading value := not_lt.mp (mt leading_neg_iff.mp (not_lt.mpr hpos.le))
    rw [abs_of_pos hpos] at hlow hhigh
    rw [abs_of_nonneg hleading]
    exact ⟨(le_leading_iff _).mpr hlow, leading_le hhigh.le⟩

private theorem leading_ne_zero (h : value ≠ 0) : leading value ≠ 0 := by
  have hk : value.natAbs.log2 = value.natAbs.log2 - excess value + excess value := by
    rw [excess_of_ne_zero h]
    omega
  have hpos := Nat.two_pow_pos (value.natAbs.log2 - excess value)
  have hlow := (leading_bounds h hk).1
  omega

private theorem log2_leading (h : value ≠ 0) {k : Nat} (hk : value.natAbs.log2 = k + excess value) :
    (leading value).natAbs.log2 = k ∨ (leading value).natAbs = 2 ^ (k + 1) := by
  obtain ⟨hlow, hhigh⟩ := leading_bounds h hk
  rcases Nat.lt_or_eq_of_le hhigh with hlt | heq
  · exact .inl ((Nat.log2_eq_iff (Int.natAbs_ne_zero.mpr (leading_ne_zero h))).mpr ⟨hlow, hlt⟩)
  · exact .inr heq

private theorem log2_leading_le (h : value ≠ 0) {k : Nat} (hk : value.natAbs.log2 = k + excess value) :
    (leading value).natAbs.log2 ≤ k + 1 := by
  rcases log2_leading h hk with hlog | htwo
  · omega
  · rw [htwo, Nat.log2_two_pow]

/-- A bignum within the range of full mantissas is converted to the binary64 number nearest to its leading bits. -/
private theorem fixedToFloat_eq_ofDyadic (h : value ≠ 0) (hscale : p ≤ excess value + 1022)
    (hsize : value.natAbs.log2 + 1 ≤ p + 1022) :
    fixedToFloat p value = ofDyadic (value < 0) (leading value).natAbs ((excess value : Int) - p) := by
  obtain ⟨k, hk⟩ : ∃ k, value.natAbs.log2 = k + excess value :=
    ⟨value.natAbs.log2 - excess value, by rw [excess_of_ne_zero h]; omega⟩
  have hexcess := excess_of_ne_zero h
  have hlog := log2_leading_le h hk
  have hpower : IsTwoPow (powInt 2 ((excess value : Int) - p)) ((excess value : Int) - p) :=
    Binary64.powInt_twoPow (by omega) (by omega)
  rw [fixedToFloat_eq, Binary64.ofInt_mul_twoPow (leading_ne_zero h) (by omega) hpower (by omega) (by omega)]
  simp only [leading_neg_iff]

/-- When nothing is lost behind the leading bits, a bignum is converted to the nearest binary64 number. -/
private theorem fixedToFloat_nearest (h : value ≠ 0) (hwhole : 2 ^ excess value ∣ value)
    (hscale : p ≤ excess value + 1022)
    (hsize : value.natAbs.log2 + 1 ≤ p + 1022) : fixedToFloat p value = ofDyadic (value < 0) value.natAbs (-p) := by
  have hpos : 0 < (leading value).natAbs := Int.natAbs_pos.mpr (leading_ne_zero h)
  have hsplit : value.natAbs = (leading value).natAbs * 2 ^ excess value := by
    have hproduct : leading value * 2 ^ excess value = value := by
      rw [leading, shiftRight_eq, Int.ediv_mul_cancel hwhole]
    conv_lhs => rw [← hproduct]
    rw [Int.natAbs_mul, Int.natAbs_pow]
    rfl
  rw [fixedToFloat_eq_ofDyadic h hscale hsize, hsplit, Binary64.ofDyadic_mul_two_pow _ hpos _ (by omega)]
  congr 1
  omega

private theorem excess_neg (value : Int) :
    excess (-value) = excess value := by simp only [excess, Int.neg_eq_zero, Int.natAbs_neg]

/-- When nothing is lost behind the leading bits, a bignum and its negative are converted to a number and its
negative. -/
theorem fixedToFloat_neg (h : value ≠ 0) (hwhole : 2 ^ excess value ∣ value) (hscale : p ≤ excess value + 1022)
    (hsize : value.natAbs.log2 + 1 ≤ p + 1022) : fixedToFloat p (-value) = -fixedToFloat p value := by
  have hpos : 0 < value.natAbs := Int.natAbs_pos.mpr h
  have hexcess := excess_of_ne_zero h
  have hnegative := fixedToFloat_nearest (p := p) (neg_ne_zero.mpr h)
    (by rw [excess_neg]; exact Int.dvd_neg.mpr hwhole) (by rwa [excess_neg]) (by rwa [Int.natAbs_neg])
  have hsign : decide (-value < 0) = !decide (value < 0) := by
    rw [← decide_not]
    exact decide_eq_decide.mpr (by omega)
  rw [hnegative, hsign, Int.natAbs_neg, fixedToFloat_nearest h hwhole hscale hsize]
  exact Binary64.ofDyadic_not _ hpos (by omega) (by omega)

/-- A bit behind the leading ones is lost, and what is left is a tie that is rounded down. -/
example : fixedToFloat 0 36893488147419107329 = ofDyadic false 36893488147419103232 0 ∧
    ofDyadic false 36893488147419107329 0 = ofDyadic false 36893488147419111424 0 := by
  refine ⟨?_, rfl⟩
  rw [fixedToFloat_eq_ofDyadic (by decide) (by decide) (by decide)]
  rfl

/-- What is lost behind the leading bits is little against their last bit that a mantissa keeps. -/
private theorem abs_leading_sub_le (h : value ≠ 0) {k : Nat} (hk : value.natAbs.log2 = k + excess value) :
    |(leading value : Rat) - value / 2 ^ excess value| ≤ 1 / 2048 * 2 ^ ((k : Int) - 52) := by
  by_cases hexcess : excess value = 0
  · rw [leading_of_excess hexcess, hexcess, pow_zero, div_one, sub_self, abs_zero]
    positivity
  · have hfull : k = 63 := by
      have hvalue := excess_of_ne_zero h
      omega
    have hbit : (1 : Rat) = 1 / 2048 * 2 ^ ((k : Int) - 52) := by
      rw [hfull]
      norm_num
    exact hbit ▸ (abs_shiftRight_sub_lt value (excess value)).le

/-- The mantissa of the leading bits. -/
private theorem abs_mantissa_leading_sub_le (h : value ≠ 0) {k : Nat} (hk : value.natAbs.log2 = k + excess value) :
    |(mantissa (leading value).natAbs : Rat) * 2 ^ (((leading value).natAbs.log2 : Int) - 52) - (leading value).natAbs| ≤
      1 / 2 * 2 ^ ((k : Int) - 52) := by
  rcases log2_leading h hk with hlog | htwo
  · rw [← hlog]
    exact Binary64.abs_mantissa_sub_le _
  · -- a power of two is exact
    have hexact : ((2 ^ 52 : Nat) : Rat) * 2 ^ (((k + 1 : Nat) : Int) - 52) = (2 ^ (k + 1) : Nat) := by
      rw [zpow_sub₀ two_ne_zero, zpow_natCast]
      push_cast
      field_simp
    rw [htwo, Binary64.mantissa_two_pow, Nat.log2_two_pow, hexact, sub_self, abs_zero]
    positivity

/-- The distance of two numbers with one sign is that of their magnitudes. -/
private theorem abs_signed_sub {i j : Int} (hsign : j < 0 ↔ i < 0) (m : Nat) (w : Rat) :
    |((if j < 0 then -m else m : Int) : Rat) * w - i| = |m * w - i.natAbs| := by
  rw [Nat.cast_natAbs]
  by_cases hneg : i < 0
  · rw [if_pos (hsign.mpr hneg), abs_of_neg hneg, ← abs_neg]
    push_cast
    congr 1
    ring
  · rw [if_neg (mt hsign.mp hneg), abs_of_nonneg (not_lt.mp hneg)]
    push_cast
    rfl

/-- The mantissa of the leading bits is what a bignum is converted to, scaled. -/
private theorem rational?_fixedToFloat (h : value ≠ 0) (hscale : p ≤ excess value + 1022)
    (hsize : value.natAbs.log2 + 1 ≤ p + 1022) :
    rational? (fixedToFloat p value) = some (((if value < 0 then -mantissa (leading value).natAbs
      else mantissa (leading value).natAbs : Int) : Rat) *
        (2 ^ (((leading value).natAbs.log2 : Int) - 52) * 2 ^ ((excess value : Int) - p))) := by
  obtain ⟨k, hk⟩ : ∃ k, value.natAbs.log2 = k + excess value :=
    ⟨value.natAbs.log2 - excess value, by rw [excess_of_ne_zero h]; omega⟩
  have hexcess := excess_of_ne_zero h
  have hlog := log2_leading_le h hk
  have hlow := (leading_bounds h hk).1
  have hpos : 0 < (leading value).natAbs := Int.natAbs_pos.mpr (leading_ne_zero h)
  have hleading : k ≤ (leading value).natAbs.log2 := (Nat.le_log2 hpos.ne').mpr hlow
  obtain ⟨hmlow, hmhigh⟩ := Binary64.mantissa_bounds hpos
  rw [fixedToFloat_eq_ofDyadic h hscale hsize, Binary64.ofDyadic_eq_pack _ hpos (by omega),
    Binary64.rational?_pack _ hmlow hmhigh (by rw [Binary64.minExponent]; omega) (by omega), zpow_add₀ two_ne_zero]
  simp only [decide_eq_true_eq]

/-- A converted bignum is off by at most half of its last bit and a 2048th of it. -/
theorem toNumber_error {x : Bignum} (h : x.re ≠ 0) (hscale : x.precision ≤ excess x.re + 1022)
    (hsize : x.re.natAbs.log2 + 1 ≤ x.precision + 1022) :
    ∃ q, rational? x.toNumber.re = some q ∧
      |q - x.value| ≤ (1 / 2 + 1 / 2048) * 2 ^ ((x.re.natAbs.log2 : Int) - 52 - x.precision) := by
  obtain ⟨k, hk⟩ : ∃ k, x.re.natAbs.log2 = k + excess x.re :=
    ⟨x.re.natAbs.log2 - excess x.re, by rw [excess_of_ne_zero h]; omega⟩
  have hnumber : x.toNumber.re = fixedToFloat x.precision x.re := rfl
  refine ⟨_, hnumber ▸ rational?_fixedToFloat h hscale hsize, ?_⟩
  generalize hscaled : (2 : Rat) ^ ((excess x.re : Int) - x.precision) = unit
  have hunit : 0 < unit := by
    rw [← hscaled]
    positivity
  have hvalue : x.value = x.re / 2 ^ excess x.re * unit := by
    rw [← hscaled, zpow_sub₀ two_ne_zero, zpow_natCast, zpow_natCast, value]
    field_simp
  have hlast : (2 : Rat) ^ ((x.re.natAbs.log2 : Int) - 52 - x.precision) = 2 ^ ((k : Int) - 52) * unit := by
    rw [← hscaled, ← zpow_add₀ two_ne_zero, hk]
    congr 1
    omega
  have hmantissa := abs_mantissa_leading_sub_le h hk
  rw [← abs_signed_sub leading_neg_iff.symm] at hmantissa
  have htriangle := (abs_sub_le _ _ _).trans (add_le_add hmantissa (abs_leading_sub_le h hk))
  rw [hvalue, hlast, ← mul_assoc, ← sub_mul, abs_mul, abs_of_pos hunit, ← mul_assoc]
  refine mul_le_mul_of_nonneg_right (htriangle.trans_eq ?_) hunit.le
  ring

end
end Reckoner.Bignum
