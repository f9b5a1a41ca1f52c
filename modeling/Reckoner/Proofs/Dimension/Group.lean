import Reckoner.Proofs.Dimension
import Reckoner.Proofs.Dimension.Word
import Mathlib.Algebra.BigOperators.Group.List.Basic

/-! Dimensions under multiplication and addition. They form an abelian group, whose powers are the powers of dimensions
with whole exponents, and the dimension of a sum hangs neither on the order of the summands nor on how they are
grouped. -/
namespace Reckoner.Dimension

instance : One Dimension := ⟨dimensionless⟩

instance : Inv Dimension := ⟨fun d => dimensionless / d⟩

private theorem inv_eq (d : Dimension) : d⁻¹ = dimensionless / d := rfl

@[simp] theorem exponent_one (q : BaseQuantity) : (1 : Dimension).exponent q = 0 := exponent_dimensionless q

@[simp] theorem exponent_inv (d : Dimension) (q : BaseQuantity) : d⁻¹.exponent q = -d.exponent q := by
  rw [inv_eq, exponent_div, exponent_dimensionless, Int8.zero_sub]

instance : CommGroup Dimension where
  mul_assoc a b c := ext_exponent fun q => by simp only [exponent_mul, Int8.add_assoc]
  one_mul a := ext_exponent fun q => by simp only [exponent_mul, exponent_one, Int8.zero_add]
  mul_one a := ext_exponent fun q => by simp only [exponent_mul, exponent_one, Int8.add_zero]
  mul_comm a b := ext_exponent fun q => by simp only [exponent_mul, Int8.add_comm]
  div_eq_mul_inv a b := ext_exponent fun q => by
    simp only [exponent_mul, exponent_div, exponent_inv, Int8.sub_eq_add_neg]
  inv_mul_cancel a := ext_exponent fun q => by simp only [exponent_mul, exponent_inv, exponent_one, Int8.add_left_neg]

/-- Scaling the exponents by a whole number is the power of the group. -/
private theorem scaled_eq_zpow (d : Dimension) (k : Int) : d.scaled k = d ^ k := by
  have hone : Int8.ofInt 1 = 1 := by decide
  apply ext_exponent
  intro q
  rw [scaled, exponent_ofExponents]
  induction k with
  | zero =>
    rw [zpow_zero, exponent_one]
    exact Int8.mul_zero
  | succ k ih => rw [zpow_add_one, exponent_mul, ← ih, Int8.ofInt_add, Int8.mul_add, hone, Int8.mul_one]
  | pred k ih =>
    rw [zpow_sub_one, exponent_mul, exponent_inv, ← ih, Int8.ofInt_sub, Int8.mul_sub, hone, Int8.mul_one,
      Int8.sub_eq_add_neg]

/-- A power of the group as a product of as many equal factors. -/
private theorem zpow_eq_prod (d : Dimension) (k : Int) :
    d ^ k = (List.replicate k.natAbs (if k < 0 then dimensionless / d else d)).prod := by
  rw [List.prod_replicate]
  split
  · rename_i hk
    obtain ⟨n, rfl⟩ := Int.exists_eq_neg_ofNat (Int.le_of_lt hk)
    rw [Int.natAbs_neg, Int.natAbs_natCast, ← inv_eq, zpow_neg, zpow_natCast, inv_pow]
  · rename_i hk
    obtain ⟨n, rfl⟩ := Int.eq_ofNat_of_zero_le (Int.not_lt.mp hk)
    rw [Int.natAbs_natCast, zpow_natCast]

section
variable {a b : Dimension}

private theorem isDimensionless_iff : a.isDimensionless = true ↔ a = dimensionless := beq_iff_eq

@[simp] theorem additive?_self (a : Dimension) : additive? a a = some a := by rw [additive?, if_pos (.inl rfl)]

@[simp] theorem additive?_dimensionless (a : Dimension) : additive? a dimensionless = some a := by
  rw [additive?, if_pos (.inr (isDimensionless_iff.mpr rfl))]

@[simp] theorem dimensionless_additive? (a : Dimension) : additive? dimensionless a = some a := by
  by_cases ha : dimensionless = a
  · rw [← ha, additive?_self]
  · have hnot : ¬(dimensionless = a ∨ a.isDimensionless = true) := fun h =>
      ha (h.elim id fun h => (isDimensionless_iff.mp h).symm)
    rw [additive?, if_neg hnot, if_pos (isDimensionless_iff.mpr rfl)]

private theorem additive?_eq_none (ha : a ≠ dimensionless) (hb : b ≠ dimensionless) (h : a ≠ b) :
    additive? a b = none := by
  rw [additive?, if_neg (not_or.mpr ⟨h, mt isDimensionless_iff.mp hb⟩), if_neg (mt isDimensionless_iff.mp ha)]

/-- A sum fails exactly when both sides have a dimension and these differ. -/
private theorem additive?_eq_none_iff (a b : Dimension) :
    additive? a b = none ↔ a ≠ dimensionless ∧ b ≠ dimensionless ∧ a ≠ b := by
  refine ⟨fun h => ⟨?_, ?_, ?_⟩, fun ⟨ha, hb, hab⟩ => additive?_eq_none ha hb hab⟩ <;>
  · rintro rfl
    simp at h

private theorem additive?_comm (a b : Dimension) : additive? a b = additive? b a := by
  by_cases ha : a = dimensionless
  · rw [ha, additive?_dimensionless, dimensionless_additive?]
  by_cases hb : b = dimensionless
  · rw [hb, additive?_dimensionless, dimensionless_additive?]
  by_cases hab : a = b
  · rw [hab]
  · rw [additive?_eq_none ha hb hab, additive?_eq_none hb ha (Ne.symm hab)]

/-- A sum of three does not hang on which two come first, and neither does its failure. -/
private theorem additive?_assoc (a b c : Dimension) :
    (additive? a b).bind (additive? · c) = (additive? b c).bind (additive? a ·) := by
  by_cases ha : a = dimensionless
  · simp [ha]
  by_cases hb : b = dimensionless
  · simp [hb]
  by_cases hc : c = dimensionless
  · simp [hc]
  by_cases hab : a = b
  · by_cases hbc : b = c
    · simp [hab, hbc]
    · rw [hab, additive?_self, additive?_eq_none hb hc hbc]
      exact additive?_eq_none hb hc hbc
  · by_cases hbc : b = c
    · rw [← hbc, additive?_self, additive?_eq_none ha hb hab]
      exact (additive?_eq_none ha hb hab).symm
    · rw [additive?_eq_none ha hb hab, additive?_eq_none hb hc hbc]
      rfl

end

/-- Dimensions are kept in words without loss, form an abelian group under the product, and have its powers for whole
exponents of up to 45 binary digits. Dimensions of sums are coherent: they can be taken in any order, and there is none
exactly for two different dimensions. -/
theorem arithmetic_laws (a b c : Dimension) (f : BaseQuantity → Int8) (w : UInt64) {n : Int}
    (hn : n.natAbs ≤ 0x200000000000) :
    (ofExponents a.exponent = a ∧ (ofExponents f).exponent = f ∧ ofWord a.word = a ∧ (ofWord w).word = w) ∧
    (a * b * c = a * (b * c) ∧ a * b = b * a ∧ dimensionless * a = a ∧ a / b * b = a ∧
      a * (dimensionless / a) = dimensionless) ∧
    a.power (Binary64.ofInt n) = (List.replicate n.natAbs (if n < 0 then dimensionless / a else a)).prod ∧
    (additive? a b = additive? b a ∧
      (additive? a b).bind (additive? · c) = (additive? b c).bind (additive? a ·) ∧
      additive? a dimensionless = some a ∧
      (additive? a b = none ↔ a ≠ dimensionless ∧ b ≠ dimensionless ∧ a ≠ b)) := by
  refine ⟨⟨ofExponents_exponent a, exponent_ofExponents f, ofWord_word a, word_ofWord w⟩, ?_, ?_, ?_⟩
  · exact ⟨mul_assoc a b c, mul_comm a b, one_mul a, div_mul_cancel a b, mul_inv_cancel a⟩
  · rw [power_ofInt a (by omega), scaled_eq_zpow, zpow_eq_prod]
  · exact ⟨additive?_comm a b, additive?_assoc a b c, additive?_dimensionless a, additive?_eq_none_iff a b⟩

/-- The inverse of a third power, with exponents that wrap around. -/
theorem arithmetic_laws_of_wrapping :
    (-3 : Int).natAbs ≤ 0x200000000000 ∧
      (⟨100, -128, 1, 0, 0, 0, 0, 0⟩ : Dimension).power (Binary64.ofInt (-3)) = ⟨-44, -128, -3, 0, 0, 0, 0, 0⟩ := by
  have hn : (-3 : Int).natAbs ≤ 0x200000000000 := by decide
  have hlaws := arithmetic_laws ⟨100, -128, 1, 0, 0, 0, 0, 0⟩ dimensionless dimensionless (fun _ => 0) 0 hn
  exact ⟨hn, hlaws.2.2.1.trans (by decide)⟩

end Reckoner.Dimension
