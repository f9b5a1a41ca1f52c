import Reckoner.Dimension
import Reckoner.Proofs.Binary64

/-! Powers of dimensions with whole exponents: the exponent of each base quantity is multiplied, with wrap-around, and
no rounding on the way shows. -/
namespace Reckoner.Dimension

open Binary64 (hiddenBit parts)

private theorem signed_product {n : Int8} {k : Int} (hn : n.toInt ≠ 0) (hk : k ≠ 0) :
    (if (decide (k < 0) != decide (n < 0)) = true then -((n.toInt * k).natAbs : Int) else ((n.toInt * k).natAbs : Int)) =
      n.toInt * k := by
  have hsign : (decide (k < 0) != decide (n < 0)) = true ↔ n.toInt * k < 0 := by
    have hzero : (0 : Int8).toInt = 0 := rfl
    rw [mul_neg_iff, bne_iff_ne, Ne, decide_eq_decide, Int8.lt_iff_toInt_lt, hzero]
    omega
  rw [ite_cond_congr (propext hsign)]
  split <;> omega

private theorem scaleExponent_of_product {n : Int8} {factor : Float} {negative : Bool} {m : Nat} {e : Int}
    (hparts : parts factor = .finite negative m e) (hm : n.toInt.natAbs * m = 0) : scaleExponent n factor = 0 := by
  rw [scaleExponent, hparts]
  simp only [if_pos hm]

private theorem scaleExponent_of_zero {n : Int8} {k : Int} (hk : k.natAbs < 2 * hiddenBit) (hzero : n.toInt * k = 0) :
    scaleExponent n (Binary64.ofInt k) = 0 := by
  by_cases hk0 : k = 0
  · subst k
    have hparts : parts (Binary64.ofInt 0) = .finite false 0 Binary64.minExponent := by decide
    exact scaleExponent_of_product hparts (Nat.mul_zero _)
  · have hn0 : n.toInt = 0 := (Int.mul_eq_zero.mp hzero).resolve_right hk0
    exact scaleExponent_of_product (Binary64.parts_ofInt hk0 hk) (by rw [hn0, Int.natAbs_zero, Nat.zero_mul])

/-- A mantissa with the point in front of its last digits. -/
private theorem shiftRatio_point {L : Nat} (hL : L < 53) (m : Nat) :
    Binary64.shiftRatio m 1 (-((L : Int) - 52)) = (m, 2 ^ (52 - L)) := by
  rw [Binary64.shiftRatio, if_neg (by omega), Nat.shiftLeft_eq, Nat.one_mul,
    show (-((L : Int) - 52)).natAbs = 52 - L by omega]

private theorem scaleExponent_of_ne_zero {n : Int8} {k : Int} (hk : k.natAbs < 2 * hiddenBit)
    (hsmall : (n.toInt * k).natAbs < 2 * hiddenBit) (hn0 : n.toInt ≠ 0) (hk0 : k ≠ 0) :
    scaleExponent n (Binary64.ofInt k) = Int8.ofInt (n.toInt * k) := by
  have hpos : 0 < (n.toInt * k).natAbs := Int.natAbs_pos.mpr (Int.mul_ne_zero hn0 hk0)
  have hlog : k.natAbs.log2 < 53 := (Nat.log2_lt (by omega)).mpr hk
  have hlog' : (n.toInt * k).natAbs.log2 < 53 := (Nat.log2_lt (by omega)).mpr hsmall
  have hround := Binary64.roundRatio_whole hpos hsmall (52 - k.natAbs.log2)
  have hproduct : n.toInt.natAbs * (k.natAbs * 2 ^ (52 - k.natAbs.log2)) =
      (n.toInt * k).natAbs * 2 ^ (52 - k.natAbs.log2) := by
    rw [Int.natAbs_mul, Nat.mul_assoc]
  have hne : ¬(n.toInt * k).natAbs * 2 ^ (52 - k.natAbs.log2) = 0 := (Nat.mul_pos hpos (Nat.two_pow_pos _)).ne'
  rw [scaleExponent, Binary64.parts_ofInt hk0 hk]
  simp only [hproduct, if_neg hne, shiftRatio_point hlog, hround, shiftRatio_point hlog',
    Nat.mul_div_cancel _ (Nat.two_pow_pos _)]
  rw [signed_product hn0 hk0, clampToWord]
  congr 1
  rw [hiddenBit] at hsmall
  omega

/-- Scaling by a whole number of less than 47 binary digits is the product of the words. -/
private theorem scaleExponent_ofInt (n : Int8) {k : Int} (hk : k.natAbs < 0x400000000000) :
    scaleExponent n (Binary64.ofInt k) = n * Int8.ofInt k := by
  have hn : n.toInt.natAbs ≤ 128 := by
    have hlow := n.le_toInt
    have hhigh := n.toInt_lt
    omega
  have hproduct : n * Int8.ofInt k = Int8.ofInt (n.toInt * k) := by rw [Int8.ofInt_mul, Int8.ofInt_toInt]
  have hsmall : (n.toInt * k).natAbs < 2 * hiddenBit := by
    have hle := Nat.mul_le_mul hn (Nat.le_sub_one_of_lt hk)
    rw [Int.natAbs_mul, hiddenBit]
    omega
  have hfits : k.natAbs < 2 * hiddenBit := by
    rw [hiddenBit]
    omega
  rw [hproduct]
  by_cases hzero : n.toInt * k = 0
  · rw [scaleExponent_of_zero hfits hzero, hzero]
    rfl
  · obtain ⟨hn0, hk0⟩ := Int.mul_ne_zero_iff.mp hzero
    exact scaleExponent_of_ne_zero hfits hsmall hn0 hk0

def scaled (d : Dimension) (k : Int) : Dimension := ofExponents fun q => d.exponent q * Int8.ofInt k

theorem power_ofInt (d : Dimension) {k : Int} (hk : k.natAbs < 0x400000000000) :
    d.power (Binary64.ofInt k) = d.scaled k :=
  congrArg ofExponents (funext fun q => scaleExponent_ofInt (d.exponent q) hk)

end Reckoner.Dimension
