import Reckoner.Proofs.Binary64

/-! The rational value of a finite binary64 number. Signs and the tests for zero and one mean there what they say. -/
namespace Reckoner.Binary64

def Parts.rational? : Parts → Option Rat
  | finite negative m e => some ((if negative then -m else m : Int) * 2 ^ e)
  | infinite _ | notANumber => none

def rational? (x : Float) : Option Rat := (parts x).rational?

private theorem Parts.rational?_neg (p : Parts) : p.neg.rational? = p.rational?.map (-·) := by
  cases p with
  | finite negative m e => cases negative <;> simp [neg, rational?]
  | infinite negative => rfl
  | notANumber => rfl

theorem rational?_neg (x : Float) : rational? (-x) = (rational? x).map (-·) := by
  rw [rational?, parts_neg, Parts.rational?_neg]
  rfl

theorem rational?_zero : rational? 0 = some 0 := by
  have hparts : parts 0 = .finite false 0 minExponent := by decide
  rw [rational?, hparts, Parts.rational?]
  simp

/-- Equal numbers have equal values, whatever the sign of a zero. -/
theorem rational?_eq_of_beq {x y : Float} (h : (x == y) = true) : rational? x = rational? y := by
  have hsigns : rational? 0 = rational? (-0) := by
    rw [rational?_neg, rational?_zero, Option.map_some, neg_zero]
  obtain ⟨-, -, rfl | ⟨rfl, rfl⟩ | ⟨rfl, rfl⟩⟩ := Float.beq_iff_ne_nan_and_eq.mp h
  · rfl
  · exact hsigns
  · exact hsigns.symm

theorem rational?_one : rational? 1 = some 1 := by
  have hparts : parts 1 = .finite false hiddenBit (-52) := by decide
  rw [rational?, hparts, Parts.rational?, hiddenBit]
  norm_num

theorem rational?_two : rational? 2 = some 2 := by
  have hparts : parts 2 = .finite false hiddenBit (-51) := by decide
  rw [rational?, hparts, Parts.rational?, hiddenBit]
  norm_num

theorem rational?_eq_zero {x : Float} : rational? x = some 0 ↔ (x == 0) = true := by
  constructor
  · intro h
    rw [rational?, parts_eq] at h
    have hzero : (x == 0) = x.toModel.unpack.beq (.zero .positive) := rfl
    rw [hzero]
    cases hx : x.toModel.unpack with
    | notANumber => simp [hx, Parts.ofUnpacked, Parts.rational?] at h
    | infinity s => simp [hx, Parts.ofUnpacked, Parts.rational?] at h
    | zero s => rfl
    | finite s m e hm =>
      exfalso
      have hscale : (2 : Rat) ^ e ≠ 0 := zpow_ne_zero e (by norm_num)
      rw [hx, Parts.ofUnpacked, Parts.rational?, Option.some.injEq, mul_eq_zero, or_iff_left hscale] at h
      split at h <;> norm_num at h <;> omega
  · intro h
    rw [rational?_eq_of_beq h, rational?_zero]

end Reckoner.Binary64
