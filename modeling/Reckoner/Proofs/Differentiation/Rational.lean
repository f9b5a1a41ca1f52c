import Reckoner.Number
import Reckoner.Proofs.Binary64.Rational

/-! Numbers as rationals: a plain real number is one. -/
namespace Reckoner.Number

def rational? (n : Number) : Option Rat :=
  if n.isReal && n.dimension.isDimensionless then Binary64.rational? n.re else none

def integer? (n : Number) : Option Int := n.rational?.bind fun q => if q.den = 1 then some q.num else none

variable {n : Number}

theorem integer?_eq_some {k : Int} : n.integer? = some k ↔ n.rational? = some (k : Rat) := by
  rw [integer?, Option.bind_eq_some_iff]
  constructor
  · rintro ⟨q, hq, hwhole⟩
    split at hwhole
    · rename_i hden
      rw [hq, ← Option.some.inj hwhole, Rat.coe_int_num_of_den_eq_one hden]
    · cases hwhole
  · intro h
    exact ⟨k, h, by simp⟩

theorem rational?_real (x : Float) : (real x).rational? = Binary64.rational? x := by
  have hreal : (real x).isReal = true := Binary64.rational?_eq_zero.mp Binary64.rational?_zero
  have hplain : (real x).dimension.isDimensionless = true := beq_self_eq_true _
  rw [rational?, hreal, hplain]
  rfl

theorem dimension_eq {q : Rat} (h : n.rational? = some q) : n.dimension = .dimensionless := by
  rw [rational?] at h
  split at h
  · rename_i hplain
    exact beq_iff_eq.mp (Bool.and_eq_true_iff.mp hplain).2
  · cases h

private theorem isReal_neg (n : Number) : (-n).isReal = n.isReal := by
  have hzero : Binary64.rational? (-n.im) = some 0 ↔ Binary64.rational? n.im = some 0 := by
    rw [Binary64.rational?_neg, Option.map_eq_some_iff]
    constructor
    · rintro ⟨q, hq, hneg⟩
      rw [hq, neg_eq_zero.mp hneg]
    · intro h
      exact ⟨0, h, neg_zero⟩
  rw [Binary64.rational?_eq_zero, Binary64.rational?_eq_zero] at hzero
  exact Bool.eq_iff_iff.mpr hzero

theorem rational?_neg (n : Number) : (-n).rational? = n.rational?.map (-·) := by
  have hre : (-n).re = -n.re := rfl
  have hdimension : (-n).dimension = n.dimension := rfl
  rw [rational?, rational?, isReal_neg, hdimension, hre, Binary64.rational?_neg]
  split <;> rfl

theorem rational?_eq_zero : n.rational? = some 0 ↔ (n.isZero && n.dimension.isDimensionless) = true := by
  rw [rational?, Complex.isZero, Complex.isReal]
  constructor
  · intro h
    split at h
    · rename_i hplain
      obtain ⟨hreal, hplain⟩ := Bool.and_eq_true_iff.mp hplain
      simp [Binary64.rational?_eq_zero.mp h, hreal, hplain]
    · cases h
  · intro h
    simp only [Bool.and_eq_true] at h
    obtain ⟨⟨hre, hreal⟩, hplain⟩ := h
    simp [hreal, hplain, Binary64.rational?_eq_zero.mpr hre]

theorem rational?_eq_one (h : n.eqv one = true) : n.rational? = some 1 := by
  simp only [eqv, Bool.and_eq_true, beq_iff_eq] at h
  obtain ⟨⟨hre, him⟩, hdimension⟩ := h
  have hreal : n.isReal = true := him
  have hplain : n.dimension.isDimensionless = true := by
    rw [hdimension]
    exact beq_self_eq_true _
  rw [rational?, hreal, hplain]
  exact (Binary64.rational?_eq_of_beq hre).trans Binary64.rational?_one

end Reckoner.Number
