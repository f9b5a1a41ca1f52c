import Reckoner.Proofs.Differentiation.Rational
import Reckoner.Value

/-! Trees of arguments, literals and the operations of arithmetic, read over exact numbers: over the rationals, and
over the dual numbers to find how a value moves with the first argument. -/
namespace Reckoner.Tree

structure Reading (R : Type) where
  /-- What a literal stands for. -/
  ofRational : Rat → R
  /-- The inverse of a number that has one. -/
  inverse? : R → Option R
  arguments : List R

namespace Reading
variable {R : Type} [CommRing R]

def rational (args : List Rat) : Reading Rat where
  ofRational q := q
  inverse? q := if q = 0 then none else some q⁻¹
  arguments := args

def dual (args : List Rat) : Reading (DualNumber Rat) where
  ofRational := TrivSqZeroExt.inl
  inverse? z := if z.fst = 0 then none else some z⁻¹
  arguments := args.mapIdx fun i q => if i = 0 then TrivSqZeroExt.inl q + DualNumber.eps else TrivSqZeroExt.inl q

def power? (ρ : Reading R) (r : R) : Int → Option R
  | .ofNat n => some (r ^ n)
  | .negSucc n => (ρ.inverse? r).map (· ^ (n + 1))

variable {args : List Rat} {r s v : Rat} {k : Int}

theorem inverse?_rational : (rational args).inverse? r = some s ↔ r ≠ 0 ∧ r⁻¹ = s := by
  show (if r = 0 then none else some r⁻¹) = some s ↔ _
  split <;> simp_all

theorem power?_rational : (rational args).power? r k = some v ↔ (0 ≤ k ∨ r ≠ 0) ∧ r ^ k = v := by
  cases k with
  | ofNat n => simp [power?]
  | negSucc n =>
    rw [power?, Option.map_eq_some_iff, zpow_negSucc, ← inv_pow]
    simp only [inverse?_rational]
    constructor
    · rintro ⟨_, ⟨hr, rfl⟩, hv⟩
      exact ⟨.inr hr, hv⟩
    · rintro ⟨hk, hv⟩
      exact ⟨r⁻¹, ⟨hk.resolve_left (by omega), rfl⟩, hv⟩

theorem power?_dual (args : List Rat) {z : DualNumber Rat} (hk : 0 ≤ k ∨ z.fst ≠ 0) :
    ∃ w, (dual args).power? z k = some w ∧ w.fst = z.fst ^ k ∧ w.snd = k * z.fst ^ (k - 1) * z.snd := by
  cases k with
  | ofNat n =>
    refine ⟨z ^ n, rfl, ?_, ?_⟩
    · rw [TrivSqZeroExt.fst_pow, Int.ofNat_eq_natCast, zpow_natCast]
    · rw [TrivSqZeroExt.snd_pow]
      cases n with
      | zero => simp
      | succ n =>
        have hexponent : Int.ofNat (n + 1) - 1 = n := Int.add_sub_cancel n 1
        rw [hexponent, zpow_natCast]
        simp [mul_assoc]
  | negSucc n =>
    have hz := hk.resolve_left (by omega)
    have hinverse : (dual args).inverse? z = some z⁻¹ := if_neg hz
    have hexponent : Int.negSucc n - 1 = -((n + 2 : Nat) : Int) := by omega
    refine ⟨z⁻¹ ^ (n + 1), by rw [power?, hinverse, Option.map_some], ?_, ?_⟩
    · rw [TrivSqZeroExt.fst_pow, TrivSqZeroExt.fst_inv, zpow_negSucc, inv_pow]
    · rw [TrivSqZeroExt.snd_pow, hexponent, zpow_neg, zpow_natCast, TrivSqZeroExt.snd_inv, TrivSqZeroExt.fst_inv]
      simp
      field_simp
      ring

/-- The quotient rule. -/
theorem snd_mul_inv (z : DualNumber Rat) {w : DualNumber Rat} (hw : w.fst ≠ 0) :
    (z * w⁻¹).snd = (z.snd * w.fst - z.fst * w.snd) / w.fst ^ (2 : Int) := by
  rw [TrivSqZeroExt.snd_mul, TrivSqZeroExt.snd_inv, TrivSqZeroExt.fst_inv]
  simp
  field_simp
  ring

end Reading

variable {R : Type} [CommRing R]

def integer? (t : Tree) : Option Int := t.number?.bind Number.integer?

/-- The value of a tree of rational operations; others have none, and neither have divisions by zero. -/
def value? (ρ : Reading R) : Tree → Option R
  | literal (.number n) => n.rational?.map ρ.ofRational
  | argument index => ρ.arguments[index]?
  | builtin .negate [a] => return -(← a.value? ρ)
  | builtin .add [a, b] => return (← a.value? ρ) + (← b.value? ρ)
  | builtin .sub [a, b] => return (← a.value? ρ) - (← b.value? ρ)
  | builtin .mul [a, b] => return (← a.value? ρ) * (← b.value? ρ)
  | builtin .div [a, b] => return (← a.value? ρ) * (← ρ.inverse? (← b.value? ρ))
  | builtin .pow [a, b] => do ρ.power? (← a.value? ρ) (← b.integer?)
  | _ => none

variable {args : List Rat} {t : Tree} {n : Number} {k : Int}

theorem number?_eq_some : t.number? = some n ↔ t = .number n := by
  constructor
  · intro h
    unfold number? at h
    split at h
    · rw [Option.some.inj h]
      rfl
    · cases h
  · rintro rfl
    rfl

theorem value?_number (n : Number) : (Tree.number n).value? (.rational args) = n.rational? := by
  rw [Tree.number, value?]
  exact Option.map_id'

theorem integer?_eq_some (h : t.integer? = some k) : ∃ n, t = .number n ∧ n.rational? = some (k : Rat) := by
  obtain ⟨n, hn, hk⟩ := Option.bind_eq_some_iff.mp h
  exact ⟨n, number?_eq_some.mp hn, Number.integer?_eq_some.mp hk⟩

end Reckoner.Tree
