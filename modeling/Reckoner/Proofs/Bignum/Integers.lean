import Reckoner.Bignum
import Reckoner.Proofs.Dimension

/-! Bignums that stand for Gaussian integers. Sums, products and powers of these are exact: a product of two multiples
of `2 ^ p` is one of `2 ^ (2 * p)`, and the shift that follows drops zeros only. -/
namespace Reckoner.Bignum

def ofGaussian (precision : Nat) (d : Dimension) (z : GaussianInt) : Bignum :=
  ⟨z.re * 2 ^ precision, z.im * 2 ^ precision, precision, d⟩

variable {p q : Nat} {d e : Dimension} {z w : GaussianInt} {x product : Bignum}

@[simp] theorem ofGaussian_re : (ofGaussian p d z).re = z.re * 2 ^ p := rfl

@[simp] theorem ofGaussian_im : (ofGaussian p d z).im = z.im * 2 ^ p := rfl

@[simp] theorem ofGaussian_precision : (ofGaussian p d z).precision = p := rfl

@[simp] theorem ofGaussian_dimension : (ofGaussian p d z).dimension = d := rfl

private theorem rescaled_ofGaussian (n : Int) (h : p ≤ q) : (ofGaussian p d z).rescaled (n * 2 ^ p) q = n * 2 ^ q := by
  rw [rescaled, Nat.shiftLeft_eq, Nat.one_mul, Nat.cast_pow, Int.mul_assoc]
  exact congrArg (n * ·) (by rw [Nat.cast_ofNat, ← pow_add, ofGaussian, Nat.add_sub_cancel' h])

private theorem shiftRight_exact (n : Int) (p : Nat) : (n * 2 ^ p * 2 ^ p) >>> p = n * 2 ^ p := by
  rw [Int.shiftRight_eq_div_pow, Nat.cast_pow, Nat.cast_ofNat]
  exact Int.mul_ediv_cancel _ (by positivity)

/-! ### One operation -/

private theorem neg_ofGaussian : (ofGaussian p d z).neg = ofGaussian p d (-z) := by
  simp only [neg, ofGaussian, Zsqrtd.re_neg, Zsqrtd.im_neg, Int.neg_mul]

private theorem sum_ofGaussian (operation : Aligned) (p q : Nat) (d e : Dimension) (z w : GaussianInt)
    (right : Bignum) :
    sum operation (ofGaussian p d z) (ofGaussian q e w) right =
      (d.additive? e).elim (.error (.dimensionMismatch operation d right.dimension)) fun u =>
        .ok (ofGaussian (max p q) u (z + w)) := by
  have hp (n : Int) := rescaled_ofGaussian (d := d) (z := z) n (le_max_left p q)
  have hq (n : Int) := rescaled_ofGaussian (d := e) (z := w) n (le_max_right p q)
  rw [sum, ofGaussian_dimension, ofGaussian_dimension]
  cases d.additive? e with
  | none => rfl
  | some u =>
    simp only [Option.elim_some, ofGaussian_re, ofGaussian_im, ofGaussian_precision, hp, hq]
    rw [ofGaussian, Zsqrtd.re_add, Zsqrtd.im_add, Int.add_mul, Int.add_mul]

private theorem mul_ofGaussian (p q : Nat) (d e : Dimension) (z w : GaussianInt) :
    (ofGaussian p d z).mul (ofGaussian q e w) = ofGaussian (max p q) (d * e) (z * w) := by
  have hp (n : Int) := rescaled_ofGaussian (d := d) (z := z) n (le_max_left p q)
  have hq (n : Int) := rescaled_ofGaussian (d := e) (z := w) n (le_max_right p q)
  have hre : z.re * 2 ^ max p q * (w.re * 2 ^ max p q) - z.im * 2 ^ max p q * (w.im * 2 ^ max p q) =
      (z * w).re * 2 ^ max p q * 2 ^ max p q := by
    rw [Zsqrtd.re_mul]
    ring
  have him : z.re * 2 ^ max p q * (w.im * 2 ^ max p q) + z.im * 2 ^ max p q * (w.re * 2 ^ max p q) =
      (z * w).im * 2 ^ max p q * 2 ^ max p q := by
    rw [Zsqrtd.im_mul]
    ring
  simp only [mul, ofGaussian_re, ofGaussian_im, ofGaussian_precision, ofGaussian_dimension, hp, hq, hre, him,
    shiftRight_exact]
  rfl

/-! ### Powers -/

private theorem one_eq_ofGaussian (p : Nat) : one p = ofGaussian p .dimensionless 1 := by
  rw [one, ofGaussian, Nat.shiftLeft_eq, Zsqrtd.re_one, Zsqrtd.im_one]
  simp

/-- What holds of `b` as the `i`-th power of a number and of `c` as its `j`-th power, and then of their product as the
next one, holds of the power that squaring makes. -/
theorem powNat_induction {R : Nat → Bignum → Prop}
    (hmul : ∀ i j b c, 0 < j → R i b → R j c → R (i + j) (b.mul c)) (n : Nat) {i j : Nat} {x product : Bignum}
    (hj : 0 < j) (hx : R j x) (hproduct : R i product) : R (i + j * n) (powNat x n product) := by
  induction n using Nat.strong_induction_on generalizing x product i j with
  | _ n ih =>
    rw [powNat]
    by_cases hn : n = 0
    · rw [if_pos hn, hn, Nat.mul_zero, Nat.add_zero]
      exact hproduct
    · have hdigits : i + j * n = i + j * (n % 2) + j * 2 * (n / 2) := by
        rw [Nat.mul_assoc, Nat.add_assoc, ← Nat.mul_add, Nat.mod_add_div]
      have hlow : R (i + j * (n % 2)) (if n % 2 = 1 then product.mul x else product) := by
        rcases Nat.mod_two_eq_zero_or_one n with hbit | hbit
        · rw [hbit, if_neg (by decide), Nat.mul_zero, Nat.add_zero]
          exact hproduct
        · rw [hbit, if_pos rfl, Nat.mul_one]
          exact hmul i j product x hj hproduct hx
      rw [if_neg hn, hdigits]
      by_cases hlast : n / 2 = 0
      · rw [if_pos hlast, hlast, Nat.mul_zero, powNat, if_pos rfl]
        exact hlow
      · rw [if_neg hlast]
        refine ih (n / 2) (by omega) (by omega) ?_ hlow
        rw [Nat.mul_two]
        exact hmul j j x x hj hx hx

private theorem powNat_ofGaussian (n : Nat) (p : Nat) (d : Dimension) (z : GaussianInt) :
    ∃ u, powNat (ofGaussian p d z) n (one p) = ofGaussian p u (z ^ n) := by
  have hmul (i j : Nat) (b c : Bignum) (_ : 0 < j) (hb : ∃ u, b = ofGaussian p u (z ^ i))
      (hc : ∃ u, c = ofGaussian p u (z ^ j)) : ∃ u, b.mul c = ofGaussian p u (z ^ (i + j)) := by
    obtain ⟨u, rfl⟩ := hb
    obtain ⟨v, rfl⟩ := hc
    exact ⟨u * v, by rw [mul_ofGaussian, max_self, pow_add]⟩
  have hone : ∃ u, one p = ofGaussian p u (z ^ 0) := ⟨.dimensionless, by rw [pow_zero, one_eq_ofGaussian]⟩
  have hself : ∃ u, ofGaussian p d z = ofGaussian p u (z ^ 1) := ⟨d, by rw [pow_one]⟩
  have hpower := powNat_induction hmul n Nat.one_pos hself hone
  rwa [Nat.zero_add, Nat.one_mul] at hpower

private theorem pow_ofGaussian (p : Nat) (d : Dimension) (z : GaussianInt) {n : Nat} (hn : n ≤ maxExponent) :
    (ofGaussian p d z).pow n = .ok (ofGaussian p (d.scaled n) (z ^ n)) := by
  have hsmall : (n : Int).natAbs < 0x400000000000 := by
    rw [maxExponent] at hn
    omega
  have hdimension := d.power_ofInt hsmall
  obtain ⟨u, hpower⟩ := powNat_ofGaussian n p d z
  rw [pow, if_neg (by omega), ofGaussian_precision, Int.natAbs_natCast, hpower, if_neg (by omega)]
  exact congrArg (fun u => Except.ok (ofGaussian p u (z ^ n))) hdimension

/-! ### Computations -/

/-- A computation with integers: each is written at a precision and a dimension of its own. -/
inductive Computation
  | integer (precision : Nat) (dimension : Dimension) (z : GaussianInt)
  | neg (a : Computation)
  | add (a b : Computation)
  | sub (a b : Computation)
  | mul (a b : Computation)
  | pow (a : Computation) (n : Fin (maxExponent + 1))

namespace Computation

def run : Computation → Except RuntimeError Bignum
  | integer p d z => .ok (ofGaussian p d z)
  | neg a => do return (← a.run).neg
  | add a b => do (← a.run).add (← b.run)
  | sub a b => do (← a.run).sub (← b.run)
  | mul a b => do return (← a.run).mul (← b.run)
  | pow a n => do (← a.run).pow (n : Nat)

def exact : Computation → GaussianInt
  | integer _ _ z => z
  | neg a => -a.exact
  | add a b => a.exact + b.exact
  | sub a b => a.exact - b.exact
  | mul a b => a.exact * b.exact
  | pow a n => a.exact ^ (n : Nat)

def precision : Computation → Nat
  | integer p _ _ => p
  | neg a | pow a _ => a.precision
  | add a b | sub a b | mul a b => max a.precision b.precision

/-- The dimension that comes out, if the two sides of each sum are of one dimension or plain numbers. -/
def dimension? : Computation → Option Dimension
  | integer _ d _ => some d
  | neg a => a.dimension?
  | add a b | sub a b => a.dimension?.bind fun d => b.dimension?.bind d.additive?
  | mul a b => a.dimension?.bind fun d => b.dimension?.map (d * ·)
  | pow a n => a.dimension?.map (·.scaled (n : Nat))

private theorem toOption_bind {ε α β : Type} (x : Except ε α) (f : α → Except ε β) :
    (x >>= f).toOption = x.toOption.bind fun a => (f a).toOption := by
  cases x <;> rfl

private theorem toOption_sum (operation : Aligned) (p q : Nat) (d e : Dimension) (z w : GaussianInt) (right : Bignum) :
    (sum operation (ofGaussian p d z) (ofGaussian q e w) right).toOption =
      (d.additive? e).map fun u => ofGaussian (max p q) u (z + w) := by
  rw [sum_ofGaussian]
  cases d.additive? e <;> rfl

/-- A computation on bignums fails only where it adds different dimensions, and what it gives is the Gaussian integer
that it stands for. -/
private theorem run_eq (a : Computation) :
    a.run.toOption = a.dimension?.map fun d => ofGaussian a.precision d a.exact := by
  induction a with
  | integer p d z => rfl
  | neg a ih =>
    rw [run, toOption_bind, ih, dimension?]
    cases a.dimension? with
    | none => rfl
    | some d => exact congrArg some neg_ofGaussian
  | add a b iha ihb =>
    simp only [run, toOption_bind, iha, ihb, dimension?]
    cases a.dimension? <;> cases b.dimension? <;> try rfl
    exact toOption_sum ..
  | sub a b iha ihb =>
    simp only [run, toOption_bind, iha, ihb, dimension?]
    cases a.dimension? <;> cases b.dimension? <;> try rfl
    simp only [Option.map_some, Option.bind_some, Bignum.sub, neg_ofGaussian, toOption_sum]
    rw [← sub_eq_add_neg]
    rfl
  | mul a b iha ihb =>
    simp only [run, toOption_bind, iha, ihb, dimension?]
    cases a.dimension? <;> cases b.dimension? <;> try rfl
    exact congrArg some (mul_ofGaussian ..)
  | pow a n ih =>
    rw [run, toOption_bind, ih, dimension?]
    cases a.dimension? with
    | none => rfl
    | some d => exact congrArg Except.toOption (pow_ofGaussian a.precision d a.exact (Nat.le_of_lt_succ n.isLt))

end Computation

/-- Arithmetic on bignums is exact on integers of any size, in single operations of operands at different precisions
and in whole computations: no order of the operations loses a digit. -/
theorem arithmetic_on_integers :
    (∀ (p q : Nat) (d e : Dimension) (z w : GaussianInt),
      (ofGaussian p d z).add (ofGaussian q e w) =
        (d.additive? e).elim (.error (.dimensionMismatch .add d e)) (fun u => .ok (ofGaussian (max p q) u (z + w))) ∧
      (ofGaussian p d z).sub (ofGaussian q e w) =
        (d.additive? e).elim (.error (.dimensionMismatch .subtract d e))
          (fun u => .ok (ofGaussian (max p q) u (z - w))) ∧
      (ofGaussian p d z).mul (ofGaussian q e w) = ofGaussian (max p q) (d * e) (z * w)) ∧
    (∀ (p : Nat) (d : Dimension) (z : GaussianInt),
      (ofGaussian p d z).neg = ofGaussian p d (-z) ∧
      ∀ n ≤ 65536, (ofGaussian p d z).pow (n : Nat) = .ok (ofGaussian p (d.scaled n) (z ^ n))) ∧
    ∀ a : Computation, a.run.toOption = a.dimension?.map fun d => ofGaussian a.precision d a.exact := by
  refine ⟨fun p q d e z w => ⟨?add, ?sub, mul_ofGaussian p q d e z w⟩, fun p d z => ⟨neg_ofGaussian, ?pow⟩,
    Computation.run_eq⟩
  case add => rw [add, sum_ofGaussian, ofGaussian_dimension]
  case sub => rw [sub, neg_ofGaussian, sum_ofGaussian, ofGaussian_dimension, sub_eq_add_neg]
  case pow =>
    intro n hn
    exact pow_ofGaussian p d z hn

/-- The seventh power of `2 - i`, and a product at two precisions. -/
theorem arithmetic_on_integers_of_small :
    (ofGaussian 4 .dimensionless ⟨2, -1⟩).pow (7 : Nat) = .ok ⟨-278 * 16, 29 * 16, 4, .dimensionless⟩ ∧
      (ofGaussian 2 .dimensionless ⟨-3, 2⟩).mul (ofGaussian 3 .dimensionless ⟨5, -7⟩) =
        ⟨-1 * 8, 31 * 8, 3, .dimensionless⟩ := by
  constructor
  · rw [(arithmetic_on_integers.2.1 4 .dimensionless ⟨2, -1⟩).2 7 (by decide)]
    decide
  · rw [(arithmetic_on_integers.1 2 3 .dimensionless .dimensionless ⟨-3, 2⟩ ⟨5, -7⟩).2.2]
    decide

end Reckoner.Bignum
