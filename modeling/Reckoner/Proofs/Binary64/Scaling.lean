import Reckoner.Binary64.Arithmetic
import Reckoner.Proofs.Binary64.Rational

/-! Binary64 numbers times powers of two. The mantissa stays as it is, and the exponents are added, as long as the result
has a full mantissa and is not too large; so the powers of two themselves are exact in that range. -/
namespace Reckoner.Binary64

open Float.Model Float.Model.UnpackedFloat

private theorem Parts.ofUnpacked_inj {u v : UnpackedFloat} (h : ofUnpacked u = ofUnpacked v) : u = v := by
  have hsign {s t : Sign} (h : (s == Sign.negative) = (t == Sign.negative)) : s = t := by
    cases s <;> cases t <;> first | rfl | cases h
  cases u <;> cases v <;> simp only [ofUnpacked, reduceCtorEq, infinite.injEq, finite.injEq] at h
  case infinity.infinity => rw [hsign h]
  case notANumber.notANumber => rfl
  case zero.zero => rw [hsign h.1]
  case zero.finite hpos => exact absurd h.2.1 (Nat.ne_of_lt hpos)
  case finite.zero hpos _ => exact absurd h.2.1 (Nat.ne_of_gt hpos)
  case finite.finite =>
    obtain ⟨hs, rfl, rfl⟩ := h
    rw [hsign hs]

/-- Numbers that stand for the same are equal. -/
private theorem eq_of_parts {x y : Float} (h : parts x = parts y) : x = y := by
  rw [parts_eq, parts_eq] at h
  have hbits := (unpack_inj_of_valid x.toModel.valid y.toModel.valid).mp (Parts.ofUnpacked_inj h)
  exact Float.toBits_inj.mp (UInt64.toBitVec_inj.mp hbits)

/-- Zeros that are shifted out leave nothing to round. -/
private theorem repeat_shiftRightOne (m k : Nat) :
    k.repeat ExtendedMantissa.shiftRightOne ⟨m * 2 ^ k, false, false⟩ = ⟨m, false, false⟩ := by
  induction k generalizing m with
  | zero => rw [Nat.pow_zero, Nat.mul_one, Nat.repeat]
  | succ k ih =>
    rw [Nat.pow_succ', ← Nat.mul_assoc, Nat.repeat, ih, ExtendedMantissa.shiftRightOne, Nat.mul_div_cancel _ Nat.two_pos,
      Nat.mul_mod_left]
    rfl

private theorem log2_full {m : Nat} (hlow : hiddenBit ≤ m) (hhigh : m < 2 * hiddenBit) : m.log2 = 52 := by
  have hpos : m ≠ 0 := by
    rw [hiddenBit] at hlow
    omega
  exact (Nat.log2_eq_iff hpos).mpr ⟨hlow, hhigh⟩

/-- A full mantissa with zeros behind it loses the zeros. -/
private theorem shiftToTargetExponent_full {m k : Nat} {e : Int} (hlow : hiddenBit ≤ m) (hhigh : m < 2 * hiddenBit)
    (helow : minExponent ≤ e + k) :
    shiftToTargetExponent Format.binary64 (m * 2 ^ k) e .exact = (⟨m, false, false⟩, e + k) := by
  have htarget : Format.binary64.targetExponent (totalExponent (m * 2 ^ k) e) = e + k := by
    have hpos : 0 < m := by
      rw [hiddenBit] at hlow
      omega
    have hbits : (Format.binary64.mantissaBits : Int) = 53 := rfl
    have hmin : Format.binary64.minExponent = minExponent := rfl
    rw [Format.targetExponent, totalExponent, log2_mul_two_pow hpos, log2_full hlow hhigh, hbits, hmin]
    omega
  have hshift : (e + k - e).toNat = k := by omega
  rw [shiftToTargetExponent, htarget, shiftToExponent, hshift]
  exact congrArg (·, e + (k : Int)) (repeat_shiftRightOne m k)

/-- A full mantissa with zeros behind it is not rounded. -/
private theorem roundWithAccuracy_full (s : Sign) {m k : Nat} {e : Int} (hlow : hiddenBit ≤ m)
    (hhigh : m < 2 * hiddenBit)
    (helow : minExponent ≤ e + k) :
    ∃ h, roundWithAccuracy Format.binary64 s (m * 2 ^ k) e .exact = .finite s m (e + k) h := by
  have hpos : 0 < m := by
    rw [hiddenBit] at hlow
    omega
  have hagain := shiftToTargetExponent_full (k := 0) (e := e + k) hlow hhigh (by omega)
  rw [Nat.pow_zero, Nat.mul_one] at hagain
  have hrounded : ExtendedMantissa.roundedMantissa ⟨m, false, false⟩ = m := rfl
  refine ⟨hpos, ?_⟩
  simp only [roundWithAccuracy, shiftToTargetExponent_full hlow hhigh helow, hrounded, hagain]
  rw [dif_neg (Nat.ne_of_gt hpos)]
  simp

structure Full (x : Float) (negative : Bool) (m : Nat) (e : Int) : Prop where
  parts : parts x = .finite negative m e
  low : hiddenBit ≤ m
  high : m < 2 * hiddenBit

namespace Full
variable {x y : Float} {s t : Bool} {m k : Nat} {e n : Int}

private theorem unpack (h : Full x s m e) :
    ∃ sign hpos, x.toModel.unpack = .finite sign m e hpos ∧ (sign == Sign.negative) = s := by
  have hparts := h.parts
  have hlow := h.low
  rw [parts_eq] at hparts
  cases hunpack : x.toModel.unpack <;> rw [hunpack] at hparts <;>
    simp only [Parts.ofUnpacked, reduceCtorEq, Parts.finite.injEq] at hparts
  case zero =>
    rw [hiddenBit] at hlow
    omega
  case finite hpos =>
    obtain ⟨hs, rfl, rfl⟩ := hparts
    exact ⟨_, hpos, rfl, hs⟩

private theorem of_unpacked {u : UnpackedFloat} {sign : Sign} {hpos : 0 < m} (hu : u = .finite sign m e hpos)
    (hx : x.toModel = .pack u) (hlow : hiddenBit ≤ m) (hhigh : m < 2 * hiddenBit) (helow : minExponent ≤ e)
    (hehigh : e ≤ 971) : Full x (sign == .negative) m e := by
  refine ⟨?_, hlow, hhigh⟩
  have hbits : Binary64.parts x = .ofBits (UnpackedFloat.pack Format.binary64 u).toNat := by
    have hparts : Binary64.parts x = .ofBits x.toModel.toBits.toNat := rfl
    rw [hparts, hx]
    rfl
  rw [hbits, hu, (Canonical.normal sign m e hpos hlow hhigh helow hehigh).ofBits_pack]
  rfl

/-- Two numbers whose mantissas' product is full but for zeros behind it are multiplied without rounding. -/
private theorem mul (hx : Full x s m e) (hy : Full y t hiddenBit n) (helow : minExponent ≤ e + n + 52)
    (hehigh : e + n + 52 ≤ 971) : Full (x * y) (s != t) m (e + n + 52) := by
  obtain ⟨sign, hpos, hunpack, rfl⟩ := hx.unpack
  obtain ⟨sign', hpos', hunpack', rfl⟩ := hy.unpack
  obtain ⟨h, hround⟩ := roundWithAccuracy_full (sign * sign') (k := 52) hx.low hx.high helow
  have hproduct : UnpackedFloat.mul Format.binary64 x.toModel.unpack y.toModel.unpack =
      .finite (sign * sign') m (e + n + 52) h := by
    rw [hunpack, hunpack', UnpackedFloat.mul]
    exact hround
  have hsign : (sign * sign' == Sign.negative) = ((sign == .negative) != (sign' == .negative)) := by
    cases sign <;> cases sign' <;> rfl
  rw [← hsign]
  exact of_unpacked hproduct rfl hx.low hx.high helow hehigh

end Full

abbrev IsTwoPow (x : Float) (n : Int) : Prop := Full x false hiddenBit (n - 52)

section
variable {x y : Float} {s : Bool} {m : Nat} {e n : Int}

/-- A number times a power of two. -/
private theorem Full.mul_twoPow (hx : Full x s m e) (hy : IsTwoPow y n) (helow : minExponent ≤ e + n)
    (hehigh : e + n ≤ 971) :
    Full (x * y) s m (e + n) := by
  have hexponent : e + (n - 52) + 52 = e + n := by omega
  have hproduct := hx.mul hy (by omega) (by omega)
  rwa [hexponent, Bool.bne_false] at hproduct

private theorem isTwoPow_one : IsTwoPow 1.0 0 := ⟨rfl, Nat.le_refl _, by decide⟩

private theorem isTwoPow_two : IsTwoPow 2 1 := ⟨rfl, Nat.le_refl _, by decide⟩

private theorem divCore_twoPow (hlow : -1022 ≤ n) (hhigh : n ≤ 1022) :
    ∃ k : Nat, -1074 ≤ -n - 52 - k ∧ divCore Format.binary64 hiddenBit (0 - 52) hiddenBit (n - 52) =
      (hiddenBit * 2 ^ k, -n - 52 - k, .exact) := by
  have hlog : hiddenBit.log2 = 52 := log2_full (Nat.le_refl _) (by decide)
  have hbits : (Format.binary64.mantissaBits : Int) = 53 := rfl
  have hmin : Format.binary64.minExponent = -1074 := rfl
  obtain ⟨k, hk, hshift⟩ : ∃ k : Nat, -n - 52 - k = max (-n - 53) (-1074) ∧
      (-n - max (-n - 53) (-1074)).toNat = 52 + k :=
    ⟨(-n - 52 - max (-n - 53) (-1074)).toNat, by omega, by omega⟩
  have htarget : min (0 - 52 - (n - 52)) (Format.binary64.targetExponent
      (totalExponent hiddenBit (0 - 52) - totalExponent hiddenBit (n - 52))) = max (-n - 53) (-1074) := by
    rw [Format.targetExponent, totalExponent, totalExponent, hlog, hbits, hmin]
    omega
  have hquotient : hiddenBit <<< (52 + k) = hiddenBit * 2 ^ k * hiddenBit := by
    rw [Nat.shiftLeft_eq, Nat.pow_add, Nat.mul_comm (2 ^ 52), Nat.mul_assoc]
    rfl
  have hpos : 0 < hiddenBit := by decide
  refine ⟨k, by omega, ?_⟩
  rw [divCore]
  simp only [htarget]
  have hamount : (0 - 52 - (n - 52) - max (-n - 53) (-1074)).toNat = 52 + k := by omega
  rw [hamount, hquotient, Nat.mul_div_cancel _ hpos, Nat.mul_mod_left, ← hk]
  rfl

/-- The reciprocal of a power of two. -/
private theorem IsTwoPow.inv (hx : IsTwoPow x n) (hlow : -1022 ≤ n) (hhigh : n ≤ 1022) : IsTwoPow (1.0 / x) (-n) := by
  obtain ⟨sign, hpos, hunpack, hsign⟩ := hx.unpack
  obtain ⟨sign', hpos', hunpack', hsign'⟩ := isTwoPow_one.unpack
  obtain ⟨k, hk, hcore⟩ := divCore_twoPow hlow hhigh
  have hexponent : -n - 52 - k + k = -n - 52 := by omega
  obtain ⟨h, hround⟩ := roundWithAccuracy_full (sign' / sign) (e := -n - 52 - k) (k := k) hx.low hx.high
    (by rw [minExponent]; omega)
  rw [hexponent] at hround
  have hquotient : UnpackedFloat.div Format.binary64 (1.0 : Float).toModel.unpack x.toModel.unpack =
      .finite (sign' / sign) hiddenBit (-n - 52) h := by
    rw [hunpack, hunpack', UnpackedFloat.div]
    simp only [hcore]
    exact hround
  have hpositive : (sign' / sign == Sign.negative) = false := by
    revert hsign hsign'
    cases sign <;> cases sign' <;> decide
  rw [IsTwoPow, ← hpositive]
  exact .of_unpacked hquotient rfl hx.low hx.high (by rw [minExponent]; omega) (by omega)

private theorem IsTwoPow.mul {i j : Int} (hx : IsTwoPow x i) (hy : IsTwoPow y j) (hlow : -1022 ≤ i + j)
    (hhigh : i + j ≤ 1023) :
    IsTwoPow (x * y) (i + j) := by
  have hexponent : i - 52 + j = i + j - 52 := by omega
  have hproduct := hx.mul_twoPow hy (by rw [minExponent]; omega) (by omega)
  rwa [hexponent] at hproduct

/-- Repeated squaring of a power of two, as long as the power that it comes to is not too large. -/
private theorem powNat_twoPow (n : Nat) {product : Float} {i j : Int} (hj : 0 ≤ j) (hi : 0 ≤ i)
    (hx : 0 < n → IsTwoPow x j)
    (hproduct : IsTwoPow product i) (hbound : i + j * n ≤ 1023) : IsTwoPow (powNat x n product) (i + j * n) := by
  induction n using Nat.strongRecOn generalizing x product i j with
  | ind n ih =>
    rw [powNat]
    by_cases hn : n = 0
    · subst hn
      rw [if_pos rfl]
      simpa using hproduct
    · have hx := hx (Nat.pos_of_ne_zero hn)
      rw [if_neg hn]
      have hsplit : j * n = (j + j) * (n / 2 : Nat) + j * (n % 2 : Nat) := by
        rw [← Int.two_mul, Int.mul_comm 2 j, Int.mul_assoc, ← Int.mul_add]
        congr 1
        omega
      have hfactors : 0 ≤ (j + j) * (n / 2 : Nat) := by positivity
      -- the square is used only when there are bits left, and then it is not too large
      have hsquare : 0 < n / 2 → IsTwoPow (x * x) (j + j) := fun hleft => by
        have hle : (j + j) * 1 ≤ (j + j) * (n / 2 : Nat) := Int.mul_le_mul_of_nonneg_left (by omega) (by omega)
        have hodd : 0 ≤ j * (n % 2 : Nat) := by positivity
        exact hx.mul hx (by omega) (by omega)
      by_cases hodd : n % 2 = 1
      · have hlast : j * (n % 2 : Nat) = j := by rw [hodd, Int.natCast_one, Int.mul_one]
        have hnext := ih (n / 2) (by omega) (by omega) (i := i + j) (by omega) hsquare
          (hproduct.mul hx (by omega) (by omega)) (by omega)
        simp only [if_pos hodd]
        rwa [hsplit, hlast, Int.add_comm _ j, ← Int.add_assoc]
      · have hlast : j * (n % 2 : Nat) = 0 := by rw [show n % 2 = 0 by omega, Int.natCast_zero, Int.mul_zero]
        have hnext := ih (n / 2) (by omega) (by omega) hi hsquare hproduct (by omega)
        simp only [if_neg hodd]
        rwa [hsplit, hlast, Int.add_zero]

/-- The powers of two in the range of full mantissas are exact. -/
theorem powInt_twoPow {n : Int} (hlow : -1022 ≤ n) (hhigh : n ≤ 1023) : IsTwoPow (powInt 2 n) n := by
  have hpower (hbound : (n.natAbs : Int) ≤ 1023) : IsTwoPow (powNat 2 n.natAbs 1.0) n.natAbs := by
    have hpower := powNat_twoPow n.natAbs (by omega) (Int.le_refl 0) (fun _ => isTwoPow_two) isTwoPow_one (by omega)
    rwa [Int.zero_add, Int.one_mul] at hpower
  rw [powInt]
  by_cases hn : n < 0
  · have hinverse := (hpower (by omega)).inv (by omega) (by omega)
    rw [show -(n.natAbs : Int) = n by omega] at hinverse
    rwa [if_pos hn]
  · have hsame := hpower (by omega)
    rw [show (n.natAbs : Int) = n by omega] at hsame
    rwa [if_neg hn]

/-- The nearest whole number is at most a half away. -/
private theorem abs_nearest_sub_le (n : Nat) {d : Nat} (hd : 0 < d) : |(nearest n d : Rat) - n / d| ≤ 1 / 2 := by
  have hd' : (0 : Rat) < d := Nat.cast_pos.mpr hd
  have hrest := Nat.mod_lt n hd
  have hsplit : (n : Rat) / d = (n / d : Nat) + (n % d : Nat) / d := by
    have hwhole : (n : Rat) = d * (n / d : Nat) + (n % d : Nat) := by exact_mod_cast (Nat.div_add_mod n d).symm
    rw [div_eq_iff hd'.ne', add_mul, div_mul_cancel₀ _ hd'.ne']
    linarith
  rw [hsplit, nearest]
  split
  · rename_i hup
    have hhalf : (d : Rat) ≤ 2 * (n % d : Nat) := by exact_mod_cast (show d ≤ 2 * (n % d) by omega)
    have hlt : ((n % d : Nat) : Rat) ≤ d := by exact_mod_cast hrest.le
    have hquotient : 1 / 2 ≤ ((n % d : Nat) : Rat) / d := by rw [div_le_div_iff₀ two_pos hd']; linarith
    have hone : ((n % d : Nat) : Rat) / d ≤ 1 := (div_le_one hd').mpr hlt
    rw [Nat.cast_add, Nat.cast_one, abs_le]
    constructor <;> linarith
  · rename_i hdown
    have hhalf : 2 * ((n % d : Nat) : Rat) ≤ d := by exact_mod_cast (show 2 * (n % d) ≤ d by omega)
    have hquotient : ((n % d : Nat) : Rat) / d ≤ 1 / 2 := by rw [div_le_div_iff₀ hd' two_pos]; linarith
    have hnonneg : 0 ≤ ((n % d : Nat) : Rat) / d := by positivity
    rw [abs_le]
    constructor <;> linarith

/-- A mantissa is off by at most half of its last bit. -/
theorem abs_mantissa_sub_le (q : Nat) :
    |(mantissa q : Rat) * 2 ^ ((q.log2 : Int) - 52) - q| ≤ 1 / 2 * 2 ^ ((q.log2 : Int) - 52) := by
  have hscale : (0 : Rat) < 2 ^ ((q.log2 : Int) - 52) := by positivity
  have hratio : (q : Rat) = ((q * 2 ^ 52 : Nat) : Rat) / (2 ^ q.log2 : Nat) * 2 ^ ((q.log2 : Int) - 52) := by
    rw [zpow_sub₀ two_ne_zero, zpow_natCast]
    push_cast
    field_simp
  have herror := abs_nearest_sub_le (q * 2 ^ 52) (Nat.two_pow_pos q.log2)
  calc
    |(mantissa q : Rat) * 2 ^ ((q.log2 : Int) - 52) - q| =
        |(mantissa q : Rat) - ((q * 2 ^ 52 : Nat) : Rat) / (2 ^ q.log2 : Nat)| * 2 ^ ((q.log2 : Int) - 52) := by
      rw [← abs_of_pos hscale, ← abs_mul, abs_of_pos hscale, sub_mul, ← hratio]
    _ ≤ 1 / 2 * 2 ^ ((q.log2 : Int) - 52) := mul_le_mul_of_nonneg_right herror hscale.le

theorem mantissa_two_pow (k : Nat) : mantissa (2 ^ k) = 2 ^ 52 := by
  rw [mantissa, Nat.log2_two_pow, Nat.mul_comm, nearest_exact (Nat.two_pow_pos k)]

/-- Zeros at the end of a whole number do not change its mantissa. -/
private theorem mantissa_mul_two_pow {q : Nat} (hpos : 0 < q) (k : Nat) : mantissa (q * 2 ^ k) = mantissa q := by
  rw [mantissa, log2_mul_two_pow hpos, Nat.mul_assoc, ← Nat.pow_add]
  exact nearest_dyadic (by omega)

/-- A mantissa may be rounded up to the next power of two. -/
theorem mantissa_bounds {q : Nat} (hpos : 0 < q) : hiddenBit ≤ mantissa q ∧ mantissa q ≤ 2 * hiddenBit := by
  have hscale := Nat.two_pow_pos q.log2
  have hfull : hiddenBit = 2 ^ 52 := rfl
  have hlow : hiddenBit ≤ q * 2 ^ 52 / 2 ^ q.log2 := by
    rw [Nat.le_div_iff_mul_le hscale, hfull, Nat.mul_comm]
    exact Nat.mul_le_mul_right _ (Nat.log2_self_le hpos.ne')
  have hhigh : q * 2 ^ 52 / 2 ^ q.log2 < 2 * hiddenBit := by
    rw [Nat.div_lt_iff_lt_mul hscale, hfull, Nat.mul_right_comm, ← Nat.pow_succ']
    exact Nat.mul_lt_mul_of_pos_right Nat.lt_log2_self (Nat.two_pow_pos 52)
  rw [mantissa, nearest]
  split <;> omega

/-- A mantissa that was rounded up to the next power of two is packed as a full one. -/
private theorem pack_carry (negative : Bool) {e : Int} (he : minExponent ≤ e) :
    pack negative (2 * hiddenBit) e = pack negative hiddenBit (e + 1) := by
  have hmagnitude : (e - minExponent).toNat * hiddenBit + 2 * hiddenBit =
      (e + 1 - minExponent).toNat * hiddenBit + hiddenBit := by
    rw [show (e + 1 - minExponent).toNat = (e - minExponent).toNat + 1 by omega, Nat.succ_mul (e - minExponent).toNat]
    omega
  rw [pack, pack, hmagnitude]

private theorem full_pack (negative : Bool) (hlow : hiddenBit ≤ m) (hhigh : m < 2 * hiddenBit) (helow : minExponent ≤ e)
    (hehigh : e ≤ 971) : Full (pack negative m e) negative m e :=
  ⟨parts_pack negative hlow hhigh helow hehigh, hlow, hhigh⟩

theorem rational?_pack (negative : Bool) (hlow : hiddenBit ≤ m) (hhigh : m ≤ 2 * hiddenBit) (helow : minExponent ≤ e)
    (hehigh : e < 971) :
    rational? (pack negative m e) = some (((if negative then -m else m : Int) : Rat) * 2 ^ e) := by
  rcases Nat.lt_or_eq_of_le hhigh with hm | rfl
  · rw [rational?, parts_pack negative hlow hm helow (by omega), Parts.rational?]
  · rw [pack_carry negative helow, rational?, parts_pack negative (Nat.le_refl _) (by decide) (by omega) (by omega),
      Parts.rational?, zpow_add_one₀ two_ne_zero]
    refine congrArg some ?_
    split
    · push_cast
      ring
    · push_cast
      ring

/-- A packed number times a power of two. -/
private theorem pack_mul_twoPow (negative : Bool) (hlow : hiddenBit ≤ m) (hhigh : m ≤ 2 * hiddenBit)
    (helow : minExponent ≤ e)
    (hehigh : e < 971) (hy : IsTwoPow y n) (hnlow : minExponent ≤ e + n) (hnhigh : e + n < 971) :
    pack negative m e * y = pack negative m (e + n) := by
  have hfull {m : Nat} {e : Int} (hm : hiddenBit ≤ m) (hm' : m < 2 * hiddenBit) (he : minExponent ≤ e) (he' : e ≤ 971)
      (hn : minExponent ≤ e + n) (hn' : e + n ≤ 971) : pack negative m e * y = pack negative m (e + n) := by
    refine eq_of_parts ?_
    rw [((full_pack negative hm hm' he he').mul_twoPow hy hn hn').parts, (full_pack negative hm hm' hn hn').parts]
  rcases Nat.lt_or_eq_of_le hhigh with hm | rfl
  · exact hfull hlow hm helow (by omega) hnlow (by omega)
  · rw [pack_carry negative helow, pack_carry negative hnlow, hfull (Nat.le_refl _) (by decide) (by omega) (by omega)
      (by omega) (by omega), Int.add_right_comm]

/-- The number nearest to a whole number times a power of two. -/
theorem ofDyadic_eq_pack (negative : Bool) {q : Nat} (hpos : 0 < q) {k : Int} (hlow : -1022 ≤ q.log2 + k) :
    ofDyadic negative q k = pack negative (mantissa q) (q.log2 - 52 + k) := by
  obtain ⟨a, b, hshift, hdifference⟩ := shiftRatio_dyadic q 0 0 (-k)
  rw [Nat.pow_zero, Nat.mul_one] at hshift
  have hexponent : (q.log2 : Int) + a - b - 52 = q.log2 - 52 + k := by omega
  have hround := roundRatio_dyadic hpos a b (by rw [minExponent]; omega)
  rw [hexponent] at hround
  rw [ofDyadic, hshift]
  simp only [ofRatio, hround]
  exact if_neg (Nat.mul_pos hpos (Nat.two_pow_pos a)).ne'

theorem ofDyadic_mul_two_pow (negative : Bool) {q : Nat} (hpos : 0 < q) (j : Nat) {k : Int}
    (hlow : -1022 ≤ q.log2 + (k + j)) : ofDyadic negative (q * 2 ^ j) k = ofDyadic negative q (k + j) := by
  have hscaled : 0 < q * 2 ^ j := Nat.mul_pos hpos (Nat.two_pow_pos j)
  have hlog := log2_mul_two_pow hpos j
  rw [ofDyadic_eq_pack negative hscaled (by omega), ofDyadic_eq_pack negative hpos hlow, mantissa_mul_two_pow hpos, hlog]
  congr 1
  omega

private theorem pack_not (negative : Bool) (hlow : hiddenBit ≤ m) (hhigh : m ≤ 2 * hiddenBit) (helow : minExponent ≤ e)
    (hehigh : e < 971) : pack (!negative) m e = -pack negative m e := by
  have hfull {m : Nat} {e : Int} (hm : hiddenBit ≤ m) (hm' : m < 2 * hiddenBit) (he : minExponent ≤ e) (he' : e ≤ 971) :
      pack (!negative) m e = -pack negative m e := by
    refine eq_of_parts ?_
    rw [parts_neg, parts_pack _ hm hm' he he', parts_pack _ hm hm' he he', Parts.neg]
  rcases Nat.lt_or_eq_of_le hhigh with hm | rfl
  · exact hfull hlow hm helow (by omega)
  · rw [pack_carry _ helow, pack_carry _ helow, hfull (Nat.le_refl _) (by decide) (by omega) (by omega)]

/-- Rounding to nearest does not hang on the sign. -/
theorem ofDyadic_not (negative : Bool) {q : Nat} (hpos : 0 < q) {k : Int} (hlow : -1022 ≤ q.log2 + k)
    (hhigh : q.log2 + k ≤ 1022) : ofDyadic (!negative) q k = -ofDyadic negative q k := by
  obtain ⟨hmlow, hmhigh⟩ := mantissa_bounds hpos
  rw [ofDyadic_eq_pack _ hpos hlow, ofDyadic_eq_pack _ hpos hlow]
  exact pack_not negative hmlow hmhigh (by rw [minExponent]; omega) (by omega)

/-- A whole number that is rounded and then scaled is rounded once. -/
theorem ofInt_mul_twoPow {i : Int} (hi : i ≠ 0) {k : Int} (hsize : i.natAbs.log2 ≤ 1022)
    (hy : IsTwoPow y k) (hlow : -1022 ≤ i.natAbs.log2 + k) (hhigh : i.natAbs.log2 + k ≤ 1022) :
    ofInt i * y = ofDyadic (i < 0) i.natAbs k := by
  have hpos : 0 < i.natAbs := Int.natAbs_pos.mpr hi
  obtain ⟨hmlow, hmhigh⟩ := mantissa_bounds hpos
  have hwhole : ofInt i = ofDyadic (i < 0) i.natAbs 0 := by rw [ofDyadic, shiftRatio]; simp [ofInt]
  rw [hwhole, ofDyadic_eq_pack _ hpos (by omega), ofDyadic_eq_pack _ hpos hlow, Int.add_zero]
  exact pack_mul_twoPow _ hmlow hmhigh (by rw [minExponent]; omega) (by omega) hy (by rw [minExponent]; omega) (by omega)

end

end Reckoner.Binary64
