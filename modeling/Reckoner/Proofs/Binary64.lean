import Mathlib
import Reckoner.Binary64.Basic

/-! What a binary64 number stands for, before and after it is packed into its bits. A number is packed without loss
when its mantissa is full, or its exponent the smallest one; so a sign changes the sign alone, and whole numbers of
less than 54 binary digits are exact. -/
namespace Reckoner.Binary64

open Float.Model Float.Model.UnpackedFloat

def Parts.ofUnpacked : UnpackedFloat → Parts
  | .notANumber => .notANumber
  | .infinity s => .infinite (s == .negative)
  | .zero s => .finite (s == .negative) 0 minExponent
  | .finite s m e _ => .finite (s == .negative) m e

def Parts.ofBits (bits : Nat) : Parts :=
  let negative := bits >>> 63 == 1
  let biased := (bits >>> 52) % 2048
  let fraction := bits % hiddenBit
  if biased = 2047 then
    if fraction = 0 then .infinite negative else .notANumber
  else if biased = 0 then .finite negative fraction minExponent
  else .finite negative (hiddenBit + fraction) (minExponent + (biased - 1 : Nat))

private theorem toNat_unpackMantissa (b : BitVec Format.binary64.numBits) :
    (unpackMantissa b).toNat = b.toNat % hiddenBit := by
  simp [unpackMantissa, BitVec.extractLsb_toNat, hiddenBit]

private theorem toNat_unpackExponent (b : BitVec Format.binary64.numBits) :
    (unpackExponent b).toNat = (b.toNat >>> 52) % 2048 := by
  simp [unpackExponent, BitVec.extractLsb_toNat]

private theorem sign_unpackSign (b : BitVec Format.binary64.numBits) :
    (Sign.ofBitVec (unpackSign b) == .negative) = (b.toNat >>> 63 == 1) := by
  have hlt : b.toNat >>> 63 < 2 := by
    have hb : b.toNat < 2 ^ 64 := b.isLt
    rw [Nat.shiftRight_eq_div_pow]
    omega
  have hsign : (unpackSign b).toNat = b.toNat >>> 63 := by
    simpa [unpackSign, BitVec.extractLsb_toNat] using hlt
  rw [← hsign]
  generalize unpackSign b = s
  revert s
  decide

private theorem toNat_implicit (m : BitVec 52) : (1#1 ++ m).toNat = hiddenBit + m.toNat := by
  rw [BitVec.toNat_append, ← Nat.shiftLeft_add_eq_or_of_lt m.isLt]
  rfl

private theorem exponent_eq_ones (b : BitVec Format.binary64.numBits) :
    unpackExponent b = -1#_ ↔ (b.toNat >>> 52) % 2048 = 2047 := by
  rw [← BitVec.toNat_inj, toNat_unpackExponent]
  rfl

private theorem exponent_eq_zero (b : BitVec Format.binary64.numBits) :
    unpackExponent b = 0#_ ↔ (b.toNat >>> 52) % 2048 = 0 := by
  rw [← BitVec.toNat_inj, toNat_unpackExponent]
  rfl

private theorem mantissa_eq_zero (b : BitVec Format.binary64.numBits) :
    unpackMantissa b = 0#_ ↔ b.toNat % hiddenBit = 0 := by
  rw [← BitVec.toNat_inj, toNat_unpackMantissa]
  rfl

private theorem ofUnpacked_unpack (b : BitVec Format.binary64.numBits) :
    Parts.ofUnpacked (UnpackedFloat.unpack Format.binary64 b) = .ofBits b.toNat := by
  have hbias : (Format.binary64.exponentBias : Int) + Format.binary64.mantissaBitsWithoutImplicit = 1075 := rfl
  rw [Parts.ofBits, UnpackedFloat.unpack]
  simp only [hbias]
  by_cases hones : (b.toNat >>> 52) % 2048 = 2047
  · rw [if_pos ((exponent_eq_ones b).mpr hones), if_pos hones]
    by_cases hm : b.toNat % hiddenBit = 0
    · rw [if_pos ((mantissa_eq_zero b).mpr hm), if_pos hm, Parts.ofUnpacked, sign_unpackSign]
    · rw [if_neg (mt (mantissa_eq_zero b).mp hm), if_neg hm, Parts.ofUnpacked]
  · rw [if_neg (mt (exponent_eq_ones b).mp hones), if_neg hones]
    by_cases hzero : (b.toNat >>> 52) % 2048 = 0
    · rw [if_pos ((exponent_eq_zero b).mpr hzero), if_pos hzero]
      by_cases hm : b.toNat % hiddenBit = 0
      · rw [dif_pos ((mantissa_eq_zero b).mpr hm), hm, Parts.ofUnpacked, sign_unpackSign]
      · rw [dif_neg (mt (mantissa_eq_zero b).mp hm), Parts.ofUnpacked, sign_unpackSign, toNat_unpackMantissa,
          toNat_unpackExponent, hzero]
        rfl
    · rw [if_neg (mt (exponent_eq_zero b).mp hzero), if_neg hzero, Parts.ofUnpacked, sign_unpackSign, toNat_implicit,
        toNat_unpackMantissa, toNat_unpackExponent, minExponent]
      congr 1
      omega

theorem parts_eq (x : Float) : parts x = .ofUnpacked x.toModel.unpack := (ofUnpacked_unpack _).symm

inductive Canonical : UnpackedFloat → Prop
  | notANumber : Canonical .notANumber
  | infinity (s : Sign) : Canonical (.infinity s)
  | zero (s : Sign) : Canonical (.zero s)
  | subnormal (s : Sign) (m : Nat) (h : 0 < m) (hm : m < hiddenBit) : Canonical (.finite s m minExponent h)
  | normal (s : Sign) (m : Nat) (e : Int) (h : 0 < m) (hlow : hiddenBit ≤ m) (hhigh : m < 2 * hiddenBit)
    (helow : minExponent ≤ e) (hehigh : e ≤ 971) : Canonical (.finite s m e h)

theorem canonical_unpack (b : BitVec Format.binary64.numBits) :
    Canonical (UnpackedFloat.unpack Format.binary64 b) := by
  have hbias : (Format.binary64.exponentBias : Int) + Format.binary64.mantissaBitsWithoutImplicit = 1075 := rfl
  have hmantissa : (unpackMantissa b).toNat < hiddenBit := (unpackMantissa b).isLt
  have hexponent : (unpackExponent b).toNat < 2048 := (unpackExponent b).isLt
  rw [UnpackedFloat.unpack]
  simp only [hbias]
  split
  · split
    · exact .infinity _
    · exact .notANumber
  · rename_i hones
    rw [exponent_eq_ones, ← toNat_unpackExponent] at hones
    split
    · rename_i hzero
      split
      · exact .zero _
      · have hmin : ((unpackExponent b).toNat : Int) - 1075 + 1 = minExponent := by
          rw [hzero]
          rfl
        simp only [hmin]
        exact .subnormal _ _ _ hmantissa
    · rename_i hzero
      rw [exponent_eq_zero, ← toNat_unpackExponent] at hzero
      have hfull := toNat_implicit (unpackMantissa b)
      refine .normal _ _ _ _ ?_ ?_ ?_ ?_
      · exact hfull ▸ Nat.le_add_right _ _
      · exact hfull ▸ by omega
      · rw [minExponent]; omega
      · omega

private theorem Canonical.neg {u : UnpackedFloat} (h : Canonical u) : Canonical u.neg := by
  cases h with
  | notANumber => exact .notANumber
  | infinity s => exact .infinity _
  | zero s => exact .zero _
  | subnormal s m h hm => exact .subnormal _ m h hm
  | normal s m e h hlow hhigh helow hehigh => exact .normal _ m e h hlow hhigh helow hehigh

/-- Reading the three fields that bits are put together from. -/
private theorem ofBits_fields {sign biased fraction : Nat} (hbiased : biased < 2048)
    (hfraction : fraction < hiddenBit) :
    Parts.ofBits (sign * 0x8000000000000000 + biased * hiddenBit + fraction) =
      if biased = 2047 then (if fraction = 0 then .infinite (sign == 1) else .notANumber)
      else if biased = 0 then .finite (sign == 1) fraction minExponent
      else .finite (sign == 1) (hiddenBit + fraction) (minExponent + (biased - 1 : Nat)) := by
  rw [hiddenBit] at *
  have hs : (sign * 0x8000000000000000 + biased * 0x10000000000000 + fraction) >>> 63 = sign := by
    rw [Nat.shiftRight_eq_div_pow]
    omega
  have hb : (sign * 0x8000000000000000 + biased * 0x10000000000000 + fraction) >>> 52 % 2048 = biased := by
    rw [Nat.shiftRight_eq_div_pow]
    omega
  have hf : (sign * 0x8000000000000000 + biased * 0x10000000000000 + fraction) % 0x10000000000000 = fraction := by
    omega
  rw [Parts.ofBits, hiddenBit]
  simp only [hs, hb, hf]

private theorem toNat_packComponents (s : Sign) (exponent : BitVec 11) (mantissa : BitVec 52) :
    (packComponents Format.binary64 s exponent mantissa).toNat =
      s.toBitVec.toNat * 0x8000000000000000 + exponent.toNat * hiddenBit + mantissa.toNat := by
  have happend {m n : Nat} (a : BitVec m) (b : BitVec n) : (a ++ b).toNat = a.toNat * 2 ^ n + b.toNat := by
    rw [BitVec.toNat_append, ← Nat.shiftLeft_add_eq_or_of_lt b.isLt, Nat.shiftLeft_eq]
  rw [packComponents, happend, happend, hiddenBit]
  omega

/-- Packing loses nothing. -/
theorem Canonical.ofBits_pack {u : UnpackedFloat} (h : Canonical u) :
    Parts.ofBits (UnpackedFloat.pack Format.binary64 u).toNat = .ofUnpacked u := by
  have hbias : (Format.binary64.exponentBias : Int) = 1023 := rfl
  have hwidth : (Format.binary64.mantissaBitsWithoutImplicit : Int) = 52 := rfl
  have hbits : Format.binary64.mantissaBits = 53 := rfl
  have hsign (s : Sign) : (s.toBitVec.toNat == 1) = (s == .negative) := by cases s <;> rfl
  cases h with
  | notANumber => rfl
  | infinity s => cases s <;> rfl
  | zero s => cases s <;> rfl
  | subnormal s m h hm =>
    have hlog : ¬m.log2 + 1 = Format.binary64.mantissaBits := by
      have hlt : m.log2 < 52 := (Nat.log2_lt (by omega)).mpr hm
      omega
    have hbiased : (minExponent + 1023 + 52).toNat = 1 := rfl
    have hfraction : (BitVec.ofNat 52 m).toNat = m := by
      rw [BitVec.toNat_ofNat]
      exact Nat.mod_eq_of_lt hm
    rw [UnpackedFloat.pack]
    simp only [hbias, hwidth, hbiased]
    rw [if_neg (by decide), if_neg hlog, toNat_packComponents, hfraction, ofBits_fields (by decide) hm,
      if_neg (by decide), if_pos (by decide), hsign, Parts.ofUnpacked]
  | normal s m e h hlow hhigh helow hehigh =>
    have hlog : m.log2 + 1 = Format.binary64.mantissaBits := by
      have hle : 52 ≤ m.log2 := (Nat.le_log2 (by omega)).mpr hlow
      have hlt : m.log2 < 53 := (Nat.log2_lt (by omega)).mpr hhigh
      omega
    have hbiased : ∃ biased : Nat, (e + 1023 + 52).toNat = biased ∧ 1 ≤ biased ∧ biased < 2047 ∧
        e = minExponent + (biased - 1 : Nat) := by
      rw [minExponent] at *
      exact ⟨_, rfl, by omega, by omega, by omega⟩
    obtain ⟨biased, hvalue, hpos, hlt, he⟩ := hbiased
    have hfield : (BitVec.ofNat 11 biased).toNat = biased := by
      rw [BitVec.toNat_ofNat]
      exact Nat.mod_eq_of_lt (by omega)
    have hfraction : (BitVec.ofNat 52 m).toNat = m - hiddenBit := by
      rw [BitVec.toNat_ofNat]
      rw [hiddenBit] at *
      omega
    rw [UnpackedFloat.pack]
    simp only [hbias, hwidth, hvalue]
    rw [if_neg (by simp; omega), if_pos hlog, toNat_packComponents, hfield, hfraction,
      ofBits_fields (by omega) (by omega), if_neg (by omega), if_neg (by omega), hsign, ← he,
      Nat.add_sub_cancel' hlow, Parts.ofUnpacked]

def Parts.neg : Parts → Parts
  | notANumber => .notANumber
  | infinite negative => .infinite !negative
  | finite negative m e => .finite (!negative) m e

theorem parts_neg (x : Float) : parts (-x) = (parts x).neg := by
  have hcanonical : Canonical x.toModel.unpack := canonical_unpack _
  have hpacked : parts (-x) = .ofBits (UnpackedFloat.pack Format.binary64 x.toModel.unpack.neg).toNat := rfl
  have hsign (s : Sign) : (-s == Sign.negative) = !(s == Sign.negative) := by cases s <;> rfl
  rw [hpacked, hcanonical.neg.ofBits_pack, parts_eq]
  cases x.toModel.unpack <;> simp only [UnpackedFloat.neg, Parts.ofUnpacked, Parts.neg, hsign]

private theorem parts_ofBits (bits : UInt64) : parts (Float.ofBits bits) = .ofBits bits.toNat := by
  have hpacked : parts (Float.ofBits bits) =
    .ofBits (UnpackedFloat.pack Format.binary64 (UnpackedFloat.unpack Format.binary64 bits.toBitVec)).toNat := rfl
  rw [hpacked, (canonical_unpack _).ofBits_pack, ofUnpacked_unpack]
  rfl

theorem parts_pack (negative : Bool) {m : Nat} {e : Int} (hlow : hiddenBit ≤ m) (hhigh : m < 2 * hiddenBit)
    (helow : minExponent ≤ e) (hehigh : e ≤ 971) : parts (pack negative m e) = .finite negative m e := by
  obtain ⟨biased, hbiased, hpos, he⟩ : ∃ biased, (e - minExponent).toNat + 1 = biased ∧ biased < 2047 ∧
      e = minExponent + (biased - 1 : Nat) := by
    rw [minExponent] at *
    exact ⟨_, rfl, by omega, by omega⟩
  have hbits : signMask negative + min ((e - minExponent).toNat * hiddenBit + m) infinityBits =
      (if negative then 1 else 0) * 0x8000000000000000 + biased * hiddenBit + (m - hiddenBit) := by
    rw [signMask, infinityBits, hiddenBit] at *
    cases negative <;> simp <;> omega
  have hfits : (if negative then 1 else 0) * 0x8000000000000000 + biased * hiddenBit + (m - hiddenBit) < UInt64.size := by
    rw [hiddenBit] at *
    cases negative <;> simp [UInt64.size] <;> omega
  rw [pack, hbits, parts_ofBits, UInt64.toNat_ofNat_of_lt' hfits, ofBits_fields (by omega) (by omega),
    if_neg (by omega), if_neg (by omega), ← he, Nat.add_sub_cancel' hlow]
  cases negative <;> rfl

theorem log2_mul_two_pow {q : Nat} (hpos : 0 < q) (k : Nat) : (q * 2 ^ k).log2 = q.log2 + k := by
  have hscale := Nat.two_pow_pos k
  rw [Nat.log2_eq_iff (Nat.mul_pos hpos hscale).ne', Nat.pow_add, Nat.add_right_comm, Nat.pow_add]
  exact ⟨Nat.mul_le_mul_right _ (Nat.log2_self_le hpos.ne'), Nat.mul_lt_mul_of_pos_right Nat.lt_log2_self hscale⟩

/-- A ratio of powers of two stays one. -/
theorem shiftRatio_dyadic (q a b : Nat) (e : Int) :
    ∃ a' b' : Nat, shiftRatio (q * 2 ^ a) (2 ^ b) e = (q * 2 ^ a', 2 ^ b') ∧ (a' : Int) - b' = a - b - e := by
  by_cases he : e < 0
  · refine ⟨a + e.natAbs, b, ?_, by omega⟩
    rw [shiftRatio, if_pos he, Nat.shiftLeft_eq, Nat.mul_assoc, ← Nat.pow_add]
  · refine ⟨a, b + e.natAbs, ?_, by omega⟩
    rw [shiftRatio, if_neg he, Nat.shiftLeft_eq, ← Nat.pow_add]

private theorem binaryOrder_dyadic {q : Nat} (hpos : 0 < q) (a b : Nat) :
    binaryOrder (q * 2 ^ a) (2 ^ b) = (q.log2 : Int) + a - b := by
  have hguess : ((q * 2 ^ a).log2 : Int) - (2 ^ b).log2 = (q.log2 : Int) + a - b := by
    rw [log2_mul_two_pow hpos, Nat.log2_two_pow]
    omega
  obtain ⟨a', b', hshift, hdifference⟩ := shiftRatio_dyadic q a b ((q.log2 : Int) + a - b)
  have hle : 2 ^ b' ≤ q * 2 ^ a' := by
    rw [show b' = q.log2 + a' by omega, Nat.pow_add]
    exact Nat.mul_le_mul_right _ (Nat.log2_self_le hpos.ne')
  rw [binaryOrder, hguess, hshift]
  exact if_pos hle

private theorem nearest_mul_right {k : Nat} (hk : 0 < k) (n d : Nat) : nearest (n * k) (d * k) = nearest n d := by
  have hrest : 2 * (n % d * k) = 2 * (n % d) * k := (Nat.mul_assoc ..).symm
  simp only [nearest, Nat.mul_div_mul_right _ _ hk, Nat.mul_mod_mul_right, hrest, gt_iff_lt, Nat.mul_lt_mul_right hk,
    Nat.mul_left_inj hk.ne']

theorem nearest_exact {d : Nat} (hd : 0 < d) (m : Nat) : nearest (m * d) d = m := by
  rw [nearest, Nat.mul_div_cancel _ hd, Nat.mul_mod_left, if_neg (by omega)]

def mantissa (q : Nat) : Nat := nearest (q * 2 ^ 52) (2 ^ q.log2)

theorem nearest_dyadic {q a b : Nat} (h : a + q.log2 = 52 + b) : nearest (q * 2 ^ a) (2 ^ b) = mantissa q :=
  calc
    nearest (q * 2 ^ a) (2 ^ b) = nearest (q * 2 ^ a * 2 ^ q.log2) (2 ^ b * 2 ^ q.log2) :=
      (nearest_mul_right (Nat.two_pow_pos _) _ _).symm
    _ = nearest (q * 2 ^ 52 * 2 ^ b) (2 ^ q.log2 * 2 ^ b) := by
      rw [Nat.mul_assoc, ← Nat.pow_add, h, Nat.pow_add, Nat.mul_assoc, Nat.mul_comm (2 ^ b) (2 ^ q.log2)]
    _ = mantissa q := nearest_mul_right (Nat.two_pow_pos _) _ _

/-- A whole number times a power of two has the mantissa of the whole number, as long as there is room for all of it. -/
theorem roundRatio_dyadic {q : Nat} (hpos : 0 < q) (a b : Nat) (hlow : minExponent ≤ (q.log2 : Int) + a - b - 52) :
    roundRatio (q * 2 ^ a) (2 ^ b) = (mantissa q, (q.log2 : Int) + a - b - 52) := by
  obtain ⟨a', b', hshift, hdifference⟩ := shiftRatio_dyadic q a b ((q.log2 : Int) + a - b - 52)
  rw [roundRatio, binaryOrder_dyadic hpos, max_eq_left hlow, hshift]
  simp only [nearest_dyadic (q := q) (a := a') (b := b') (by omega)]

private theorem mantissa_of_log2_le {q : Nat} (hlog : q.log2 ≤ 52) : mantissa q = q * 2 ^ (52 - q.log2) := by
  have hsplit : q * 2 ^ 52 = q * 2 ^ (52 - q.log2) * 2 ^ q.log2 := by
    rw [Nat.mul_assoc, ← Nat.pow_add, Nat.sub_add_cancel hlog]
  rw [mantissa, hsplit, nearest_exact (Nat.two_pow_pos _)]

/-- A whole number gets a full mantissa, and nothing is rounded. -/
theorem roundRatio_whole {q : Nat} (hpos : 0 < q) (hq : q < 2 * hiddenBit) (k : Nat) :
    roundRatio (q * 2 ^ k) (2 ^ k) = (q * 2 ^ (52 - q.log2), (q.log2 : Int) - 52) := by
  have hlog : q.log2 < 53 := (Nat.log2_lt hpos.ne').mpr hq
  rw [roundRatio_dyadic hpos k k (by rw [minExponent]; omega), mantissa_of_log2_le (by omega), Int.add_sub_cancel]

/-- The mantissa of a whole number. -/
theorem parts_ofInt {n : Int} (hn : n ≠ 0) (hsmall : n.natAbs < 2 * hiddenBit) :
    parts (ofInt n) = .finite (n < 0) (n.natAbs * 2 ^ (52 - n.natAbs.log2)) ((n.natAbs.log2 : Int) - 52) := by
  have hpos : 0 < n.natAbs := by omega
  have hlog : n.natAbs.log2 < 53 := (Nat.log2_lt hpos.ne').mpr hsmall
  have hround := roundRatio_whole hpos hsmall 0
  rw [Nat.pow_zero, Nat.mul_one] at hround
  have hsplit : 2 ^ n.natAbs.log2 * 2 ^ (52 - n.natAbs.log2) = hiddenBit := by
    rw [← Nat.pow_add, Nat.add_sub_cancel' (by omega)]
    rfl
  rw [ofInt, ofRatio, if_neg hpos.ne', hround]
  refine parts_pack _ ?_ ?_ ?_ ?_
  · rw [← hsplit]
    exact Nat.mul_le_mul_right _ (Nat.log2_self_le hpos.ne')
  · rw [← hsplit, ← Nat.mul_assoc, ← Nat.pow_succ']
    exact Nat.mul_lt_mul_of_pos_right Nat.lt_log2_self (Nat.two_pow_pos _)
  · rw [minExponent]
    omega
  · omega

end Reckoner.Binary64
