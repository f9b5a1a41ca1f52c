import Mathlib.Algebra.Order.Field.Basic
import Mathlib.Tactic.FieldSimp
import Reckoner.Proofs.Bignum.Text

/-! What the text of a bignum shows. Half of what the last digit is worth is added before the digits are cut off, but
that half is rounded down to a whole number of binary digits: what is shown is never more than half a digit above the
number, and may be more than half a digit below it. -/
namespace Reckoner.Bignum

variable {base precision count : Nat}

/-! ### The number shown -/

/-- What is shown of a magnitude, counted in what the last digit is worth. -/
def shown (precision base count magnitude : Nat) : Nat :=
  (magnitude + halfStep precision base count) * base ^ count / 2 ^ precision

def shownValue (precision base count : Nat) (v : Int) : Rat :=
  (if v < 0 then -1 else 1) * (shown precision base count v.natAbs / base ^ count)

/-- Half of a digit is at most as much as it says, and short of it by less than a binary digit. -/
private theorem halfStep_bounds (hbase : 0 < base) (precision count : Nat) :
    2 * (halfStep precision base count * base ^ count) ≤ 2 ^ precision ∧
      2 ^ precision < 2 * (halfStep precision base count * base ^ count) + 2 * base ^ count := by
  have hpos : 0 < base ^ count * 2 := Nat.mul_pos (Nat.pow_pos hbase) Nat.two_pos
  have hlow := Nat.div_mul_le_self (2 ^ precision) (base ^ count * 2)
  have hhigh := Nat.lt_div_mul_add (a := 2 ^ precision) hpos
  have hsplit :
      halfStep precision base count * (base ^ count * 2) = 2 * (halfStep precision base count * base ^ count) := by
    rw [← Nat.mul_assoc, Nat.mul_comm]
  rw [← halfStep, hsplit] at hlow hhigh
  exact ⟨hlow, by omega⟩

private theorem shown_le (hbase : 0 < base) (m : Nat) :
    2 * (shown precision base count m * 2 ^ precision) ≤ 2 * (m * base ^ count) + 2 ^ precision := by
  have hhalf := (halfStep_bounds hbase precision count).1
  have hcut := Nat.div_mul_le_self ((m + halfStep precision base count) * base ^ count) (2 ^ precision)
  rw [← shown, Nat.add_mul] at hcut
  omega

private theorem lt_shown (hbase : 0 < base) (m : Nat) :
    2 * (m * base ^ count) < 2 * (shown precision base count m * 2 ^ precision) + 2 ^ precision + 2 * base ^ count := by
  have hhalf := (halfStep_bounds hbase precision count).2
  have hcut := Nat.lt_div_mul_add (a := (m + halfStep precision base count) * base ^ count) (Nat.two_pow_pos precision)
  rw [← shown, Nat.add_mul] at hcut
  omega

/-- It is the nearest exactly where the rest behind it is at most a half, or the half that is added carries. -/
private theorem shown_nearest_iff (hbase : 0 < base) (m : Nat) :
    2 * (m * base ^ count) ≤ 2 * (shown precision base count m * 2 ^ precision) + 2 ^ precision ↔
      2 * (m * base ^ count % 2 ^ precision) ≤ 2 ^ precision ∨
        2 ^ precision ≤ m * base ^ count % 2 ^ precision + halfStep precision base count * base ^ count := by
  have hhalf := (halfStep_bounds hbase precision count).1
  have hpos := Nat.two_pow_pos precision
  have hsplit := Nat.div_add_mod (m * base ^ count) (2 ^ precision)
  have hrest := Nat.mod_lt (m * base ^ count) hpos
  have hshown : shown precision base count m = m * base ^ count / 2 ^ precision +
      (m * base ^ count % 2 ^ precision + halfStep precision base count * base ^ count) / 2 ^ precision := by
    rw [shown, Nat.add_mul]
    conv_lhs => rw [← hsplit, Nat.add_assoc, Nat.mul_add_div hpos]
  rw [hshown, Nat.add_mul, Nat.mul_comm (m * base ^ count / 2 ^ precision)]
  generalize halfStep precision base count * base ^ count = half at hhalf ⊢
  by_cases hcarry : 2 ^ precision ≤ m * base ^ count % 2 ^ precision + half
  · have hone : (m * base ^ count % 2 ^ precision + half) / 2 ^ precision = 1 :=
      Nat.div_eq_of_lt_le (by omega) (by omega)
    rw [hone]
    omega
  · have hzero : (m * base ^ count % 2 ^ precision + half) / 2 ^ precision = 0 := Nat.div_eq_of_lt (by omega)
    rw [hzero]
    omega

/-- In a base that is a power of two the half is exact, or there is nothing left to be rounded. -/
private theorem shown_nearest_of_two_pow {j : Nat} (hbase : base = 2 ^ j) (m : Nat) :
    2 * (m * base ^ count) ≤ 2 * (shown precision base count m * 2 ^ precision) + 2 ^ precision := by
  rw [shown_nearest_iff (hbase ▸ Nat.two_pow_pos j)]
  have hscale : base ^ count = 2 ^ (j * count) := by rw [hbase, Nat.pow_mul]
  rcases Nat.lt_or_ge (j * count) precision with hlt | hge
  · have hhalf : 2 * (halfStep precision base count * base ^ count) = 2 ^ precision := by
      rw [halfStep, hscale, ← Nat.pow_succ, Nat.pow_div hlt Nat.two_pos, Nat.mul_comm, Nat.mul_assoc, ← Nat.pow_succ,
        ← Nat.pow_add, Nat.sub_add_cancel hlt]
    omega
  · left
    have hnothing : m * base ^ count % 2 ^ precision = 0 := by
      rw [hscale]
      exact Nat.mod_eq_zero_of_dvd (Dvd.dvd.mul_left (Nat.pow_dvd_pow 2 hge) m)
    rw [hnothing]
    exact Nat.zero_le _

/-! ### The text that shows it -/

private theorem getLast?_withoutLastZeros (t : Text) : (withoutLastZeros t).getLast? ≠ some '0' := by
  rw [withoutLastZeros, List.getLast?_reverse]
  intro h
  have hne := List.head?_dropWhile_not (· == '0') t.reverse
  rw [h] at hne
  simp at hne

/-- The digits in front of the point and behind it, without the zeros at their end, are what is shown. -/
private theorem digits_eq_shown {m mantissa : Nat} {t : Text} (hbase : 0 < base)
    (h : IsFraction base precision count ((m + halfStep precision base count) % 2 ^ precision) t mantissa) :
    (((m + halfStep precision base count) / 2 ^ precision * base ^ t.length + mantissa : Nat) : Rat) / base ^ t.length =
      shown precision base count m / base ^ count := by
  have hpower : base ^ count = base ^ t.length * base ^ (count - t.length) := by
    rw [← Nat.pow_add, Nat.add_sub_cancel' h.length_le]
  have hshown : shown precision base count m =
      ((m + halfStep precision base count) / 2 ^ precision * base ^ t.length + mantissa) *
        base ^ (count - t.length) := by
    rw [Nat.add_mul, h.leading, Nat.mul_assoc, ← hpower, shown]
    conv_lhs => rw [← Nat.div_add_mod (m + halfStep precision base count) (2 ^ precision), Nat.add_mul, Nat.mul_assoc,
      Nat.mul_add_div (Nat.two_pow_pos precision)]
  have hzeros : (base ^ (count - t.length) : Rat) ≠ 0 := pow_ne_zero _ (by exact_mod_cast hbase.ne')
  have hpower' : (base ^ count : Rat) = base ^ t.length * base ^ (count - t.length) := by exact_mod_cast hpower
  rw [hshown, hpower', Nat.cast_mul, Nat.cast_pow, mul_div_mul_right _ _ hzeros]

/-- The text shows a multiple of what its last digit may be worth, without zeros that could be left out. -/
private theorem fixedText_writes (hbase : 2 ≤ base) (hbase' : base ≤ 36) (precision count : Nat) (v : Int) :
    ∃ whole fraction, fixedText precision base count v = writing (v < 0) whole fraction ∧
      (whole = ['0'] ∨ whole.head? ≠ some '0') ∧ fraction.length ≤ count ∧ fraction.getLast? ≠ some '0' ∧
      Writes base (fixedText precision base count v) (shownValue precision base count v) := by
  set magnitude := v.natAbs + halfStep precision base count with hmagnitude
  obtain ⟨_, hdigits⟩ := fractionDigits_isFraction count hbase hbase' (Nat.mod_lt magnitude (Nat.two_pow_pos precision))
  obtain ⟨mantissa, hfraction⟩ := hdigits.withoutLastZeros hbase
  have htext := fixedText_eq precision base count v
  have hlast := getLast?_withoutLastZeros (fractionDigits base precision count (magnitude % 2 ^ precision))
  simp only [← hmagnitude] at htext
  generalize withoutLastZeros _ = fraction at htext hlast hfraction
  refine ⟨_, fraction, htext, Text.ofNatBase_leading hbase hbase' _, hfraction.length_le, hlast, ?_⟩
  have hvalue := Text.natOfDigits_ofNatBase hbase hbase' (magnitude / 2 ^ precision)
  have hne := Text.ofNatBase_ne_nil hbase (magnitude / 2 ^ precision)
  generalize Text.ofNatBase base _ = whole at htext hvalue hne
  have hnumber : Text.natOfDigits base (whole ++ fraction) =
      some (magnitude / 2 ^ precision * base ^ fraction.length + mantissa) := by
    rw [Text.natOfDigits_append, hvalue, hfraction.value]
    rfl
  obtain ⟨ds, hds⟩ := Text.exists_hasDigits (Text.digitOf_of_natOfDigits hnumber)
  have hne' : ds ≠ [] := by
    rintro rfl
    exact hne (List.append_eq_nil_iff.mp (List.forall₂_nil_right_iff.mp hds)).1
  obtain ⟨sign, body, hwriting, hsign, hbody⟩ := writing_eq (v < 0) whole fraction
  have hwrites := Writes.mk (List.forall_mem_nil _) hsign hbody hds hne' (List.forall_mem_nil _)
  rw [← hwriting, ← htext, Option.some.inj (hds.natOfDigits.symm.trans hnumber),
    digits_eq_shown (by omega) hfraction] at hwrites
  simpa [shownValue] using hwrites

/-! ### How far it is from the number -/

section Distance
variable (hbase : 0 < base) (v : Int)
include hbase

/-- The distance, counted in what is common to the digits of the text and those of the number. -/
private theorem abs_shown_sub :
    |shownValue precision base count v - v / 2 ^ precision| =
      |(shown precision base count v.natAbs * 2 ^ precision - v.natAbs * base ^ count : Rat)| /
        (base ^ count * 2 ^ precision) := by
  have hdigit : (0 : Rat) < base ^ count := pow_pos (Nat.cast_pos.mpr hbase) count
  have hbit : (0 : Rat) < 2 ^ precision := by positivity
  have hcommon : (shown precision base count v.natAbs / base ^ count : Rat) - v.natAbs / 2 ^ precision =
      (shown precision base count v.natAbs * 2 ^ precision - v.natAbs * base ^ count) /
        (base ^ count * 2 ^ precision) := by
    rw [div_sub_div _ _ hdigit.ne' hbit.ne', mul_comm (v.natAbs : Rat)]
  rw [← abs_of_pos (mul_pos hdigit hbit), ← abs_div, ← hcommon, shownValue]
  split
  case isTrue hv =>
    have habs : (v.natAbs : Rat) = -v := by
      rw [Nat.cast_natAbs, abs_of_neg hv, Int.cast_neg]
    rw [habs, ← abs_neg]
    congr 1
    ring
  case isFalse hv =>
    have habs : (v.natAbs : Rat) = v := by
      rw [Nat.cast_natAbs, abs_of_nonneg (not_lt.mp hv)]
    rw [habs, one_mul]

private theorem abs_shown_sub_lt :
    |shownValue precision base count v - v / 2 ^ precision| < 1 / 2 / base ^ count + 1 / 2 ^ precision := by
  have hdigit : (0 : Rat) < base ^ count := pow_pos (Nat.cast_pos.mpr hbase) count
  have hbit : (0 : Rat) < 2 ^ precision := by positivity
  have hle : (2 * (shown precision base count v.natAbs * 2 ^ precision) : Rat) ≤
      2 * (v.natAbs * base ^ count) + 2 ^ precision := by exact_mod_cast shown_le hbase v.natAbs
  have hlt : (2 * (v.natAbs * base ^ count) : Rat) <
      2 * (shown precision base count v.natAbs * 2 ^ precision) + 2 ^ precision + 2 * base ^ count := by
    exact_mod_cast lt_shown hbase v.natAbs
  have hbound : (1 / 2 / base ^ count + 1 / 2 ^ precision : Rat) =
      (2 ^ precision / 2 + base ^ count) / (base ^ count * 2 ^ precision) := by field_simp
  rw [abs_shown_sub hbase, hbound, div_lt_div_iff_of_pos_right (mul_pos hdigit hbit), abs_lt]
  constructor <;> linarith

private theorem abs_shown_sub_le_iff :
    |shownValue precision base count v - v / 2 ^ precision| ≤ 1 / 2 / base ^ count ↔
      2 * (v.natAbs * base ^ count) ≤ 2 * (shown precision base count v.natAbs * 2 ^ precision) + 2 ^ precision := by
  have hdigit : (0 : Rat) < base ^ count := pow_pos (Nat.cast_pos.mpr hbase) count
  have hbit : (0 : Rat) < 2 ^ precision := by positivity
  have hle : (2 * (shown precision base count v.natAbs * 2 ^ precision) : Rat) ≤
      2 * (v.natAbs * base ^ count) + 2 ^ precision := by exact_mod_cast shown_le hbase v.natAbs
  have hbound : (1 / 2 / base ^ count : Rat) = 2 ^ precision / 2 / (base ^ count * 2 ^ precision) := by field_simp
  rw [abs_shown_sub hbase, hbound, div_le_div_iff_of_pos_right (mul_pos hdigit hbit), abs_le, ← @Nat.cast_le Rat]
  push_cast
  constructor
  · rintro ⟨h, -⟩
    linarith
  · intro h
    constructor <;> linarith

end Distance

/-- The text of a part in a base with at most `count` digits behind the point. It has no zeros that could be left out,
and what it shows is a multiple of what its last digit may be worth, off by less than half of that and one binary digit
together. It is within the half, and so the nearest multiple, exactly where the rest behind the digits is at most a half
or the half that is added carries; in a base that is a power of two it always is. -/
theorem fixedText_rounded (hbase : 2 ≤ base) (hbase' : base ≤ 36) (precision count : Nat) (v : Int) :
    ∃ whole fraction w, fixedText precision base count v = writing (v < 0) whole fraction ∧
      (whole = ['0'] ∨ whole.head? ≠ some '0') ∧ fraction.length ≤ count ∧ fraction.getLast? ≠ some '0' ∧
      Writes base (fixedText precision base count v) w ∧ (∃ k : Int, w = k / base ^ count) ∧
      |w - v / 2 ^ precision| < 1 / 2 / base ^ count + 1 / 2 ^ precision ∧
      (|w - v / 2 ^ precision| ≤ 1 / 2 / base ^ count ↔
        2 * (v.natAbs * base ^ count % 2 ^ precision) ≤ 2 ^ precision ∨
          2 ^ precision ≤ v.natAbs * base ^ count % 2 ^ precision + halfStep precision base count * base ^ count) ∧
      ∀ j, base = 2 ^ j → |w - v / 2 ^ precision| ≤ 1 / 2 / base ^ count := by
  have hpos : 0 < base := by omega
  obtain ⟨whole, fraction, htext, hleading, hlength, hlast, hwrites⟩ := fixedText_writes hbase hbase' precision count v
  refine ⟨whole, fraction, _, htext, hleading, hlength, hlast, hwrites, ?multiple, abs_shown_sub_lt hpos v, ?nearest,
    fun j hj => (abs_shown_sub_le_iff hpos v).mpr (shown_nearest_of_two_pow hj _)⟩
  case multiple =>
    refine ⟨(if v < 0 then -1 else 1) * shown precision base count v.natAbs, ?_⟩
    push_cast
    rw [shownValue, mul_div_assoc]
  case nearest =>
    rw [abs_shown_sub_le_iff hpos, shown_nearest_iff hpos]

/-- One quarter, at two binary digits, is shown as zero in base three with one digit, and one third is nearer. -/
theorem fixedText_not_nearest :
    ¬∀ (precision base count : Nat) (v : Int), 2 ≤ base → base ≤ 36 → ∀ w,
      Writes base (fixedText precision base count v) w → |w - v / 2 ^ precision| ≤ 1 / 2 / base ^ count := by
  intro h
  have htext : fixedText 2 3 1 1 = ['0'] := by decide +kernel
  have hwrites : Writes 3 (fixedText 2 3 1 1) 0 := by
    have hmk := @Writes.mk 3 [] [] _ [] ['0'] [] false [0] (List.forall_mem_nil _) .none (.without _)
      (.cons (by decide) .nil) (by decide) (List.forall_mem_nil _)
    rw [htext]
    simpa using hmk
  have hbound := h 2 3 1 1 (by decide) (by decide) 0 hwrites
  norm_num at hbound

end Reckoner.Bignum
