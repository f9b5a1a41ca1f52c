import Mathlib.Data.List.TakeWhile
import Mathlib.Tactic.Linarith
import Reckoner.Proofs.Bignum.Reading

/-! Texts of bignums read back. The digits behind the point are the fraction cut off at their number, also when they
stop early or lose the zeros at their end; with one binary digit to spare, reading rounds what was cut off back up. -/
namespace Reckoner.Bignum

variable {base precision count rest whole mantissa : Nat} {t : Text}

/-- The digits behind a point are the leading `count` ones of `rest / 2 ^ precision`, less zeros at the end. -/
structure IsFraction (base precision count rest : Nat) (t : Text) (mantissa : Nat) : Prop where
  value : Text.natOfDigits base t = some mantissa
  length_le : t.length ≤ count
  leading : mantissa * base ^ (count - t.length) = rest * base ^ count / 2 ^ precision

/-- One more digit in front: the whole part of `rest * base`, which leaves its remainder for the digits behind. -/
private theorem IsFraction.cons (h : IsFraction base precision count (rest * base % 2 ^ precision) t mantissa)
    (hrest : rest < 2 ^ precision) (hbase : 2 ≤ base) (hbase' : base ≤ 36) :
    IsFraction base precision (count + 1) rest (Text.digitChar (rest * base / 2 ^ precision) :: t)
      (rest * base / 2 ^ precision * base ^ t.length + mantissa) where
  value := by
    have hdigit : rest * base / 2 ^ precision < base := by
      rw [Nat.div_lt_iff_lt_mul (by positivity), Nat.mul_comm base]
      exact Nat.mul_lt_mul_of_pos_right hrest (by omega)
    rw [Text.natOfDigits_cons (Text.digitOf_digitChar hdigit hbase'), h.value]
    rfl
  length_le := Nat.succ_le_succ h.length_le
  leading := by
    have hpower : base ^ t.length * base ^ (count - t.length) = base ^ count := by
      rw [← Nat.pow_add, Nat.add_sub_cancel' h.length_le]
    have hsplit : rest * base ^ (count + 1) =
        rest * base % 2 ^ precision * base ^ count + rest * base / 2 ^ precision * base ^ count * 2 ^ precision := by
      calc rest * base ^ (count + 1) = rest * base * base ^ count := by ring
        _ = (rest * base % 2 ^ precision + 2 ^ precision * (rest * base / 2 ^ precision)) * base ^ count := by
          rw [Nat.mod_add_div]
        _ = _ := by ring
    rw [hsplit, Nat.add_mul_div_right _ _ (by positivity), ← h.leading, List.length_cons, Nat.add_sub_add_right,
      Nat.add_mul, Nat.mul_assoc, hpower, Nat.add_comm]

theorem fractionDigits_isFraction (count : Nat) (hbase : 2 ≤ base) (hbase' : base ≤ 36) (hrest : rest < 2 ^ precision) :
    ∃ mantissa, IsFraction base precision count rest (fractionDigits base precision count rest) mantissa := by
  induction count generalizing rest with
  | zero => exact ⟨0, rfl, le_rfl, by simp [Nat.div_eq_of_lt hrest]⟩
  | succ count ih =>
    rw [fractionDigits]
    split
    · subst rest
      exact ⟨0, rfl, Nat.zero_le _, by simp⟩
    · simp only [Nat.shiftLeft_eq, Nat.shiftRight_eq_div_pow, Nat.one_mul]
      obtain ⟨m, hm⟩ := ih (Nat.mod_lt (rest * base) (by positivity))
      exact ⟨_, hm.cons hrest hbase hbase'⟩

theorem IsFraction.withoutLastZeros (h : IsFraction base precision count rest t mantissa) (hbase : 2 ≤ base) :
    ∃ mantissa, IsFraction base precision count rest (withoutLastZeros t) mantissa := by
  obtain ⟨zeros, hsplit, hzeros⟩ : ∃ zeros, t = Bignum.withoutLastZeros t ++ zeros ∧ ∀ c ∈ zeros, c = '0' := by
    refine ⟨(t.reverse.takeWhile (· == '0')).reverse, ?_, ?_⟩
    · rw [Bignum.withoutLastZeros, ← List.reverse_append, List.takeWhile_append_dropWhile, List.reverse_reverse]
    · intro c hc
      simpa using List.mem_takeWhile_imp (List.mem_reverse.mp hc)
  generalize Bignum.withoutLastZeros t = u at hsplit ⊢
  subst hsplit
  have hvalue := h.value
  rw [Text.natOfDigits_append, Text.natOfDigits_zeros (by omega) hzeros] at hvalue
  obtain ⟨m, hm, hmantissa⟩ := Option.bind_eq_some_iff.mp hvalue
  obtain rfl : m * base ^ zeros.length = mantissa := by simpa using hmantissa
  have hlength := h.length_le
  rw [List.length_append] at hlength
  refine ⟨m, hm, by omega, ?_⟩
  rw [← h.leading, Nat.mul_assoc, ← Nat.pow_add, List.length_append]
  congr 2
  omega

/-- What was cut off is less than half of the last binary digit, and reading rounds it up again. -/
private theorem rounded_eq (whole : Nat) (hmore : 2 ^ (precision + 1) ≤ base ^ count)
    (h : IsFraction base precision count rest t mantissa) :
    ((whole * base ^ t.length + mantissa) * 2 ^ precision + base ^ t.length / 2) / base ^ t.length =
      whole * 2 ^ precision + rest := by
  have hpower : base ^ t.length * base ^ (count - t.length) = base ^ count := by
    rw [← Nat.pow_add, Nat.add_sub_cancel' h.length_le]
  have hpos : 0 < base ^ t.length * base ^ (count - t.length) := by
    rw [hpower]
    exact lt_of_lt_of_le (by positivity) hmore
  obtain ⟨hpowerPos, hscale⟩ : 0 < base ^ t.length ∧ 0 < base ^ (count - t.length) :=
    ⟨Nat.pos_of_mul_pos_right hpos, Nat.pos_of_mul_pos_left hpos⟩
  have hlow : mantissa * base ^ (count - t.length) * 2 ^ precision ≤ rest * base ^ count :=
    h.leading ▸ Nat.div_mul_le_self _ _
  have hhigh : rest * base ^ count < mantissa * base ^ (count - t.length) * 2 ^ precision + 2 ^ precision := by
    rw [h.leading]
    exact Nat.lt_div_mul_add (by positivity)
  rw [← hpower] at hlow hhigh hmore
  generalize base ^ (count - t.length) = scale at hlow hhigh hmore hscale
  generalize base ^ t.length = power at hlow hhigh hmore hpowerPos
  have hbelow : mantissa * 2 ^ precision ≤ rest * power := by
    refine Nat.le_of_mul_le_mul_right ?_ hscale
    linarith
  have habove : 2 * (rest * power) < 2 * (mantissa * 2 ^ precision) + power := by
    refine Nat.lt_of_mul_lt_mul_right (a := scale) ?_
    rw [Nat.pow_succ] at hmore
    linarith
  have hwhole :
      (whole * power + mantissa) * 2 ^ precision = whole * 2 ^ precision * power + mantissa * 2 ^ precision := by
    ring
  refine Nat.div_eq_of_lt_le ?_ ?_
  · rw [hwhole, Nat.add_mul]
    omega
  · rw [hwhole, Nat.add_mul, Nat.add_mul]
    omega

def writing (negative : Bool) (whole fraction : Text) : Text :=
  (if negative then ['-'] else []) ++ whole ++ (if fraction.isEmpty then [] else '.' :: fraction)

theorem writing_eq (negative : Bool) (whole fraction : Text) :
    ∃ sign body, writing negative whole fraction = [] ++ (sign ++ body) ++ [] ∧ IsSign sign negative ∧
      Pointed body whole fraction := by
  have hbody : Pointed (whole ++ if fraction.isEmpty then [] else '.' :: fraction) whole fraction := by
    cases fraction with
    | nil => simpa using Pointed.without whole
    | cons c fraction => exact .within whole (c :: fraction)
  cases negative with
  | true => exact ⟨_, _, by simp [writing], .minus, hbody⟩
  | false => exact ⟨_, _, by simp [writing], .none, hbody⟩

private theorem parse_writing {negative : Bool} {fraction : Text} {m n : Nat} (hbase : 2 ≤ base) (hbase' : base ≤ 36)
    (hne : t ≠ []) (hwhole : Text.natOfDigits base t = some m) (hfraction : Text.natOfDigits base fraction = some n) :
    parse base precision (writing negative t fraction) =
      let magnitude : Nat := ((m * base ^ fraction.length + n) * 2 ^ precision + base ^ fraction.length / 2) /
        base ^ fraction.length
      some ⟨if negative then -magnitude else magnitude, 0, precision, .dimensionless⟩ := by
  have hmantissa : Text.natOfDigits base (t ++ fraction) = some (m * base ^ fraction.length + n) := by
    rw [Text.natOfDigits_append, hwhole, hfraction]
    rfl
  obtain ⟨sign, body, hwriting, hsign, hbody⟩ := writing_eq negative t fraction
  rw [hwriting]
  exact parse_written hbase hbase' (List.forall_mem_nil _) hsign hbody (List.append_ne_nil_of_left_ne_nil hne _)
    hmantissa (List.forall_mem_nil _)

/-- What is added before the digits are cut off: half of what the last one is worth, rounded down. -/
def halfStep (precision base count : Nat) : Nat := 2 ^ precision / (base ^ count * 2)

theorem fixedText_eq (precision base count : Nat) (value : Int) :
    fixedText precision base count value =
      let magnitude := value.natAbs + halfStep precision base count
      writing (value < 0) (Text.ofNatBase base (magnitude / 2 ^ precision))
        (withoutLastZeros (fractionDigits base precision count (magnitude % 2 ^ precision))) := by
  have hshift : (1 <<< precision : Nat) = 2 ^ precision := by rw [Nat.shiftLeft_eq, Nat.one_mul]
  rw [fixedText, Nat.pow_eq, hshift, ← halfStep, Nat.shiftRight_eq_div_pow]
  simp only [writing, decide_eq_true_eq]

/-- With so many digits nothing is left to be rounded. -/
private theorem halfStep_eq_zero (hmore : 2 ^ (precision + 1) ≤ base ^ count) : halfStep precision base count = 0 := by
  rw [Nat.pow_succ] at hmore
  have hpos := Nat.two_pow_pos precision
  exact Nat.div_eq_of_lt (by omega)

private theorem parse_fixedText (hbase : 2 ≤ base) (hbase' : base ≤ 36) (hmore : 2 ^ (precision + 1) ≤ base ^ count)
    (value : Int) :
    parse base precision (fixedText precision base count value) = some ⟨value, 0, precision, .dimensionless⟩ := by
  obtain ⟨_, hdigits⟩ := fractionDigits_isFraction count hbase hbase'
    (Nat.mod_lt value.natAbs (Nat.two_pow_pos precision))
  obtain ⟨m, hm⟩ := hdigits.withoutLastZeros hbase
  have hmagnitude := rounded_eq (value.natAbs / 2 ^ precision) hmore hm
  rw [fixedText_eq, halfStep_eq_zero hmore, Nat.add_zero, parse_writing hbase hbase' (Text.ofNatBase_ne_nil hbase _)
    (Text.natOfDigits_ofNatBase hbase hbase' _) hm.value, hmagnitude, Nat.mul_comm, Nat.div_add_mod]
  simp only [decide_eq_true_eq]
  split
  · rw [show -(value.natAbs : Int) = value by omega]
  · rw [show (value.natAbs : Int) = value by omega]

private theorem toText_eq_fixedText {x : Bignum} (hreal : x.im = 0) (hplain : x.dimension = .dimensionless)
    (base count : Nat) :
    x.toText base count = fixedText x.precision base count x.re := by
  rw [toText, if_pos hreal, hplain]
  rfl

/-- A real number without a dimension is read back from its text in any base, when the digits behind the point are
worth one binary digit more than its precision; so it is from a hexadecimal text, which belongs to no other number. -/
theorem parse_toText (x : Bignum) (hreal : x.im = 0) (hplain : x.dimension = .dimensionless) :
    (∀ base count, 2 ≤ base → base ≤ 36 → 2 ^ (x.precision + 1) ≤ base ^ count →
      parse base x.precision (x.toText base count) = some x) ∧
    parse 16 x.precision (x.toText 16 (x.precision / 4 + 1)) = some x ∧
    ∀ y : Bignum, y.im = 0 → y.dimension = .dimensionless → y.precision = x.precision →
      y.toText 16 (x.precision / 4 + 1) = x.toText 16 (x.precision / 4 + 1) → y = x := by
  have hread (x : Bignum) (hreal : x.im = 0) (hplain : x.dimension = .dimensionless) (base count : Nat)
      (hbase : 2 ≤ base) (hbase' : base ≤ 36) (hmore : 2 ^ (x.precision + 1) ≤ base ^ count) :
      parse base x.precision (x.toText base count) = some x := by
    rw [toText_eq_fixedText hreal hplain, parse_fixedText hbase hbase' hmore, ← hreal, ← hplain]
  have hdigits : 2 ^ (x.precision + 1) ≤ 16 ^ (x.precision / 4 + 1) := by
    calc 2 ^ (x.precision + 1) ≤ 2 ^ (4 * (x.precision / 4 + 1)) := Nat.pow_le_pow_right (by decide) (by omega)
      _ = 16 ^ (x.precision / 4 + 1) := Nat.pow_mul 2 4 _
  have hhex := hread x hreal hplain 16 _ (by decide) (by decide) hdigits
  refine ⟨hread x hreal hplain, hhex, ?_⟩
  intro y hreal' hplain' hprecision htext
  have hhex' := hread y hreal' hplain' 16 _ (by decide) (by decide) (hprecision ▸ hdigits)
  rw [hprecision, htext, hhex] at hhex'
  exact (Option.some.inj hhex').symm

/-- Five eighths below zero do not end in base three: one digit behind the third would follow. -/
theorem parse_toText_of_ternary :
    toText 3 3 ⟨-5, 0, 3, .dimensionless⟩ = "-0.121".toList ∧ 2 ^ (3 + 1) ≤ 3 ^ 3 ∧
      parse 3 3 "-0.121".toList = some ⟨-5, 0, 3, .dimensionless⟩ := by
  have htext : toText 3 3 ⟨-5, 0, 3, .dimensionless⟩ = "-0.121".toList := by decide +kernel
  refine ⟨htext, by decide, ?_⟩
  rw [← htext]
  exact (parse_toText ⟨-5, 0, 3, .dimensionless⟩ rfl rfl).1 3 3 (by decide) (by decide) (by decide)

end Reckoner.Bignum
