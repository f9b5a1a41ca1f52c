import Reckoner.Proofs.Literals.Spelling

/-! The value of a literal is made from the parts that it is spelled with: a plain decimal one is rounded from them as a
whole, every other is summed up digit by digit. There is always a value but for a first digit that the base does not
have and an exponent of more than 32 bits, neither of which hurts a plain decimal. -/
namespace Reckoner

namespace Text
variable {p : Char → Bool} {s t : Text}

theorem takeWhile_run (hs : ∀ c ∈ s, p c) (ht : ∀ c ∈ t.head?, p c = false) : (s ++ t).takeWhile p = s := by
  have hnone : t.takeWhile p = [] := by
    cases t with
    | nil => rfl
    | cons c t => exact List.takeWhile_cons_of_neg (by simp [ht c rfl])
  rw [List.takeWhile_append_of_pos hs, hnone, List.append_nil]

private theorem dropWhile_run (hs : ∀ c ∈ s, p c) (ht : ∀ c ∈ t.head?, p c = false) : (s ++ t).dropWhile p = t := by
  have hsplit := List.takeWhile_append_dropWhile (p := p) (l := s ++ t)
  rw [takeWhile_run hs ht] at hsplit
  exact List.append_cancel_left hsplit

end Text

namespace Binary64
variable {t : Text}

private theorem splitSign_eq (h : ∀ c ∈ t.head?, c ≠ '-' ∧ c ≠ '+') : splitSign t = (false, t) := by
  unfold splitSign
  split
  · exact absurd rfl (h '-' rfl).1
  · exact absurd rfl (h '+' rfl).2
  · rfl

private theorem ne_sign_of_isDigit {c : Char} (h : c.isDigit) : c ≠ '-' ∧ c ≠ '+' := by
  refine ⟨?_, ?_⟩ <;> rintro rfl <;> exact absurd h (by decide)

/-- Every spelled exponent is an integer. -/
private theorem readInt_isSome {sign digits : Text} (h : Numeral.IsExponent sign digits) :
    (readInt (sign ++ digits)).isSome := by
  have hdigits : digits.all Char.isDigit := List.all_eq_true.mpr h.decimal
  have hnonempty : digits.isEmpty = false := by simpa using h.nonempty
  have hsplit : ∃ negative, splitSign (sign ++ digits) = (negative, digits) := by
    obtain rfl | rfl | rfl := h.signed
    · refine ⟨false, splitSign_eq fun c hc => ?_⟩
      exact ne_sign_of_isDigit (h.decimal c (List.mem_of_mem_head? hc))
    · exact ⟨false, rfl⟩
    · exact ⟨true, rfl⟩
  obtain ⟨negative, hnegative⟩ := hsplit
  simp [readInt, hnegative, hdigits, hnonempty]

end Binary64

namespace Numeral

open Binary64 (readInt decimalValue ofDecimal splitFraction)
open Text (isDigitOf digitOf)

/-- The number that the digits of a decimal literal and its exponent stand for, rounded once. -/
def Literal.decimal (literal : Literal) : Option Float :=
  let (whole, fraction) := literal.digits
  let value (e : Int) := ofDecimal false (decimalValue (whole ++ fraction)) (e - fraction.length)
  (literal.exponent.elim (some 0) readInt).map value

def Literal.value (ambient : Nat) (literal : Literal) : Option Float :=
  if literal.isPlain ambient then literal.decimal else literal.scaled ambient

private theorem Behind.not_isDigit {base : Nat} {exponent : Option Text} {behind : Text}
    (h : Behind base exponent behind) :
    ∀ c ∈ behind.head?, c.isDigit = false := by
  intro c hc
  obtain rfl | rfl := h.head c hc
  · rfl
  · rfl

/-- Decimal digits with a point among them and an exponent behind are read as they are spelled. -/
private theorem readPositional_eq {whole fraction behind : Text} {exponent : Option Text} {base : Nat} (negative : Bool)
    (hwhole : ∀ c ∈ whole, c.isDigit) (hfraction : ∀ c ∈ fraction, c.isDigit) (hne : whole ++ fraction ≠ [])
    (hbehind : Behind base exponent behind) :
    Binary64.readPositional negative (pointed whole fraction ++ behind) =
      (exponent.elim (some 0) readInt).map fun e =>
        ofDecimal negative (decimalValue (whole ++ fraction)) (e - fraction.length) := by
  have hend := hbehind.not_isDigit
  have hempty : (whole.isEmpty && fraction.isEmpty) = false := by
    cases whole with
    | cons c whole => rfl
    | nil => simpa using hne
  have hparts : (pointed whole fraction ++ behind).takeWhile Char.isDigit = whole ∧
      splitFraction ((pointed whole fraction ++ behind).dropWhile Char.isDigit) = (fraction, behind) := by
    cases fraction with
    | nil =>
      rw [pointed_nil, Text.takeWhile_run hwhole hend, Text.dropWhile_run hwhole hend]
      refine ⟨rfl, ?_⟩
      cases hbehind with
      | none => rfl
      | exponent he hletter hexponent =>
        obtain rfl | rfl := hletter
        · rfl
        · rfl
    | cons d fraction =>
      have hpoint : ∀ c ∈ ('.' :: (d :: fraction ++ behind)).head?, c.isDigit = false := by
        intro c hc
        obtain rfl := Option.some.inj hc
        rfl
      rw [pointed_cons, List.append_assoc, List.cons_append, Text.takeWhile_run hwhole hpoint,
        Text.dropWhile_run hwhole hpoint, splitFraction, Text.takeWhile_run hfraction hend,
        Text.dropWhile_run hfraction hend]
      exact ⟨rfl, rfl⟩
  unfold Binary64.readPositional
  simp only [hparts, hempty]
  cases hbehind with
  | none => rfl
  | exponent he hletter hexponent =>
    simp only [hletter, if_true]
    rfl

private theorem toLower_of_isDigit {c : Char} (h : c.isDigit) : c.toLower = c := by
  have hrange : 48 ≤ c.val ∧ c.val ≤ 57 := by simpa [Char.isDigit] using h
  unfold Char.toLower
  rw [dif_neg]
  rintro ⟨hupper, -⟩
  exact absurd (UInt32.le_trans hupper hrange.2) (by decide)

/-- What starts with a digit or a point is no word for a number, and has no sign. -/
private theorem read_unsigned {t : Text} (hne : t ≠ []) (h : ∀ c ∈ t.head?, c = '.' ∨ c.isDigit) :
    Binary64.read t = Binary64.readPositional false t := by
  cases t with
  | nil => exact absurd rfl hne
  | cons c t =>
    have hc : c.toLower ≠ 'i' ∧ c.toLower ≠ 'n' := by
      obtain rfl | hc := h c rfl
      · exact ⟨by decide, by decide⟩
      · rw [toLower_of_isDigit hc]
        refine ⟨?_, ?_⟩ <;> rintro rfl <;> exact absurd hc (by decide)
    have hsign : Binary64.splitSign (c :: t) = (false, c :: t) := by
      apply Binary64.splitSign_eq
      intro d hd
      obtain rfl := Option.some.inj hd
      obtain rfl | hc := h c rfl
      · exact ⟨by decide, by decide⟩
      · exact Binary64.ne_sign_of_isDigit hc
    have hinf : ¬((c :: t).map Char.toLower = "inf".toList ∨ (c :: t).map Char.toLower = "infinity".toList) := by
      rintro (h | h) <;> exact hc.1 (List.cons.inj h).1
    have hnan : (c :: t).map Char.toLower ≠ "nan".toList := fun h => hc.2 (List.cons.inj h).1
    simp only [Binary64.read, hsign, if_neg hinf, if_neg hnan]

namespace Literal.Spelled
variable {ambient : Nat} {literal : Literal} {front whole fraction behind : Text}

/-- Every plain decimal literal is read as the number that its parts stand for. -/
private theorem read_plain (h : literal.Spelled ambient front whole fraction behind)
    (hplain : literal.isPlain ambient) :
    Binary64.read (front ++ literal.mantissa ++ behind) = literal.decimal := by
  obtain ⟨rfl, hmarked⟩ : ambient = 10 ∧ literal.marked = none := by simpa [Literal.isPlain] using hplain
  have hdecimal : ∀ c ∈ whole ++ fraction, c.isDigit := by
    intro c hc
    obtain hd | ⟨-, hd⟩ := h.digit c hc
    · rw [Literal.base, hmarked] at hd
      exact Text.isDigit_of_isDigitOf_ten hd
    · exact hd
  have hfront : front = [] := by
    have hprefixed := h.prefixed
    rw [hmarked] at hprefixed
    cases hprefixed
    rfl
  have hhead : ∀ c ∈ (literal.mantissa ++ behind).head?, c = '.' ∨ c.isDigit := by
    intro c hc
    obtain ⟨d, others, hm⟩ := List.exists_cons_of_ne_nil h.mantissa_ne_nil
    have hmem : c ∈ literal.mantissa := by
      rw [hm] at hc ⊢
      obtain rfl := Option.some.inj hc
      exact List.mem_cons_self
    rw [h.mantissa] at hmem
    exact (mem_pointed hmem).imp_right (hdecimal c)
  have hne : literal.mantissa ++ behind ≠ [] := List.append_ne_nil_of_left_ne_nil h.mantissa_ne_nil behind
  rw [hfront, List.nil_append, read_unsigned hne hhead, h.mantissa,
    readPositional_eq false (fun c hc => hdecimal c (List.mem_append_left _ hc))
      (fun c hc => hdecimal c (List.mem_append_right _ hc)) h.nonempty h.ended, Literal.decimal, h.digits_eq]

/-- What the reader makes of a literal is the value of the parts that it is spelled with. -/
private theorem read_eq (h : literal.Spelled ambient front whole fraction behind) :
    read ambient (front ++ literal.mantissa ++ behind) = literal.value ambient := by
  unfold read Literal.value
  simp only [h.takeApart_eq]
  split
  · rename_i hplain
    exact h.read_plain hplain
  · rfl

end Literal.Spelled

private theorem foldlM_isSome {α : Type} {f : α → Char → Option α} {p : Char → Bool} (hf : ∀ a c, (f a c).isSome = p c)
    (a : α)
    (t : Text) : (t.foldlM f a).isSome ↔ ∀ c ∈ t, p c := by
  induction t generalizing a with
  | nil => simp
  | cons c t ih =>
    rw [List.foldlM_cons, List.forall_mem_cons, ← hf a c]
    cases hc : f a c with
    | none => simp
    | some b => simpa using ih b

private theorem wholeValue_isSome (base : Nat) (t : Text) :
    (wholeValue base t).isSome ↔ ∀ c ∈ t, (digitOf base c).isSome :=
  foldlM_isSome (p := fun c => (digitOf base c).isSome) (fun _ _ => Option.isSome_map) 0.0 t

private theorem addFraction_isSome (base : Nat) (value : Float) (t : Text) :
    (addFraction base value t).isSome ↔ ∀ c ∈ t, (digitOf base c).isSome := by
  unfold addFraction
  rw [Option.map_eq_map, Option.isSome_map]
  exact foldlM_isSome (p := fun c => (digitOf base c).isSome) (fun _ _ => Option.isSome_map) (value, 1.0) t

private theorem readExponent_isSome {t : Text} {n : Int} (h : readInt t = some n) :
    (readExponent t).isSome ↔ -0x80000000 ≤ n ∧ n < 0x80000000 := by
  rw [readExponent, h]
  simp

private theorem markedBase_range {ambient base : Nat} {letter : Char}
    (h : Lexeme.markedBase ambient letter = some base) :
    2 ≤ base ∧ base ≤ 36 := by
  unfold Lexeme.markedBase at h
  split at h
  · cases h
  · split at h <;> simp only [Option.some.injEq, reduceCtorEq] at h <;> omega

def Literal.Strays (ambient : Nat) (literal : Literal) (t : Text) : Prop :=
  ∃ c ∈ t.find? (· ≠ '.'), isDigitOf (literal.base ambient) c = false

def Literal.Overflows (literal : Literal) : Prop :=
  ∃ e ∈ literal.exponent, ∃ n, readInt e = some n ∧ ¬(-0x80000000 ≤ n ∧ n < 0x80000000)

namespace Literal.Spelled
variable {ambient : Nat} {literal : Literal} {front whole fraction behind : Text}

private theorem base_range (h : literal.Spelled ambient front whole fraction behind)
    (hambient : 2 ≤ ambient ∧ ambient ≤ 36) :
    2 ≤ literal.base ambient ∧ literal.base ambient ≤ 36 := by
  have hprefixed := h.prefixed
  rw [Literal.base]
  generalize literal.marked = marked at hprefixed ⊢
  cases hprefixed with
  | plain => exact hambient
  | marked hletter => exact markedBase_range hletter

private theorem scaled_isSome (h : literal.Spelled ambient front whole fraction behind) :
    (literal.scaled ambient).isSome ↔ (∀ c ∈ whole ++ fraction, (digitOf (literal.base ambient) c).isSome) ∧
      ∀ e ∈ literal.exponent, (readExponent e).isSome := by
  have hguard : (!(whole.isEmpty && fraction.isEmpty)) = true := by
    cases whole with
    | cons c whole => rfl
    | nil => simpa using h.nonempty
  have hwhole := wholeValue_isSome (literal.base ambient) whole
  unfold Literal.scaled
  simp only [h.digits_eq, hguard, guard_true, List.forall_mem_append, ← hwhole]
  rw [← Literal.base]
  cases hvalue : wholeValue (literal.base ambient) whole with
  | none => simp
  | some value =>
    have hfraction := addFraction_isSome (literal.base ambient) value fraction
    simp only [← hfraction]
    cases hvalue' : addFraction (literal.base ambient) value fraction with
    | none => simp [hvalue']
    | some value' =>
      cases hexponent : literal.exponent with
      | none => simp [hvalue']
      | some exponent =>
        cases hread : readExponent exponent with
        | none => simp [hread]
        | some n => simp [hvalue', hread]

/-- All digits belong to the base unless the first one strays. -/
private theorem digits_iff (h : literal.Spelled ambient front whole fraction behind) :
    (∀ c ∈ whole ++ fraction, isDigitOf (literal.base ambient) c) ↔
      ¬literal.Strays ambient (front ++ literal.mantissa ++ behind) := by
  have hothers := h.others
  have hdigit := h.digit
  rw [Literal.Strays, h.find_eq]
  cases hmarked : literal.marked with
  | some marked =>
    refine iff_of_true ?_ ?_
    · intro c hc
      exact (hdigit c hc).resolve_right (by simp [hmarked])
    · rintro ⟨c, hc, hstray⟩
      obtain rfl := Option.some.inj hc
      rw [Text.isDigitOf_zero] at hstray
      exact absurd hstray (by decide)
  | none =>
    cases hdigits : whole ++ fraction with
    | nil => exact absurd hdigits h.nonempty
    | cons d others =>
      rw [hdigits, List.tail_cons] at hothers
      rw [List.forall_mem_cons, and_iff_left hothers]
      simp

private theorem exponent_iff (h : literal.Spelled ambient front whole fraction behind) :
    (∀ e ∈ literal.exponent, (readExponent e).isSome) ↔ ¬literal.Overflows := by
  have hended := h.ended
  unfold Literal.Overflows
  generalize literal.exponent = exponent at hended ⊢
  cases hended with
  | none => simp
  | exponent he hletter hexponent =>
    obtain ⟨n, hn⟩ := Option.isSome_iff_exists.mp (Binary64.readInt_isSome hexponent)
    simp [readExponent_isSome hn, hn]

private theorem decimal_isSome (h : literal.Spelled ambient front whole fraction behind) : literal.decimal.isSome := by
  have hended := h.ended
  unfold Literal.decimal
  rw [Option.isSome_map]
  generalize literal.exponent = exponent at hended ⊢
  cases hended with
  | none => rfl
  | exponent he hletter hexponent => exact Binary64.readInt_isSome hexponent

/-- A plain decimal literal always has a value, and every other has one unless its first digit is none of its base or
its exponent is out of range. -/
private theorem value_isSome (h : literal.Spelled ambient front whole fraction behind)
    (hambient : 2 ≤ ambient ∧ ambient ≤ 36) :
    (literal.value ambient).isSome ↔
      ¬(literal.isPlain ambient = false ∧ literal.Strays ambient (front ++ literal.mantissa ++ behind)) ∧
        ¬(literal.isPlain ambient = false ∧ literal.Overflows) := by
  obtain ⟨hbase, hbase'⟩ := h.base_range hambient
  unfold Literal.value
  cases hplain : literal.isPlain ambient with
  | true => simpa using h.decimal_isSome
  | false =>
    have hdigits : (∀ c ∈ whole ++ fraction, (digitOf (literal.base ambient) c).isSome) ↔
        ¬literal.Strays ambient (front ++ literal.mantissa ++ behind) := by
      simp only [← h.digits_iff, Text.isDigitOf_iff hbase hbase']
    simpa using h.scaled_isSome.trans (and_congr hdigits h.exponent_iff)

end Literal.Spelled

/-- The reader takes the text apart into the parts of the literal and makes its value from them. There is one unless the
literal is no plain decimal and its first digit strays or its exponent overflows. -/
structure Literal.ReadFrom (ambient : Nat) (literal : Literal) (t : Text) : Prop where
  parts : takeApart ambient t = literal
  value : read ambient t = literal.value ambient
  readable : (read ambient t).isSome ↔ ¬(literal.isPlain ambient = false ∧ literal.Strays ambient t) ∧
    ¬(literal.isPlain ambient = false ∧ literal.Overflows)

/-- What is spelled as a literal is read as it. -/
theorem Literal.SpelledAs.readFrom {ambient : Nat} {literal : Literal} {t : Text} (h : literal.SpelledAs ambient t)
    (hambient : 2 ≤ ambient ∧ ambient ≤ 36) : literal.ReadFrom ambient t := by
  obtain ⟨front, whole, fraction, behind, hspelled, rfl⟩ := h
  refine ⟨hspelled.takeApart_eq, hspelled.read_eq, ?_⟩
  rw [hspelled.read_eq]
  exact hspelled.value_isSome hambient

end Numeral
end Reckoner
