import Reckoner.Numeral
import Reckoner.Proofs.Digits
import Reckoner.Proofs.Joining

/-! How number literals are spelled: perhaps a zero and a letter that selects the base, digits with at most one point
among them, and perhaps an exponent behind a letter that is no digit of the base. The reader takes every literal that
is spelled so apart as it is spelled, and makes its value from the parts. -/
namespace Reckoner

namespace Text
variable {base : Nat} {c : Char}

private theorem digitValue_of_isDigitOf (h : isDigitOf base c) : (digitValue c).isSome := by
  rw [isDigitOf, digitOf] at h
  cases hvalue : digitValue c with
  | none => simp [hvalue] at h
  | some _ => rfl

theorem isDigitOf_iff (hbase : 2 ≤ base) (hbase' : base ≤ 36) : isDigitOf base c ↔ (digitOf base c).isSome := by
  rw [isDigitOf, Nat.min_eq_left hbase', Nat.max_eq_right hbase]

theorem isDigitOf_zero (base : Nat) : isDigitOf base '0' := by
  have hvalue : digitValue '0' = some 0 := rfl
  rw [isDigitOf, digitOf, hvalue]
  simp only [Option.isSome_filter, Option.any_some, decide_eq_true_eq]
  omega

/-- Both letters of an exponent are digits of the same bases. -/
private theorem isDigitOf_upper (base : Nat) : isDigitOf base 'E' = isDigitOf base 'e' := rfl

theorem isDigit_of_isDigitOf_ten (h : isDigitOf 10 c) : c.isDigit := by
  have hten : max 2 (min 10 36) = 10 := rfl
  rw [isDigitOf, hten, digitOf, Option.isSome_filter, digitValue] at h
  split at h
  · rename_i hc
    simpa [Char.isDigit, Char.le_def] using hc
  · split at h
    · simp at h
    · split at h
      · simp at h
      · simp at h

private theorem ne_of_digitValue {d : Char} (h : (digitValue c).isSome) (hd : digitValue d = none) : c ≠ d := by
  rintro rfl
  rw [hd] at h
  exact absurd h (by decide)

private theorem utf8Size_of_digitValue (h : (digitValue c).isSome) : c.utf8Size = 1 := by
  have hrange := range_of_digitValue h
  rw [Char.utf8Size_eq_one_iff, UInt32.le_iff_toNat_le]
  exact le_trans hrange.2 (by decide)

private theorem byteLength_of_forall {t : Text} (h : ∀ c ∈ t, c.utf8Size = 1) : byteLength t = t.length := by
  induction t with
  | nil => rfl
  | cons c t ih =>
    obtain ⟨hc, ht⟩ := List.forall_mem_cons.mp h
    rw [byteLength_cons, hc, ih ht, List.length_cons, Nat.add_comm]

end Text

namespace Numeral

open Text (isDigitOf digitValue)

def pointed (whole fraction : Text) : Text := if fraction.isEmpty then whole else whole ++ '.' :: fraction

theorem pointed_nil (whole : Text) : pointed whole [] = whole := rfl

theorem pointed_cons (whole : Text) (c : Char) (fraction : Text) :
    pointed whole (c :: fraction) = whole ++ '.' :: c :: fraction := rfl

theorem cons_pointed (c : Char) (whole fraction : Text) :
    c :: pointed whole fraction = pointed (c :: whole) fraction := by
  cases fraction with
  | nil => rfl
  | cons d fraction => rfl

theorem mem_pointed {c : Char} {whole fraction : Text} (h : c ∈ pointed whole fraction) :
    c = '.' ∨ c ∈ whole ++ fraction := by
  cases fraction with
  | nil => exact .inr (List.mem_append_left [] h)
  | cons d fraction =>
    rw [pointed_cons, List.mem_append, List.mem_cons] at h
    rw [List.mem_append]
    obtain h | h | h := h
    · exact .inr (.inl h)
    · exact .inl h
    · exact .inr (.inr h)

/-- What stands in front of the digits: nothing, or a zero and the letter that selects the base. -/
inductive Front (ambient : Nat) : Option Nat → Text → Prop
  | plain : Front ambient none []
  | marked {letter : Char} {base : Nat} :
    Lexeme.markedBase ambient letter = some base → Front ambient (some base) ['0', letter]

structure IsExponent (sign digits : Text) : Prop where
  signed : sign = [] ∨ sign = ['+'] ∨ sign = ['-']
  decimal : ∀ c ∈ digits, c.isDigit
  nonempty : digits ≠ []

inductive Behind (base : Nat) : Option Text → Text → Prop
  | none : Behind base none []
  | exponent {letter : Char} {sign digits : Text} : isDigitOf base 'e' = false → letter = 'e' ∨ letter = 'E' →
    IsExponent sign digits → Behind base (some (sign ++ digits)) (letter :: (sign ++ digits))

def Literal.base (ambient : Nat) (literal : Literal) : Nat := literal.marked.getD ambient

/-- How a literal is spelled that is read in the base `ambient`. Only without a prefix may its first digit be a decimal
digit that the base does not have. -/
structure Literal.Spelled (ambient : Nat) (literal : Literal) (front whole fraction behind : Text) : Prop where
  prefixed : Front ambient literal.marked front
  mantissa : literal.mantissa = pointed whole fraction
  nonempty : whole ++ fraction ≠ []
  first : ∀ c ∈ (whole ++ fraction).head?, isDigitOf (literal.base ambient) c ∨ literal.marked = none ∧ c.isDigit
  others : ∀ c ∈ (whole ++ fraction).tail, isDigitOf (literal.base ambient) c
  ended : Behind (literal.base ambient) literal.exponent behind

def Literal.SpelledAs (ambient : Nat) (literal : Literal) (t : Text) : Prop :=
  ∃ front whole fraction behind, literal.Spelled ambient front whole fraction behind ∧
    t = front ++ literal.mantissa ++ behind

namespace Literal.Spelled
variable {ambient : Nat} {literal : Literal} {front whole fraction behind : Text}

theorem digit (h : literal.Spelled ambient front whole fraction behind) :
    ∀ c ∈ whole ++ fraction, isDigitOf (literal.base ambient) c ∨ literal.marked = none ∧ c.isDigit := by
  intro c hc
  cases hdigits : whole ++ fraction with
  | nil => exact absurd hdigits h.nonempty
  | cons d others =>
    have hfirst := h.first
    have hothers := h.others
    rw [hdigits] at hc hfirst hothers
    obtain rfl | hc := List.mem_cons.mp hc
    · exact hfirst c rfl
    · exact .inl (hothers c hc)

private theorem digitValue (h : literal.Spelled ambient front whole fraction behind) :
    ∀ c ∈ whole ++ fraction, (Text.digitValue c).isSome := by
  intro c hc
  obtain hd | ⟨-, hd⟩ := h.digit c hc
  · exact Text.digitValue_of_isDigitOf hd
  · exact Text.digitValue_of_isDigitOf (Lexeme.isDigitOf_ten hd)

theorem mantissa_ne_nil (h : literal.Spelled ambient front whole fraction behind) : literal.mantissa ≠ [] := by
  rw [h.mantissa]
  cases fraction with
  | nil => simpa [pointed_nil] using h.nonempty
  | cons d fraction => simp [pointed_cons]

private theorem ne_point (h : literal.Spelled ambient front whole fraction behind) : ∀ c ∈ whole, c ≠ '.' := by
  intro c hc
  exact Text.ne_of_digitValue (h.digitValue c (List.mem_append_left fraction hc)) rfl

/-- No letter of an exponent stands among the digits of a base in which it is none. -/
private theorem ne_letter (h : literal.Spelled ambient front whole fraction behind)
    (he : isDigitOf (literal.base ambient) 'e' = false) : ∀ c ∈ literal.mantissa, (c == 'e' || c == 'E') = false := by
  intro c hc
  simp only [Bool.or_eq_false_iff, beq_eq_false_iff_ne]
  rw [h.mantissa] at hc
  obtain rfl | hc := mem_pointed hc
  · exact ⟨by decide, by decide⟩
  · obtain hd | ⟨-, hd⟩ := h.digit c hc
    · refine ⟨?_, ?_⟩ <;> rintro rfl
      · rw [he] at hd
        exact absurd hd (by decide)
      · rw [Text.isDigitOf_upper, he] at hd
        exact absurd hd (by decide)
    · refine ⟨?_, ?_⟩ <;> rintro rfl <;> exact absurd hd (by decide)

end Literal.Spelled

/-- No digit, no point and no letter of an exponent selects a base behind a zero. -/
theorem markedBase_eq_none {ambient : Nat} {c : Char} (h : isDigitOf ambient c ∨ c = '.' ∨ c = 'e' ∨ c = 'E') :
    Lexeme.markedBase ambient c = none := by
  unfold Lexeme.markedBase
  split
  · rfl
  · rename_i hc
    obtain h | rfl | rfl | rfl := h
    · exact absurd h hc
    · rfl
    · rfl
    · rfl

private theorem markedBase_cons {ambient : Nat} {c : Char} {t : Text}
    (h : ∀ d ∈ t.head?, Lexeme.markedBase ambient d = none) :
    markedBase ambient (c :: t) = none := by
  unfold markedBase
  split
  · rename_i letter rest heq
    obtain ⟨-, rfl⟩ := List.cons.inj heq
    exact h letter rfl
  · rfl

theorem Behind.head {base : Nat} {exponent : Option Text} {behind : Text} (h : Behind base exponent behind) :
    ∀ c ∈ behind.head?, c = 'e' ∨ c = 'E' := by
  intro c hc
  cases h with
  | none => exact absurd hc (by simp)
  | exponent he hletter hexponent =>
    obtain rfl := Option.some.inj hc
    exact hletter

private theorem Front.utf8Size {ambient : Nat} {marked : Option Nat} {front : Text} (h : Front ambient marked front) :
    ∀ c ∈ front, c.utf8Size = 1 := by
  cases h with
  | plain => simp
  | marked hletter =>
    refine List.forall_mem_cons.mpr ⟨rfl, ?_⟩
    simpa using Lexeme.utf8Size_of_markedBase hletter

private theorem IsExponent.utf8Size {sign digits : Text} (h : IsExponent sign digits) :
    ∀ c ∈ sign ++ digits, c.utf8Size = 1 := by
  intro c hc
  obtain hc | hc := List.mem_append.mp hc
  · obtain rfl | rfl | rfl := h.signed
    · cases hc
    · rw [List.mem_singleton.mp hc]
      rfl
    · rw [List.mem_singleton.mp hc]
      rfl
  · exact Text.utf8Size_of_digitValue (Text.digitValue_of_isDigitOf (Lexeme.isDigitOf_ten (h.decimal c hc)))

private theorem Behind.utf8Size {base : Nat} {exponent : Option Text} {behind : Text}
    (h : Behind base exponent behind) :
    ∀ c ∈ behind, c.utf8Size = 1 := by
  cases h with
  | none => simp
  | exponent he hletter hexponent =>
    refine List.forall_mem_cons.mpr ⟨?_, hexponent.utf8Size⟩
    obtain rfl | rfl := hletter
    · rfl
    · rfl

namespace Literal.Spelled
variable {ambient : Nat} {literal : Literal} {front whole fraction behind : Text}

/-- The reader finds the prefix that a literal is spelled with, and none where there is none. -/
private theorem markedBase_eq (h : literal.Spelled ambient front whole fraction behind) :
    markedBase ambient (front ++ literal.mantissa ++ behind) = literal.marked := by
  obtain ⟨marked, mantissa, exponent⟩ := literal
  cases h.prefixed with
  | marked hletter => exact hletter
  | plain =>
    obtain rfl : mantissa = pointed whole fraction := h.mantissa
    cases whole with
    | nil =>
      cases fraction with
      | nil => exact absurd rfl h.nonempty
      | cons d fraction => rfl
    | cons c whole =>
      have hothers : ∀ d ∈ whole ++ fraction, isDigitOf ambient d := h.others
      simp only [List.nil_append, ← cons_pointed, List.cons_append]
      apply markedBase_cons
      intro d hd
      apply markedBase_eq_none
      cases hrest : pointed whole fraction with
      | nil =>
        rw [hrest] at hd
        exact .inr (.inr (h.ended.head d hd))
      | cons e rest =>
        rw [hrest] at hd
        obtain rfl := Option.some.inj hd
        have hmem : e ∈ pointed whole fraction := by
          rw [hrest]
          exact List.mem_cons_self
        obtain rfl | hmem := mem_pointed hmem
        · exact .inr (.inl rfl)
        · exact .inl (hothers e hmem)

private theorem splitExponent_eq (h : literal.Spelled ambient front whole fraction behind) :
    splitExponent (literal.base ambient) (literal.mantissa ++ behind) = (literal.mantissa, literal.exponent) := by
  have hne := h.ne_letter
  have hended := h.ended
  generalize literal.exponent = exponent at hended ⊢
  unfold splitExponent
  cases hended with
  | none =>
    rw [List.append_nil]
    split
    · rfl
    · rename_i he
      rw [Text.cut_eq_none (hne (by simpa using he))]
  | exponent he hletter hexponent =>
    rw [he, Text.cut_append (hne he) (by simpa using hletter)]
    rfl

/-- The reader takes a literal apart as it is spelled. -/
theorem takeApart_eq (h : literal.Spelled ambient front whole fraction behind) :
    takeApart ambient (front ++ literal.mantissa ++ behind) = literal := by
  have hsplit := h.splitExponent_eq
  have hbody : (if literal.marked.isSome then (front ++ literal.mantissa ++ behind).drop 2
      else front ++ literal.mantissa ++ behind) = literal.mantissa ++ behind := by
    have hprefixed := h.prefixed
    generalize literal.marked = marked at hprefixed ⊢
    cases hprefixed with
    | plain => rfl
    | marked hletter => rfl
  unfold takeApart
  simp only [h.markedBase_eq, hbody]
  rw [Literal.base] at hsplit
  rw [hsplit]

/-- The digits fall into those before the point and those behind it as they are spelled. -/
theorem digits_eq (h : literal.Spelled ambient front whole fraction behind) : literal.digits = (whole, fraction) := by
  have hne : ∀ c ∈ whole, (c == '.') = false := by
    intro c hc
    simpa using h.ne_point c hc
  rw [Literal.digits, h.mantissa]
  cases fraction with
  | nil => rw [pointed_nil, Text.cut_eq_none hne, Option.getD_none]
  | cons d fraction => rw [pointed_cons, Text.cut_append hne (by decide), Option.getD_some]

/-- The first digit of the text is that of the mantissa, unless a prefix is in front of it. -/
theorem find_eq (h : literal.Spelled ambient front whole fraction behind) :
    (front ++ literal.mantissa ++ behind).find? (· ≠ '.') =
      if literal.marked.isSome then some '0' else (whole ++ fraction).head? := by
  have hne := h.ne_point
  have hvalue := h.digitValue
  have hnonempty := h.nonempty
  obtain ⟨marked, mantissa, exponent⟩ := literal
  obtain rfl : mantissa = pointed whole fraction := h.mantissa
  cases h.prefixed with
  | marked hletter => rfl
  | plain =>
    cases whole with
    | cons c whole =>
      have hc := hne c List.mem_cons_self
      simp [← cons_pointed, hc]
    | nil =>
      cases fraction with
      | nil => exact absurd rfl hnonempty
      | cons d fraction =>
        have hd : d ≠ '.' := Text.ne_of_digitValue (hvalue d List.mem_cons_self) rfl
        simp [pointed_cons, hd]

/-- Every character of a literal takes up one byte. -/
private theorem byteLength_eq (h : literal.Spelled ambient front whole fraction behind) :
    Text.byteLength (front ++ literal.mantissa ++ behind) = (front ++ literal.mantissa ++ behind).length := by
  have hmantissa : ∀ c ∈ literal.mantissa, c.utf8Size = 1 := by
    intro c hc
    rw [h.mantissa] at hc
    obtain rfl | hc := mem_pointed hc
    · rfl
    · exact Text.utf8Size_of_digitValue (h.digitValue c hc)
  apply Text.byteLength_of_forall
  intro c hc
  rw [List.mem_append, List.mem_append] at hc
  obtain (hc | hc) | hc := hc
  · exact h.prefixed.utf8Size c hc
  · exact hmantissa c hc
  · exact h.ended.utf8Size c hc

end Literal.Spelled

theorem Literal.SpelledAs.byteLength_eq {ambient : Nat} {literal : Literal} {t : Text}
    (h : literal.SpelledAs ambient t) : Text.byteLength t = t.length := by
  obtain ⟨front, whole, fraction, behind, hspelled, rfl⟩ := h
  exact hspelled.byteLength_eq

end Numeral
end Reckoner
