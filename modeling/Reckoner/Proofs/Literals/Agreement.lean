import Reckoner.Proofs.Cutting.Boundary
import Reckoner.Proofs.Literals.Value

/-! Lexer and reader agree on number literals. Every number that is cut off a text is spelled as a literal, with the
prefix, the digits and the exponent that were taken along when it was cut off; and so these are the parts that the
reader takes it apart into. -/
namespace Reckoner

namespace Lexeme

open Numeral (Literal Behind IsExponent pointed pointed_nil pointed_cons cons_pointed)
open Text (isDigitOf dropBytes slice IsCut)

section
variable {base : Nat}

/-- Further digits are spelled with at most one point among them, and with none behind a point. -/
private theorem take_digitsLength (base : Nat) (dotted : Bool) (t : Text) :
    ∃ whole fraction, t.take (digitsLength base dotted t) = pointed whole fraction ∧
      (∀ c ∈ whole ++ fraction, isDigitOf base c) ∧ (dotted → fraction = []) := by
  induction t generalizing dotted with
  | nil => exact ⟨[], [], rfl, by simp, fun _ => rfl⟩
  | cons c t ih =>
    unfold digitsLength
    split
    · rename_i hc
      obtain ⟨whole, fraction, htake, hdigits, hdotted⟩ := ih dotted
      refine ⟨c :: whole, fraction, ?_, ?_, hdotted⟩
      · rw [List.take_succ_cons, htake, cons_pointed]
      · rw [List.cons_append]
        exact List.forall_mem_cons.mpr ⟨hc, hdigits⟩
    · split
      · rename_i hpoint
        obtain ⟨rfl, hdotted, hnext⟩ := hpoint
        obtain ⟨whole, fraction, htake, hdigits, hnone⟩ := ih true
        obtain rfl := hnone rfl
        rw [pointed_nil] at htake
        rw [List.append_nil] at hdigits
        have hwhole : whole ≠ [] := by
          cases t with
          | nil => exact absurd hnext (by simp)
          | cons d t =>
            have hd : isDigitOf base d := by simpa using hnext
            rw [← htake, digitsLength, if_pos hd]
            exact List.cons_ne_nil _ _
        obtain ⟨d, others, rfl⟩ := List.exists_cons_of_ne_nil hwhole
        refine ⟨[], d :: others, ?_, hdigits, fun h => ?_⟩
        · rw [List.take_succ_cons, htake, pointed_cons, List.nil_append]
        · simp [h] at hdotted
      · exact ⟨[], [], rfl, by simp, fun _ => rfl⟩

def exponent (base : Nat) (t : Text) : Option Text :=
  if exponentLength base t = 0 then none else some ((t.take (exponentLength base t)).drop 1)

/-- An optional sign is what an exponent starts with. -/
private theorem take_sign (t : Text) : ∃ sign : Text,
    t.take (if t.head?.any (fun s => s == '+' || s == '-') then 1 else 0) = sign ∧
      (sign = [] ∨ sign = ['+'] ∨ sign = ['-']) := by
  cases t with
  | nil => exact ⟨[], rfl, .inl rfl⟩
  | cons s t =>
    split
    · rename_i hs
      refine ⟨[s], rfl, .inr ?_⟩
      obtain rfl | rfl : s = '+' ∨ s = '-' := by simpa using hs
      · exact .inl rfl
      · exact .inr rfl
    · exact ⟨[], rfl, .inl rfl⟩

private theorem exponent_cases (base : Nat) (t : Text) : exponentLength base t = 0 ∨
    isDigitOf base 'e' = false ∧ ∃ letter sign digits, (letter = 'e' ∨ letter = 'E') ∧ IsExponent sign digits ∧
      t.take (exponentLength base t) = letter :: (sign ++ digits) := by
  unfold exponentLength
  split
  · exact .inl rfl
  · rename_i he
    cases t with
    | nil => exact .inl rfl
    | cons c t =>
      simp only
      split
      · rename_i hletter
        obtain ⟨sign, hsign, hsigned⟩ := take_sign t
        generalize (if t.head?.any (fun s => s == '+' || s == '-') then 1 else 0) = n at hsign ⊢
        split
        · exact .inl rfl
        · rename_i hlength
          refine .inr ⟨by simpa using he, c, sign, (t.drop n).takeWhile Char.isDigit, hletter, ⟨hsigned, ?_, ?_⟩, ?_⟩
          · intro d hd
            exact List.all_eq_true.mp List.all_takeWhile d hd
          · intro hnil
            exact hlength (by rw [hnil]; rfl)
          · have htake := List.prefix_iff_eq_take.mp (List.takeWhile_prefix Char.isDigit (l := t.drop n))
            have hsum : 1 + n + ((t.drop n).takeWhile Char.isDigit).length =
                n + ((t.drop n).takeWhile Char.isDigit).length + 1 := by omega
            rw [hsum, List.take_succ_cons, List.take_add, hsign, ← htake]
      · exact .inl rfl

private theorem exponent_behind (base : Nat) (t : Text) :
    Behind base (exponent base t) (t.take (exponentLength base t)) := by
  unfold exponent
  obtain hnone | ⟨he, letter, sign, digits, hletter, hexponent, htake⟩ := exponent_cases base t
  · rw [if_pos hnone, hnone, List.take_zero]
    exact .none
  · have hlength : exponentLength base t ≠ 0 := by
      intro hnone
      rw [hnone] at htake
      cases htake
    rw [if_neg hlength, htake, List.drop_one, List.tail_cons]
    exact .exponent he hletter hexponent

/-- The literal that goes on with `rest` when its first characters are taken: its prefix, its digits and its exponent,
each as far as it is taken along. -/
def literalBehind (base : Nat) (taken : Text) (first : Char) (rest : Text) : Literal :=
  let (digitBase, mark) := literalBase base first rest
  let digits := digitsLength digitBase (first == '.') (rest.drop mark)
  { marked := if mark = 0 then none else some digitBase
    mantissa := if mark = 0 then taken ++ rest.take digits else (rest.drop mark).take digits
    exponent := exponent digitBase (rest.drop (mark + digits)) }

/-- The literal of the number that starts with `first`: a digit or a point and a digit are taken whatever the base. -/
def literal (base : Nat) (first : Char) (rest : Text) : Literal :=
  if first = '.' then literalBehind base (first :: rest.take 1) first (rest.drop 1)
  else literalBehind base [first] first rest

/-- A prefix is taken along only behind a zero and in front of a digit of its base. -/
private theorem literalBase_cases (base : Nat) (first : Char) (rest : Text) : literalBase base first rest = (base, 0) ∨
    first = '0' ∧ ∃ letter digit t marked, rest = letter :: digit :: t ∧ markedBase base letter = some marked ∧
      isDigitOf marked digit ∧ literalBase base first rest = (marked, 1) := by
  unfold literalBase
  split
  · rename_i letter digit t
    split
    · rename_i marked hmarked
      split
      · rename_i hdigit
        split at hmarked
        · rename_i hzero
          exact .inr ⟨hzero, letter, digit, t, marked, rfl, hmarked, hdigit, rfl⟩
        · cases hmarked
      · exact .inl rfl
    · exact .inl rfl
  · exact .inl rfl

/-- How a number starts: with a digit, or with a point and a digit, whatever the base. -/
inductive Starts : Text → Char → Prop
  | digit {d : Char} : d.isDigit → Starts [d] d
  | point {d : Char} : d.isDigit → Starts ['.', d] '.'

/-- The digits that are taken along behind the first ones make one mantissa with them. -/
private theorem mantissa_unmarked (base : Nat) {taken : Text} {first : Char} (hfirst : Starts taken first)
    (rest : Text) :
    ∃ whole fraction, taken ++ rest.take (digitsLength base (first == '.') rest) = pointed whole fraction ∧
      (∃ d others, whole ++ fraction = d :: others ∧ d.isDigit ∧ ∀ c ∈ others, isDigitOf base c) := by
  obtain ⟨whole, fraction, htake, hdigits, hdotted⟩ := take_digitsLength base (first == '.') rest
  rw [htake]
  cases hfirst with
  | digit hd => exact ⟨_ :: whole, fraction, cons_pointed _ _ _, _, _, rfl, hd, hdigits⟩
  | point hd =>
    obtain rfl := hdotted rfl
    rw [List.append_nil] at hdigits
    exact ⟨[], _ :: whole, rfl, _, _, rfl, hd, hdigits⟩

/-- A number is spelled as the literal that was taken along. -/
private theorem literalBehind_spelled {taken : Text} {first : Char} (hfirst : Starts taken first) (rest : Text) :
    (literalBehind base taken first rest).SpelledAs base (taken ++ rest.take (numberLength base first rest)) := by
  unfold literalBehind numberLength
  obtain hunmarked | ⟨rfl, letter, digit, t, marked, rfl, hmarked, hdigit, hbase⟩ := literalBase_cases base first rest
  · simp only [hunmarked, List.drop_zero, Nat.zero_add, if_true]
    obtain ⟨whole, fraction, hmantissa, d, others, hdigits, hd, hothers⟩ := mantissa_unmarked base hfirst rest
    have hended := exponent_behind base (rest.drop (digitsLength base (first == '.') rest))
    refine ⟨[], whole, fraction, _, ⟨.plain, hmantissa, ?_, ?_, ?_, hended⟩, ?_⟩
    · rw [hdigits]
      exact List.cons_ne_nil _ _
    · intro c hc
      rw [hdigits] at hc
      obtain rfl := Option.some.inj hc
      exact .inr ⟨rfl, hd⟩
    · rw [hdigits]
      exact hothers
    · rw [List.take_add, List.nil_append, List.append_assoc]
  · cases hfirst with
    | digit hd =>
      obtain ⟨whole, fraction, hmantissa, hdigits, -⟩ := take_digitsLength marked ('0' == '.') (digit :: t)
      have hended := exponent_behind marked ((digit :: t).drop (digitsLength marked ('0' == '.') (digit :: t)))
      have hnonempty : whole ++ fraction ≠ [] := by
        intro hnil
        obtain ⟨rfl, rfl⟩ := List.append_eq_nil_iff.mp hnil
        rw [digitsLength, if_pos hdigit, List.take_succ_cons, pointed_nil] at hmantissa
        cases hmantissa
      simp only [hbase, Nat.add_comm 1, List.drop_succ_cons, List.drop_zero, one_ne_zero, if_false]
      refine ⟨['0', letter], whole, fraction, _, ⟨.marked hmarked, hmantissa, hnonempty, ?_, ?_, hended⟩, ?_⟩
      · intro c hc
        exact .inl (hdigits c (List.mem_of_mem_head? hc))
      · intro c hc
        exact hdigits c (List.mem_of_mem_tail hc)
      · rw [Nat.add_right_comm, List.take_succ_cons, List.take_add]
        simp

/-- A number is cut off as it is spelled: its first characters are taken whatever the base, and the others as they go
on with the literal. -/
private theorem munch_spelled {first : Char} {rest : Text} {count : Nat}
    (h : munch base first rest = (some .number, count)) :
    (literal base first rest).SpelledAs base (first :: rest.take count) := by
  cases Munched.of_eq h with
  | digit hdigit =>
    have hne : first ≠ '.' := by
      rintro rfl
      exact absurd hdigit (by decide)
    rw [literal, if_neg hne]
    exact literalBehind_spelled (.digit hdigit) rest
  | point hpoint hnext =>
    subst hpoint
    cases rest with
    | nil => exact absurd hnext (by simp)
    | cons d others =>
      have hd : d.isDigit := by simpa using hnext
      rw [Nat.add_comm, List.take_succ_cons]
      exact literalBehind_spelled (.point hd) others
  | pair hhead hpair => exact absurd hpair (pair_ne (by decide) first _)
  | single hsingle => exact absurd hsingle (single_ne (by decide) first)

end

namespace Remain
variable {base place : Nat} {t : Text} {l : Lexeme} {ls : List Lexeme}

private theorem of_mem (h : Remain base t place ls) (hl : l ∈ ls) :
    ∃ place' others, Remain base t place' (l :: others) := by
  induction ls generalizing place with
  | nil => cases hl
  | cons first ls ih =>
    obtain rfl | hl := List.mem_cons.mp hl
    · exact ⟨place, ls, h⟩
    · exact ih h.rest hl

/-- The text of a lexeme is what was taken when it was cut off the text behind it. -/
private theorem written (h : Remain base t place (l :: ls)) : ∃ first rest count, dropBytes l.start t = first :: rest ∧
    Lexeme.munch base first rest = (some l.token, count) ∧ slice t l.start l.stop = first :: rest.take count := by
  obtain ⟨⟨skipped, first, rest, count, hw⟩, -⟩ := h.first
  have hstart : dropBytes l.start t = first :: rest := by
    rw [hw.start, ← Text.dropBytes_dropBytes h.boundary, hw.text, Text.dropBytes_byteLength]
  refine ⟨first, rest, count, hstart, hw.munch, ?_⟩
  have hsplit := Text.takeBytes_byteLength (first :: rest.take count) (rest.drop count)
  rw [List.cons_append, List.take_append_drop] at hsplit
  rw [slice, hstart, hw.stop, Nat.add_sub_cancel_left, hsplit]

end Remain

/-- Lexer and reader agree on every number of a text: it lies within the text on boundaries of characters, all of one
byte, it is spelled as the literal that the lexer took along, and it is read as that literal. -/
theorem numbers_agree {base : Nat} (hbase : 2 ≤ base ∧ base ≤ 36) {t : Text} {l : Lexeme} (hl : l ∈ lex base 0 t)
    (hnumber : l.token = .number) : IsCut t l.start l.stop ∧ l.stop = l.start + (slice t l.start l.stop).length ∧
      ∃ first rest count, dropBytes l.start t = first :: rest ∧ munch base first rest = (some .number, count) ∧
        slice t l.start l.stop = first :: rest.take count ∧
        (literal base first rest).SpelledAs base (slice t l.start l.stop) ∧
        (literal base first rest).ReadFrom base (slice t l.start l.stop) := by
  obtain ⟨place, others, hremain⟩ := (Remain.all base t).of_mem hl
  obtain ⟨first, rest, count, hdrop, hmunch, hslice⟩ := hremain.written
  rw [hnumber] at hmunch
  have hspelled : (literal base first rest).SpelledAs base (slice t l.start l.stop) := by
    rw [hslice]
    exact munch_spelled hmunch
  refine ⟨hremain.cut, ?_, first, rest, count, hdrop, hmunch, hslice, hspelled, hspelled.readFrom hbase⟩
  have hbytes := hremain.cut.byteLength_slice
  have hordered := hremain.ordered
  rw [hspelled.byteLength_eq] at hbytes
  omega

/-- Two bases, a point and an exponent in one literal: it has the value that its parts make. -/
theorem numbers_agree_of_prefix :
    (⟨.number, 2, 10⟩ : Lexeme) ∈ lex 10 0 "y=0b1.1e-5;".toList ∧
      Numeral.takeApart 10 "0b1.1e-5".toList = ⟨some 2, "1.1".toList, some "-5".toList⟩ ∧
      (Numeral.read 10 "0b1.1e-5".toList).isSome := by
  have hlex : lex 10 0 "y=0b1.1e-5;".toList =
      [⟨.identifier, 0, 1⟩, ⟨.assign, 1, 2⟩, ⟨.number, 2, 10⟩, ⟨.semicolon, 10, 11⟩] := by
    with_unfolding_all rfl
  have hmem : (⟨.number, 2, 10⟩ : Lexeme) ∈ lex 10 0 "y=0b1.1e-5;".toList := by
    rw [hlex]
    decide
  have hslice : slice "y=0b1.1e-5;".toList 2 10 = "0b1.1e-5".toList := by decide
  obtain ⟨-, -, first, rest, count, -, -, -, -, hread⟩ := numbers_agree (by decide) hmem rfl
  have hparts : Numeral.takeApart 10 "0b1.1e-5".toList = ⟨some 2, "1.1".toList, some "-5".toList⟩ := by decide
  rw [hslice] at hread
  refine ⟨hmem, hparts, hread.readable.mpr ?_⟩
  rw [← hread.parts, hparts]
  refine ⟨?_, ?_⟩
  · rintro ⟨-, c, hc, hstray⟩
    obtain rfl := Option.some.inj hc
    exact absurd hstray (by decide)
  · rintro ⟨-, e, he, n, hn, hrange⟩
    obtain rfl := Option.some.inj he
    obtain rfl : -5 = n := Option.some.inj hn
    exact absurd ⟨by decide, by decide⟩ hrange

/-- In base 12 the letter of the prefix is a digit, and that of the exponent is none. -/
example : literal 12 '0' "b1.1e-5;".toList = ⟨none, "0b1.1".toList, some "-5".toList⟩ := by decide

end Lexeme
end Reckoner
