import Mathlib.Algebra.Order.Field.Rat
import Mathlib.Data.List.Forall2
import Mathlib.Data.Nat.Digits.Defs
import Reckoner.Bignum.Text
import Reckoner.Proofs.Digits

/-! Real numbers as they are written in a base: a sign or none, digits with a point among them or none, and blanks
around. The digits are read as one whole number, which the weight of the last of them then divides. -/
namespace Reckoner

def Text.HasDigits (base : Nat) (t : Text) (ds : List Nat) : Prop :=
  List.Forall₂ (fun c d => digitOf base c = some d) t ds

theorem Text.HasDigits.natOfDigits {base : Nat} {t : Text} {ds : List Nat} (h : t.HasDigits base ds) :
    natOfDigits base t = some (Nat.ofDigits base ds.reverse) := by
  induction h with
  | nil => rfl
  | @cons c d t ds hc ht ih =>
    rw [natOfDigits_cons hc, ih, List.reverse_cons, Nat.ofDigits_append, List.length_reverse, ht.length_eq]
    simp [Nat.add_comm, Nat.mul_comm]

theorem Text.exists_hasDigits {base : Nat} {t : Text} (h : ∀ c ∈ t, (digitOf base c).isSome) :
    ∃ ds, t.HasDigits base ds := by
  induction t with
  | nil => exact ⟨[], .nil⟩
  | cons c t ih =>
    obtain ⟨hc, ht⟩ := List.forall_mem_cons.mp h
    obtain ⟨ds, hds⟩ := ih ht
    obtain ⟨d, hd⟩ := Option.isSome_iff_exists.mp hc
    exact ⟨d :: ds, .cons hd hds⟩

namespace Bignum

variable {base precision : Nat}

inductive IsSign : Text → Bool → Prop
  | none : IsSign [] false
  | plus : IsSign ['+'] false
  | minus : IsSign ['-'] true

inductive Pointed : Text → Text → Text → Prop
  | without (whole : Text) : Pointed whole whole []
  | within (whole fraction : Text) : Pointed (whole ++ '.' :: fraction) whole fraction

inductive Writes (base : Nat) : Text → Rat → Prop
  | mk {before sign body behind whole fraction : Text} {negative : Bool} {ds : List Nat}
    (hbefore : ∀ c ∈ before, Text.isBlank c) (hsign : IsSign sign negative) (hbody : Pointed body whole fraction)
    (hdigits : (whole ++ fraction).HasDigits base ds) (hne : ds ≠ []) (hbehind : ∀ c ∈ behind, Text.isBlank c) :
    Writes base (before ++ (sign ++ body) ++ behind)
      ((if negative then -1 else 1) * (Nat.ofDigits base ds.reverse / base ^ fraction.length))

section Parts
variable {sign body whole fraction : Text} {negative : Bool}
  (hdigits : ∀ c ∈ whole ++ fraction, (Text.digitValue c).isSome)
include hdigits

private theorem Pointed.mem (hbody : Pointed body whole fraction) :
    ∀ c ∈ body, c = '.' ∨ (Text.digitValue c).isSome := by
  intro c hc
  cases hbody with
  | without => exact .inr (hdigits c (List.mem_append_left _ hc))
  | within =>
    rcases List.mem_append.mp hc with hc | hc
    · exact .inr (hdigits c (List.mem_append_left _ hc))
    · rcases List.mem_cons.mp hc with rfl | hc
      · exact .inl rfl
      · exact .inr (hdigits c (List.mem_append_right _ hc))

private theorem Pointed.cut (hbody : Pointed body whole fraction) :
    (Text.cut (· == '.') body).getD (body, []) = (whole, fraction) := by
  have hpoint : ∀ c ∈ whole, (c == '.') = false := by
    intro c hc
    rw [beq_eq_false_iff_ne]
    rintro rfl
    exact absurd (hdigits '.' (List.mem_append_left _ hc)) (by decide)
  cases hbody with
  | without => rw [Text.cut_eq_none hpoint, Option.getD_none]
  | within => rw [Text.cut_append hpoint (by rfl), Option.getD_some]

private theorem IsSign.splitSign (hsign : IsSign sign negative) (hbody : Pointed body whole fraction)
    (hne : whole ++ fraction ≠ []) : splitSign (sign ++ body) = (negative, body) := by
  cases hsign with
  | minus | plus => rfl
  | none =>
    have hmem := hbody.mem hdigits
    have hbodyne : body ≠ [] := by
      cases hbody with
      | without => simpa using hne
      | within => simp
    cases body with
    | nil => exact absurd rfl hbodyne
    | cons c rest =>
      have hsign (s : Char) (hs : s ≠ '.') (h : (Text.digitValue s).isSome = false) : c ≠ s := by
        rintro rfl
        rcases hmem c List.mem_cons_self with hc | hc
        · exact hs hc
        · rw [h] at hc
          cases hc
      have hminus := hsign '-' (by decide) (by decide)
      have hplus := hsign '+' (by decide) (by decide)
      simp [Bignum.splitSign, hminus, hplus]

private theorem IsSign.not_isBlank (hsign : IsSign sign negative) (hbody : Pointed body whole fraction) :
    ∀ c ∈ sign ++ body, Text.isBlank c = false := by
  have hsigned : ∀ c ∈ sign, Text.isBlank c = false := by
    cases hsign with
    | none => exact List.forall_mem_nil _
    | plus | minus => exact List.forall_mem_singleton.mpr (by decide)
  refine List.forall_mem_append.mpr ⟨hsigned, fun c hc => ?_⟩
  rcases hbody.mem hdigits c hc with rfl | hc
  · decide
  · exact Text.isBlank_of_isDigit hc

end Parts

/-- The number without its point is scaled, divided by the weight of its last digit, and rounded to the next whole
one, halves away from zero. -/
theorem parse_written (hbase : 2 ≤ base) (hbase' : base ≤ 36) {before sign body behind whole fraction : Text}
    {negative : Bool} {m : Nat} (hbefore : ∀ c ∈ before, Text.isBlank c) (hsign : IsSign sign negative)
    (hbody : Pointed body whole fraction) (hne : whole ++ fraction ≠ [])
    (hdigits : Text.natOfDigits base (whole ++ fraction) = some m) (hbehind : ∀ c ∈ behind, Text.isBlank c) :
    parse base precision (before ++ (sign ++ body) ++ behind) =
      let magnitude : Nat := (m * 2 ^ precision + base ^ fraction.length / 2) / base ^ fraction.length
      some ⟨if negative then -magnitude else magnitude, 0, precision, .dimensionless⟩ := by
  have hall := Text.isDigit_of_natOfDigits hdigits
  rw [parse, Text.trim_padded hbefore (hsign.not_isBlank hall hbody) hbehind, hsign.splitSign hall hbody hne]
  simp only [hbody.cut hall]
  have hparts : ¬whole = [] ∨ ¬fraction = [] := not_and_or.mp (mt List.append_eq_nil_iff.mpr hne)
  simp [hbase, hbase', hdigits, Nat.shiftLeft_eq, hparts]

end Bignum
end Reckoner
