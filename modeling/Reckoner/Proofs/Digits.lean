import Mathlib.Algebra.Order.Ring.Nat
import Mathlib.Data.List.TakeWhile
import Mathlib.Tactic.Ring
import Reckoner.Text.Blank
import Reckoner.Text.Digit

/-! Numbers written in a base from 2 to 36 and read back. The digits of a part count for the base to the power of
the number of digits behind it, so a text of digits can be cut anywhere. -/
namespace Reckoner.Text

variable {base : Nat}

private theorem digitValue_digitChar : ∀ n < 36, digitValue (digitChar n) = some n := by decide

theorem digitOf_digitChar {n : Nat} (hn : n < base) (hbase : base ≤ 36) : digitOf base (digitChar n) = some n := by
  rw [digitOf, digitValue_digitChar n (by omega)]
  simp [hn]

/-- Digits are read as if the number before them were written in front. -/
private theorem foldlM_digits (base start : Nat) (t : Text) :
    t.foldlM (fun n c => (digitOf base c).map (n * base + ·)) start =
      (natOfDigits base t).map (start * base ^ t.length + ·) := by
  rw [natOfDigits]
  induction t generalizing start with
  | nil => simp
  | cons c t ih =>
    rw [List.foldlM_cons, List.foldlM_cons]
    cases digitOf base c with
    | none => rfl
    | some d =>
      have hstart : start * base ^ (t.length + 1) = start * base * base ^ t.length := by ring
      simp [ih (start * base + d), ih d, Option.map_map, Function.comp_def, hstart, Nat.add_mul, Nat.add_assoc]

theorem natOfDigits_append (base : Nat) (s t : Text) :
    natOfDigits base (s ++ t) =
      (natOfDigits base s).bind fun m => (natOfDigits base t).map (m * base ^ t.length + ·) := by
  rw [natOfDigits, List.foldlM_append, ← natOfDigits]
  cases natOfDigits base s with
  | none => rfl
  | some m => exact foldlM_digits base m t

theorem natOfDigits_cons {c : Char} {d : Nat} (hc : digitOf base c = some d) (t : Text) :
    natOfDigits base (c :: t) = (natOfDigits base t).map (d * base ^ t.length + ·) := by
  have hone : natOfDigits base [c] = some d := by simp [natOfDigits, hc]
  rw [← List.singleton_append, natOfDigits_append, hone]
  rfl

theorem natOfDigits_zeros (hbase : 0 < base) {t : Text} (h : ∀ c ∈ t, c = '0') : natOfDigits base t = some 0 := by
  have hzero : digitOf base '0' = some 0 := by
    have hvalue : digitValue '0' = some 0 := by decide
    simp [digitOf, hvalue, hbase]
  induction t with
  | nil => rfl
  | cons c t ih =>
    obtain ⟨rfl, ht⟩ := List.forall_mem_cons.mp h
    rw [natOfDigits_cons hzero, ih ht]
    simp

/-- Writing a number and reading the text is the same as starting from the number. -/
private theorem foldlM_prependDigits (hbase : 2 ≤ base) (hbase' : base ≤ 36) (n : Nat) (written : Text) :
    (prependDigits base n written).foldlM (fun n c => (digitOf base c).map (n * base + ·)) 0 =
      written.foldlM (fun n c => (digitOf base c).map (n * base + ·)) n := by
  fun_induction prependDigits base n written with
  | case1 n written hn =>
    obtain rfl : n = 0 := by omega
    rfl
  | case2 n written hn ih =>
    have hdigit : digitOf base (digitChar (n % base)) = some (n % base) :=
      digitOf_digitChar (Nat.mod_lt n (by omega)) hbase'
    rw [ih, List.foldlM_cons, hdigit]
    simp only [Option.map_some, Option.bind_eq_bind, Option.bind_some]
    rw [Nat.mul_comm, Nat.div_add_mod]

theorem natOfDigits_ofNatBase (hbase : 2 ≤ base) (hbase' : base ≤ 36) (n : Nat) :
    natOfDigits base (ofNatBase base n) = some n := by
  rw [ofNatBase]
  split
  · subst n
    exact natOfDigits_zeros (by omega) (by simp)
  · exact foldlM_prependDigits hbase hbase' n []

private theorem prependDigits_ne_nil {n : Nat} {written : Text} (h : written ≠ []) :
    prependDigits base n written ≠ [] := by
  fun_induction prependDigits base n written with
  | case1 => exact h
  | case2 _ _ _ ih => exact ih (List.cons_ne_nil _ _)

theorem ofNatBase_ne_nil (hbase : 2 ≤ base) (n : Nat) : ofNatBase base n ≠ [] := by
  rw [ofNatBase]
  split
  · exact List.cons_ne_nil _ _
  · rename_i hn
    rw [prependDigits, dif_neg (by omega)]
    exact prependDigits_ne_nil (List.cons_ne_nil _ _)

/-- The most significant digit of a number is not zero. -/
private theorem head_prependDigits (hbase : 2 ≤ base) (hbase' : base ≤ 36) {n : Nat} (hn : n ≠ 0) (written : Text) :
    (prependDigits base n written).head? ≠ some '0' := by
  have hdigit : ∀ d < 36, d ≠ 0 → digitChar d ≠ '0' := by decide
  induction n using Nat.strong_induction_on generalizing written with
  | _ n ih =>
    rw [prependDigits, dif_neg (by omega)]
    by_cases hlast : n / base = 0
    · have hlt : n < base := (Nat.div_eq_zero_iff_lt (by omega)).mp hlast
      rw [hlast, prependDigits, dif_pos (.inl rfl), Nat.mod_eq_of_lt hlt, List.head?_cons]
      exact fun h => hdigit n (by omega) hn (Option.some.inj h)
    · exact ih (n / base) (Nat.div_lt_self (by omega) (by omega)) hlast _

/-- No zero stands in front of other digits. -/
theorem ofNatBase_leading (hbase : 2 ≤ base) (hbase' : base ≤ 36) (n : Nat) :
    ofNatBase base n = ['0'] ∨ (ofNatBase base n).head? ≠ some '0' := by
  rw [ofNatBase]
  split
  · exact .inl rfl
  · rename_i hn
    exact .inr (head_prependDigits hbase hbase' hn [])

/-- What can be read as a number is written in digits of the base. -/
theorem digitOf_of_natOfDigits {t : Text} {m : Nat} (h : natOfDigits base t = some m) :
    ∀ c ∈ t, (digitOf base c).isSome := by
  induction t generalizing m with
  | nil => simp
  | cons c t ih =>
    have hsplit := natOfDigits_append base [c] t
    rw [List.singleton_append, h] at hsplit
    obtain ⟨d, hd, ht⟩ := Option.bind_eq_some_iff.mp hsplit.symm
    obtain ⟨rest, hrest, -⟩ := Option.map_eq_some_iff.mp ht
    have hc : (digitOf base c).isSome := by
      cases hdigit : digitOf base c with
      | none => simp [natOfDigits, hdigit] at hd
      | some _ => rfl
    exact List.forall_mem_cons.mpr ⟨hc, ih hrest⟩

theorem isDigit_of_natOfDigits {t : Text} {m : Nat} (h : natOfDigits base t = some m) :
    ∀ c ∈ t, (digitValue c).isSome := fun c hc =>
  Option.isSome_of_isSome_filter _ _ (digitOf_of_natOfDigits h c hc)

theorem range_of_digitValue {c : Char} (h : (digitValue c).isSome) : 48 ≤ c.toNat ∧ c.toNat ≤ 122 := by
  rw [digitValue] at h
  split at h
  · rename_i hc
    exact ⟨hc.1, le_trans hc.2 (by decide)⟩
  · split at h
    · rename_i hc
      exact ⟨le_trans (by decide) hc.1, hc.2⟩
    · split at h
      · rename_i hc
        exact ⟨le_trans (by decide) hc.1, le_trans hc.2 (by decide)⟩
      · simp at h

theorem isBlank_of_isDigit {c : Char} (h : (digitValue c).isSome) : isBlank c = false := by
  have hrange := range_of_digitValue h
  simp only [isBlank, blanks, List.contains_eq_mem, List.mem_cons, List.not_mem_nil, or_false, decide_eq_false_iff_not]
  omega

/-- Blanks around a text without blanks are trimmed. -/
theorem trim_padded {before t behind : Text} (hbefore : ∀ c ∈ before, isBlank c) (h : ∀ c ∈ t, isBlank c = false)
    (hbehind : ∀ c ∈ behind, isBlank c) : trim (before ++ t ++ behind) = t := by
  have hkeeps {s u : Text} (hs : ∀ c ∈ s, isBlank c = false) (hne : s ≠ []) :
      (s ++ u).dropWhile isBlank = s ++ u := by
    cases s with
    | nil => exact absurd rfl hne
    | cons c s => simp [hs c List.mem_cons_self]
  rw [trim, trimStart, List.append_assoc, List.dropWhile_append_of_pos hbefore]
  by_cases hne : t = []
  · rw [hne, List.nil_append, List.dropWhile_eq_nil_iff.mpr hbehind]
    rfl
  · have hback := hkeeps (u := []) (s := t.reverse) (by simpa using h) (by simpa using hne)
    rw [List.append_nil] at hback
    rw [hkeeps h hne, trimEnd, List.reverse_append, List.dropWhile_append_of_pos (by simpa using hbehind), hback,
      List.reverse_reverse]

theorem cut_append {sought : Char → Bool} {s t : Text} {c : Char} (hs : ∀ c ∈ s, sought c = false)
    (hc : sought c = true) : cut sought (s ++ c :: t) = some (s, t) := by
  induction s with
  | nil => simp [cut, hc]
  | cons d s ih =>
    obtain ⟨hd, hs⟩ := List.forall_mem_cons.mp hs
    simp [cut, hd, ih hs]

theorem cut_eq_none {sought : Char → Bool} {s : Text} (hs : ∀ c ∈ s, sought c = false) : cut sought s = none := by
  induction s with
  | nil => rfl
  | cons d s ih =>
    obtain ⟨hd, hs⟩ := List.forall_mem_cons.mp hs
    simp [cut, hd, ih hs]

end Reckoner.Text
