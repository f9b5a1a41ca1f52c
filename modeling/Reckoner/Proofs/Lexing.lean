import Reckoner.Statement

/-! Pieces of a text cut by their byte lengths, and how the lexemes of a text follow from those of its
parts. -/
namespace Reckoner

namespace Text

theorem utf8Size_ne_zero (c : Char) : c.utf8Size ≠ 0 := Nat.ne_of_gt c.utf8Size_pos

private theorem dropBytes_cons (n : Nat) (c : Char) (t : Text) :
    dropBytes (c.utf8Size + n) (c :: t) = dropBytes n t := by
  obtain ⟨m, hm⟩ := Nat.exists_eq_succ_of_ne_zero (utf8Size_ne_zero c)
  have hs : c.utf8Size + n = (m + n) + 1 := by omega
  rw [hs, dropBytes, ← hs, Nat.add_sub_cancel_left]

private theorem takeBytes_cons (n : Nat) (c : Char) (t : Text) :
    takeBytes (c.utf8Size + n) (c :: t) = c :: takeBytes n t := by
  obtain ⟨m, hm⟩ := Nat.exists_eq_succ_of_ne_zero (utf8Size_ne_zero c)
  have hs : c.utf8Size + n = (m + n) + 1 := by omega
  rw [hs, takeBytes, ← hs, Nat.add_sub_cancel_left]

/-- Bytes behind a whole text are cut off what follows it. -/
theorem dropBytes_append (s t : Text) (n : Nat) : dropBytes (byteLength s + n) (s ++ t) = dropBytes n t := by
  induction s with
  | nil => simp
  | cons c s ih => rw [byteLength_cons, List.cons_append, Nat.add_assoc, dropBytes_cons, ih]

theorem takeBytes_append (s t : Text) (n : Nat) :
    takeBytes (byteLength s + n) (s ++ t) = s ++ takeBytes n t := by
  induction s with
  | nil => simp
  | cons c s ih =>
    rw [byteLength_cons, List.cons_append, Nat.add_assoc, takeBytes_cons, ih, List.cons_append]

theorem dropBytes_byteLength (s t : Text) : dropBytes (byteLength s) (s ++ t) = t := by
  rw [← Nat.add_zero (byteLength s), dropBytes_append, dropBytes]

theorem takeBytes_byteLength (s t : Text) : takeBytes (byteLength s) (s ++ t) = s := by
  rw [← Nat.add_zero (byteLength s), takeBytes_append, takeBytes, List.append_nil]

theorem eq_nil_of_byteLength {t : Text} (h : byteLength t = 0) : t = [] := by
  cases t with
  | nil => rfl
  | cons c t =>
    have hc := utf8Size_ne_zero c
    rw [byteLength_cons] at h
    omega

theorem dropBytes_self (t : Text) : dropBytes (byteLength t) t = [] := by
  simpa using dropBytes_byteLength t []

private theorem takeBytes_self (t : Text) : takeBytes (byteLength t) t = t := by
  simpa using takeBytes_byteLength t []

/-- The middle of three texts. -/
theorem slice_append (s t u : Text) :
    slice (s ++ t ++ u) (byteLength s) (byteLength s + byteLength t) = t := by
  rw [slice, List.append_assoc, dropBytes_byteLength, Nat.add_sub_cancel_left, takeBytes_byteLength]

theorem slice_front (s t : Text) : slice (s ++ t) 0 (byteLength s) = s := by
  rw [slice, dropBytes, Nat.sub_zero, takeBytes_byteLength]

/-- A piece behind a text that stands in front. -/
theorem slice_append_left (s t : Text) (start stop : Nat) :
    slice (s ++ t) (byteLength s + start) (byteLength s + stop) = slice t start stop := by
  rw [slice, dropBytes_append, Nat.add_sub_add_left, slice]

theorem slice_self (t : Text) : slice t 0 (byteLength t) = t := by
  simpa [slice, dropBytes] using takeBytes_self t

private theorem byteLength_dropBytes_le (n : Nat) (t : Text) : byteLength (dropBytes n t) ≤ byteLength t - n := by
  fun_induction dropBytes n t with
  | case1 => exact Nat.le_refl _
  | case2 => exact Nat.zero_le _
  | case3 n c t ih =>
    rw [byteLength_cons]
    omega

private theorem takeBytes_of_le {n : Nat} {t : Text} (h : byteLength t ≤ n) : takeBytes n t = t := by
  fun_induction takeBytes n t with
  | case1 t =>
    cases t with
    | nil => rfl
    | cons c t =>
      have hc := c.utf8Size_pos
      rw [byteLength_cons] at h
      omega
  | case2 => rfl
  | case3 n c t ih =>
    rw [byteLength_cons] at h
    rw [ih (by omega)]

/-- A piece up to the end. -/
theorem slice_to_end (t : Text) (n : Nat) : slice t n (byteLength t) = dropBytes n t :=
  takeBytes_of_le (byteLength_dropBytes_le n t)

theorem isPrefix_trimEnd (t : Text) : trimEnd t <+: t := by
  rw [← List.reverse_suffix, trimEnd, List.reverse_reverse]
  exact List.dropWhile_suffix _

/-- What is a blank between lexemes is a blank of Unicode. -/
theorem isBlank_of_lexeme {c : Char} (h : Lexeme.isBlank c) : isBlank c := by
  simp only [Lexeme.isBlank, Bool.or_eq_true, beq_iff_eq] at h
  rcases h with (((rfl | rfl) | rfl) | rfl) | rfl <;> decide

/-- The letters are those of ASCII. -/
theorem range_of_isAlpha {c : Char} (h : c.isAlpha) :
    (65 ≤ c.toNat ∧ c.toNat ≤ 90) ∨ (97 ≤ c.toNat ∧ c.toNat ≤ 122) := by
  change (decide (65 ≤ c.val ∧ c.val ≤ 90) || (decide (97 ≤ c.val) && decide (c.val ≤ 122))) = true at h
  simp only [Bool.or_eq_true, Bool.and_eq_true, decide_eq_true_eq, UInt32.le_iff_toNat_le] at h
  exact h

def IsName : Text → Prop
  | [] => False
  | c :: rest => c.isAlpha ∧ ∀ d ∈ rest, Lexeme.isNameChar d

instance : (t : Text) → Decidable t.IsName
  | [] => isFalse id
  | c :: rest => decidable_of_iff (c.isAlpha ∧ rest.all Lexeme.isNameChar) (by rw [IsName, List.all_eq_true])

end Text

namespace Lexeme

open Text (byteLength dropBytes)

def shift (n : Nat) (l : Lexeme) : Lexeme := ⟨l.token, l.start + n, l.stop + n⟩

theorem lex_shift (base offset n : Nat) (t : Text) :
    lex base (offset + n) t = (lex base offset t).map (shift n) := by
  fun_induction lex base offset t with
  | case1 => rw [lex, List.map_nil]
  | case2 offset c rest count after others hm ih =>
    rw [lex, hm]
    simp only
    rw [← ih, Nat.add_right_comm]
  | case3 offset c rest count after others token hm ih =>
    rw [lex, hm]
    simp only [List.map_cons]
    rw [← ih, Nat.add_right_comm]
    rfl

/-- What a lexeme is and how many characters go on with it, as its first character decides. -/
inductive Munched (base : Nat) (c : Char) (rest : Text) : Option Token → Nat → Prop
  | blank : isBlank c → Munched base c rest none 0
  | digit : c.isDigit → Munched base c rest (some .number) (numberLength base c rest)
  | point : c = '.' → rest.head?.any Char.isDigit →
    Munched base c rest (some .number) (1 + numberLength base c (rest.drop 1))
  | name : c.isAlpha → Munched base c rest (some .identifier) (rest.takeWhile isNameChar).length
  | string : c = '"' → (rest.takeWhile (· ≠ '"')).length < rest.length →
    Munched base c rest (some .string) ((rest.takeWhile (· ≠ '"')).length + 1)
  | openString : c = '"' → rest.length ≤ (rest.takeWhile (· ≠ '"')).length →
    Munched base c rest (some .openString) (rest.takeWhile (· ≠ '"')).length
  | pair {d : Char} {token : Token} : rest.head? = some d → Lexeme.pair c d = some token →
    Munched base c rest (some token) 1
  | single {token : Token} : Lexeme.single c = token → Munched base c rest (some token) 0

theorem munch_munched (base : Nat) (c : Char) (rest : Text) :
    Munched base c rest (munch base c rest).1 (munch base c rest).2 := by
  unfold munch
  split
  · exact .blank ‹_›
  split
  · exact .digit ‹_›
  split
  · rename_i hpoint
    exact .point hpoint.1 hpoint.2
  split
  · exact .name ‹_›
  split
  · rename_i hquote
    simp only
    split
    · exact .string hquote ‹_›
    · rename_i hopen
      exact .openString hquote (Nat.le_of_not_lt hopen)
  split
  · rename_i token hpair
    obtain ⟨d, hhead, hd⟩ := Option.bind_eq_some_iff.mp hpair
    exact .pair hhead hd
  · exact .single rfl

theorem Munched.of_eq {base count : Nat} {c : Char} {rest : Text} {token : Option Token}
    (h : munch base c rest = (token, count)) : Munched base c rest token count := by
  have hmunched := munch_munched base c rest
  rwa [h] at hmunched

/-- No single character is a token of several. -/
theorem single_ne {token : Token} (h : token ∈ [.number, .identifier, .string, .openString, .arrow]) (c : Char) :
    single c ≠ token := by
  rintro rfl
  unfold single at h
  split at h <;> exact absurd h (by decide)

/-- No two characters make a token that goes on as far as it can. -/
theorem pair_ne {token : Token} (h : token ∈ [.number, .identifier, .string, .openString]) (c d : Char) :
    pair c d ≠ some token := by
  intro hpair
  unfold pair at hpair
  split at hpair <;> cases hpair <;> exact absurd h (by decide)

theorem munch_none {base n : Nat} {c : Char} {rest : Text} (h : munch base c rest = (none, n)) :
    isBlank c ∧ n = 0 := by
  cases Munched.of_eq h with
  | blank hblank => exact ⟨hblank, rfl⟩

/-- A blank is skipped, or it is a stray character. -/
theorem munch_of_blank {c : Char} (hc : Text.isBlank c) (base : Nat) (rest : Text) :
    munch base c rest = (none, 0) ∨ munch base c rest = (some .stray, 0) := by
  have hfacts : ∀ code ∈ Text.blanks, let d := Char.ofNat code
      d.isDigit = false ∧ d ≠ '.' ∧ d.isAlpha = false ∧ d ≠ '"' ∧ single d = .stray ∧
        d ≠ '=' ∧ d ≠ '!' ∧ d ≠ '<' ∧ d ≠ '>' := by decide
  have hd := hfacts c.toNat (by simpa [Text.isBlank] using hc)
  simp only [Char.ofNat_toNat] at hd
  obtain ⟨hdigit, hdot, halpha, hquote, hsingle, heq, hbang, hless, hgreater⟩ := hd
  have hpair : rest.head?.bind (pair c) = none := by
    refine Option.bind_eq_none_iff.mpr fun d _ => ?_
    unfold pair
    split <;> first | rfl | contradiction
  unfold munch
  split
  · exact .inl rfl
  · refine .inr ?_
    simp only [hdigit, hdot, halpha, false_and, Bool.false_eq_true, if_false, hpair, hsingle]

/-- No token but a stray character starts with a blank. -/
theorem munch_blank {base n : Nat} {c : Char} {rest : Text} {token : Token} (hc : Text.isBlank c)
    (h : munch base c rest = (some token, n)) : token = .stray := by
  rcases munch_of_blank hc base rest with hm | hm
  · cases hm.symm.trans h
  · exact (Option.some.inj (congrArg Prod.fst (hm.symm.trans h))).symm

/-- Where the first lexeme comes from: only blanks are skipped before it, and what follows it is lexed by
itself. -/
theorem lex_eq_cons {base offset : Nat} {t : Text} {l : Lexeme} {others : List Lexeme}
    (h : lex base offset t = l :: others) :
    ∃ (skipped : Text) (c : Char) (rest : Text) (count : Nat), t = skipped ++ c :: rest ∧
      (∀ d ∈ skipped, isBlank d) ∧ munch base c rest = (some l.token, count) ∧
      l.start = offset + byteLength skipped ∧ l.stop = l.start + byteLength (c :: rest.take count) ∧
      others = lex base l.stop (rest.drop count) := by
  fun_induction lex base offset t with
  | case1 => exact nomatch h
  | case2 offset c rest count after others' hm ih =>
    obtain ⟨hblank, rfl⟩ := munch_none hm
    obtain ⟨skipped, d, rest', count, hrest, hskipped, hd, hstart, hstop, hothers⟩ := ih h
    rw [List.drop_zero] at hrest
    refine ⟨c :: skipped, d, rest', count, by rw [hrest, List.cons_append], ?_, hd, ?_, hstop, hothers⟩
    · exact List.forall_mem_cons.mpr ⟨hblank, hskipped⟩
    · simp only [hstart, after, Text.byteLength_cons, List.take_zero, Text.byteLength_nil]
      omega
  | case3 offset c rest count after others' token hm ih =>
    obtain ⟨rfl, rfl⟩ := List.cons.inj h
    exact ⟨[], c, rest, count, rfl, nofun, hm, rfl, rfl, rfl⟩

/-- Lexemes stand in order within the text. -/
theorem lex_bounds {base offset : Nat} {t : Text} {l : Lexeme} (h : l ∈ lex base offset t) :
    offset ≤ l.start ∧ l.start < l.stop := by
  fun_induction lex base offset t with
  | case1 => exact nomatch h
  | case2 offset c rest count after others hm ih =>
    exact ⟨Nat.le_trans (Nat.le_add_right _ _) (ih h).1, (ih h).2⟩
  | case3 offset c rest count after others token hm ih =>
    rcases List.mem_cons.mp h with rfl | h
    · have hpos := c.utf8Size_pos
      simp only [after, Text.byteLength_cons]
      omega
    · exact ⟨Nat.le_trans (Nat.le_add_right _ _) (ih h).1, (ih h).2⟩

private theorem dropBytes_take (c : Char) (rest : Text) (count n : Nat) :
    dropBytes (byteLength (c :: rest.take count) + n) (c :: rest) = dropBytes n (rest.drop count) := by
  have h := Text.dropBytes_append (c :: rest.take count) (rest.drop count) n
  rwa [List.cons_append, List.take_append_drop] at h

/-- What follows a lexeme is lexed by itself. -/
theorem lex_behind {base offset : Nat} {t : Text} {before after : List Lexeme} {l : Lexeme}
    (h : lex base offset t = before ++ l :: after) :
    lex base l.stop (dropBytes (l.stop - offset) t) = after := by
  fun_induction lex base offset t generalizing before with
  | case1 => exact absurd h (by simp)
  | case2 offset c rest count next others hm =>
    rename_i ih
    have hl : l ∈ others := h ▸ List.mem_append_right _ List.mem_cons_self
    have hb := lex_bounds hl
    have hsplit : l.stop - offset = byteLength (c :: rest.take count) + (l.stop - next) := by omega
    rw [hsplit, dropBytes_take]
    exact ih h
  | case3 offset c rest count next others token hm =>
    rename_i ih
    cases before with
    | nil =>
      obtain ⟨rfl, rfl⟩ := List.cons.inj h
      have hsplit : next - offset = byteLength (c :: rest.take count) + 0 := by omega
      simp only
      rw [hsplit, dropBytes_take, dropBytes]
    | cons first before =>
      obtain ⟨-, hothers⟩ := List.cons.inj h
      have hl : l ∈ others := hothers ▸ List.mem_append_right _ List.mem_cons_self
      have hb := lex_bounds hl
      have hsplit : l.stop - offset = byteLength (c :: rest.take count) + (l.stop - next) := by omega
      rw [hsplit, dropBytes_take]
      exact ih hothers

/-- The letter that selects a base takes up one byte. -/
theorem utf8Size_of_markedBase {ambient base : Nat} {letter : Char} (h : markedBase ambient letter = some base) :
    letter.utf8Size = 1 := by
  unfold markedBase at h
  split at h
  · exact nomatch h
  · split at h <;> first | rfl | exact nomatch h

private theorem pair_eq_arrow {c d : Char} (h : pair c d = some .arrow) : c = '=' ∧ d = '>' := by
  unfold pair at h
  split at h <;> first | exact ⟨rfl, rfl⟩ | exact nomatch h

/-- An arrow is written with two characters. -/
theorem munch_arrow {base n : Nat} {c : Char} {rest : Text} (h : munch base c rest = (some .arrow, n)) :
    c = '=' ∧ rest.head? = some '>' ∧ n = 1 := by
  cases Munched.of_eq h with
  | pair hhead hpair =>
    obtain ⟨rfl, rfl⟩ := pair_eq_arrow hpair
    exact ⟨rfl, hhead, rfl⟩
  | single hsingle => exact absurd hsingle (single_ne (by decide) c)

theorem lex_arrow {base offset : Nat} {t : Text} {l : Lexeme} (h : l ∈ lex base offset t)
    (hl : l.token = .arrow) : l.stop = l.start + 2 := by
  fun_induction lex base offset t with
  | case1 => exact nomatch h
  | case2 offset c rest count after others hm ih => exact ih h
  | case3 offset c rest count after others token hm ih =>
    rcases List.mem_cons.mp h with rfl | h
    · simp only at hl
      obtain ⟨rfl, hhead, rfl⟩ := munch_arrow (hl ▸ hm)
      cases rest with
      | nil => exact nomatch hhead
      | cons d rest =>
        obtain rfl := Option.some.inj hhead
        rfl
    · exact ih h

/-- An identifier is a letter and all characters of names behind it. -/
theorem munch_identifier {base n : Nat} {c : Char} {rest : Text}
    (h : munch base c rest = (some .identifier, n)) :
    c.isAlpha ∧ n = (rest.takeWhile isNameChar).length := by
  cases Munched.of_eq h with
  | name halpha => exact ⟨halpha, rfl⟩
  | pair hhead hpair => exact absurd hpair (pair_ne (by decide) c _)
  | single hsingle => exact absurd hsingle (single_ne (by decide) c)

/-- The first lexeme, when it is an identifier, is a name between what is skipped before it and
characters that no longer belong to a name. -/
private theorem lex_eq_identifier {base offset start stop : Nat} {t : Text} {others : List Lexeme}
    (h : lex base offset t = ⟨.identifier, start, stop⟩ :: others) :
    ∃ skipped name rest : Text, t = skipped ++ name ++ rest ∧ name.IsName ∧
      start = offset + byteLength skipped ∧ stop = start + byteLength name := by
  obtain ⟨skipped, c, rest, count, rfl, -, hm, hstart, hstop, -⟩ := lex_eq_cons h
  obtain ⟨hc, rfl⟩ := munch_identifier hm
  refine ⟨skipped, c :: rest.takeWhile isNameChar, rest.dropWhile isNameChar, ?_, ⟨hc, ?_⟩, hstart, ?_⟩
  · simp
  · exact List.all_eq_true.mp List.all_takeWhile
  · simp only at hstop
    rw [hstop, ← List.prefix_iff_eq_take.mp (List.takeWhile_prefix isNameChar)]

end Lexeme

namespace Statement

theorem word?_isName {t name : Text} (h : word? t = some name) : name.IsName := by
  unfold word? at h
  split at h
  · rename_i start stop _ hlex
    obtain ⟨skipped, name', rest, rfl, hname, hstart, rfl⟩ := Lexeme.lex_eq_identifier hlex
    rw [Nat.zero_add] at hstart
    rw [hstart, Text.slice_append] at h
    exact Option.some.inj h ▸ hname
  · exact nomatch h

end Statement
end Reckoner
