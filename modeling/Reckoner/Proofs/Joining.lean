import Reckoner.Proofs.Lexing

/-! How texts that are put together are lexed: a closing bracket or a separator ends every lexeme but a
string that is still open, and brackets and words stand for themselves. -/
namespace Reckoner

/-- Nothing, or a text that starts with a separator or a bracket that closes. -/
def Text.Breaks (r : Text) : Prop := ∀ d ∈ r.head?, d = ';' ∨ d = ')' ∨ d = '\x7d' ∨ d = ','

namespace Text

theorem join_singleton (separator w : Text) : join separator [w] = w := by simp [join]

theorem join_cons (separator : Char) (w v : Text) (ws : List Text) :
    join [separator] (w :: v :: ws) = w ++ separator :: join [separator] (v :: ws) := by
  simp [join, List.intercalate]

/-- Behind the first part the separator stands in front of each one. -/
theorem join_flatMap (separator : Char) (w : Text) (ws : List Text) :
    join [separator] (w :: ws) = w ++ ws.flatMap (separator :: ·) := by
  induction ws generalizing w with
  | nil => rw [join_singleton, List.flatMap_nil, List.append_nil]
  | cons v ws ih => rw [join_cons, ih, List.flatMap_cons, List.cons_append]

end Text

namespace Lexeme

open Text (byteLength isDigitOf)

section
variable {base : Nat} {r : Text}

private theorem isDigitOf_eq_false {d : Char} (h : Text.digitValue d = none) (base : Nat) :
    isDigitOf base d = false := by
  simp [isDigitOf, Text.digitOf, h]

structure Ends (d : Char) : Prop where
  digitValue : Text.digitValue d = none
  isDigit : d.isDigit = false
  isNameChar : isNameChar d = false
  ne_dot : d ≠ '.'
  ne_lower : d ≠ 'e'
  ne_upper : d ≠ 'E'
  ne_plus : d ≠ '+'
  ne_minus : d ≠ '-'
  pair (c : Char) : pair c d = none
  markedBase (base : Nat) : markedBase base d = none

theorem pair_eq_none {c d : Char} (hd : d ≠ '=') (hd' : d ≠ '>') : pair c d = none := by
  unfold pair
  split <;> first | rfl | contradiction

/-- A separator, a closing bracket or a sign that starts no longer operator. -/
theorem ends_of_mark {d : Char} (h : d ∈ [';', ')', '\x7d', ',', ']', '*', '^']) : Ends d := by
  have hp (c : Char) : pair c d = none := by
    refine pair_eq_none ?_ ?_ <;> rintro rfl <;> exact absurd h (by decide)
  have hmark (base : Nat) : markedBase base d = none := by
    simp only [List.mem_cons, List.not_mem_nil, or_false] at h
    rcases h with rfl | rfl | rfl | rfl | rfl | rfl | rfl <;> simp [markedBase]
  simp only [List.mem_cons, List.not_mem_nil, or_false] at h
  rcases h with rfl | rfl | rfl | rfl | rfl | rfl | rfl <;>
    exact ⟨by decide, by decide, by decide, by decide, by decide, by decide, by decide, by decide, hp, hmark⟩

theorem ends_of_breaks (hr : r.Breaks) : ∀ d ∈ r.head?, Ends d := fun d hd =>
  ends_of_mark (by rcases hr d hd with rfl | rfl | rfl | rfl <;> decide)

private theorem digitsLength_append (hr : ∀ d ∈ r.head?, Ends d) (dotted : Bool) (t : Text) :
    digitsLength base dotted (t ++ r) = digitsLength base dotted t := by
  induction t generalizing dotted with
  | nil =>
    cases r with
    | nil => rfl
    | cons d r =>
      have hd := hr d rfl
      simp [digitsLength, isDigitOf_eq_false hd.digitValue, hd.ne_dot]
  | cons c t ih =>
    have hhead : (t ++ r).head?.any (isDigitOf base) = t.head?.any (isDigitOf base) := by
      cases t with
      | cons => rfl
      | nil =>
        cases r with
        | nil => rfl
        | cons d r => simp [isDigitOf_eq_false (hr d rfl).digitValue]
    simp only [List.cons_append, digitsLength, ih, hhead]

theorem takeWhile_append_breaks {p : Char → Bool} (hp : ∀ d ∈ r.head?, p d = false) (t : Text) :
    (t ++ r).takeWhile p = t.takeWhile p := by
  induction t with
  | nil =>
    cases r with
    | nil => rfl
    | cons d r => simp [hp d rfl]
  | cons c t ih => by_cases hc : p c <;> simp [hc, ih]

/-- What the first character behind a text may decide, a break decides as the end does. -/
private theorem any_head?_append {p : Char → Bool} (hp : ∀ d ∈ r.head?, p d = false) (t : Text) :
    (t ++ r).head?.any p = t.head?.any p := by
  cases t with
  | cons c t => rfl
  | nil =>
    cases r with
    | nil => rfl
    | cons d r => simp [hp d rfl]

private theorem exponentLength_append (hr : ∀ d ∈ r.head?, Ends d) (t : Text) :
    exponentLength base (t ++ r) = exponentLength base t := by
  have hdigit : ∀ d ∈ r.head?, d.isDigit = false := fun d hd => (hr d hd).isDigit
  unfold exponentLength
  split
  · rfl
  cases t with
  | nil =>
    cases r with
    | nil => rfl
    | cons d r =>
      have hd := hr d rfl
      simp [hd.ne_lower, hd.ne_upper]
  | cons c t =>
    have hsign : (t ++ r).head?.any (fun s => s == '+' || s == '-') =
        t.head?.any fun s => s == '+' || s == '-' := by
      refine any_head?_append (fun d hd => ?_) t
      have hd := hr d hd
      simp [hd.ne_plus, hd.ne_minus]
    have hle : (if t.head?.any (fun s => s == '+' || s == '-') then 1 else 0) ≤ t.length := by
      cases t <;> simp
      split <;> omega
    simp only [List.cons_append, hsign, List.drop_append_of_le_length hle, takeWhile_append_breaks hdigit]

private theorem literalBase_append (hr : ∀ d ∈ r.head?, Ends d) (first : Char) (t : Text) :
    literalBase base first (t ++ r) = literalBase base first t := by
  rcases t with _ | ⟨l, _ | ⟨d, t⟩⟩
  · rcases r with _ | ⟨d, _ | ⟨l, r⟩⟩
    · rfl
    · rfl
    · simp [literalBase, (hr d rfl).markedBase]
  · cases r with
    | nil => rfl
    | cons d r =>
      have hd := hr d rfl
      simp only [List.singleton_append, literalBase, isDigitOf_eq_false hd.digitValue]
      split <;> simp
  · rfl

theorem literalBase_mark_le (base : Nat) (first : Char) (t : Text) : (literalBase base first t).2 ≤ t.length := by
  unfold literalBase
  split
  · split
    · split <;> simp
    · simp
  · simp

theorem digitsLength_le (base : Nat) (dotted : Bool) (t : Text) : digitsLength base dotted t ≤ t.length := by
  induction t generalizing dotted with
  | nil => exact Nat.le_refl 0
  | cons c t ih =>
    unfold digitsLength
    split
    · exact Nat.succ_le_succ (ih dotted)
    · split
      · exact Nat.succ_le_succ (ih true)
      · exact Nat.zero_le _

private theorem exponentLength_le (base : Nat) (t : Text) : exponentLength base t ≤ t.length := by
  cases t with
  | nil =>
    unfold exponentLength
    split <;> exact Nat.le_refl 0
  | cons c rest =>
    have hle (sign : Nat) : ((rest.drop sign).takeWhile Char.isDigit).length ≤ rest.length - sign := by
      simpa using (List.takeWhile_prefix (l := rest.drop sign) Char.isDigit).length_le
    have h0 := hle 0
    have h1 := hle 1
    unfold exponentLength
    simp only [List.length_cons]
    split
    · omega
    · split
      · split <;> split <;> omega
      · omega

private theorem numberLength_le (base : Nat) (first : Char) (t : Text) : numberLength base first t ≤ t.length := by
  unfold numberLength
  have hm := literalBase_mark_le base first t
  generalize literalBase base first t = chosen at hm ⊢
  obtain ⟨digitBase, mark⟩ := chosen
  have hd := digitsLength_le digitBase (first == '.') (t.drop mark)
  have he := exponentLength_le digitBase
    (t.drop (mark + digitsLength digitBase (first == '.') (t.drop mark)))
  simp only [List.length_drop] at hd he hm ⊢
  omega

private theorem numberLength_append (hr : ∀ d ∈ r.head?, Ends d) (first : Char) (t : Text) :
    numberLength base first (t ++ r) = numberLength base first t := by
  unfold numberLength
  rw [literalBase_append hr]
  have hm := literalBase_mark_le base first t
  generalize literalBase base first t = chosen at hm ⊢
  obtain ⟨digitBase, mark⟩ := chosen
  have hd := digitsLength_le digitBase (first == '.') (t.drop mark)
  rw [List.length_drop] at hd
  simp only at hm ⊢
  rw [List.drop_append_of_le_length hm, digitsLength_append hr, List.drop_append_of_le_length (by omega),
    exponentLength_append hr]

/-- A break changes nothing about the lexemes before it, but for a string that is open. -/
private theorem munch_append (hr : ∀ d ∈ r.head?, Ends d) (c : Char) (t : Text)
    (h : (munch base c t).1 ≠ some .openString) :
    munch base c (t ++ r) = munch base c t := by
  have hname : ∀ d ∈ r.head?, isNameChar d = false := fun d hd => (hr d hd).isNameChar
  have hdigit : ∀ d ∈ r.head?, d.isDigit = false := fun d hd => (hr d hd).isDigit
  unfold munch at h ⊢
  split
  · rfl
  split
  · rw [numberLength_append hr]
  rw [any_head?_append hdigit]
  split
  · rename_i hdot
    obtain ⟨d, t, rfl⟩ : ∃ d t', t = d :: t' := by
      cases t with
      | nil => simp at hdot
      | cons d t => exact ⟨d, t, rfl⟩
    simp only [List.cons_append, List.drop_succ_cons, List.drop_zero]
    rw [numberLength_append hr]
  split
  · rw [takeWhile_append_breaks hname]
  split
  · rename_i hblank hd hdot halpha hquote
    have hclosed : (t.takeWhile (· ≠ '"')).length < t.length :=
      Decidable.byContradiction fun hopen => h <| by
        rw [if_neg hblank, if_neg hd, if_neg hdot, if_neg halpha, if_pos hquote]
        simp only
        rw [if_neg hopen]
    have hsame : (t ++ r).takeWhile (· ≠ '"') = t.takeWhile (· ≠ '"') := by
      rw [List.takeWhile_append, if_neg (Nat.ne_of_lt hclosed)]
    simp only [hsame, hclosed, List.length_append, Nat.lt_add_right, if_true]
  · have hpair : (t ++ r).head?.bind (pair c) = t.head?.bind (pair c) := by
      cases t with
      | cons d t => rfl
      | nil =>
        cases r with
        | nil => rfl
        | cons d r => simpa using (hr d rfl).pair c
    rw [hpair]

theorem munch_le (base : Nat) (c : Char) (t : Text) : (munch base c t).2 ≤ t.length := by
  have hmunched := munch_munched base c t
  generalize munch base c t = munched at hmunched ⊢
  obtain ⟨token, count⟩ := munched
  cases hmunched with
  | blank => exact Nat.zero_le _
  | digit => exact numberLength_le base c t
  | point hpoint hnext =>
    cases t with
    | nil => exact absurd hnext (by simp)
    | cons d t =>
      have hn := numberLength_le base c t
      change 1 + numberLength base c t ≤ t.length + 1
      omega
  | name => exact (List.takeWhile_prefix _).length_le
  | string hquote hlt => exact hlt
  | openString => exact (List.takeWhile_prefix _).length_le
  | pair hhead hpair =>
    cases t with
    | nil => cases hhead
    | cons d t => simp
  | single => exact Nat.zero_le _

/-- The lexemes of a text without an open string stay the same before a break, and what follows is lexed by
itself. -/
theorem lex_append (hr : ∀ d ∈ r.head?, Ends d) (offset : Nat) (t : Text)
    (h : ∀ l ∈ lex base offset t, l.token ≠ .openString) :
    lex base offset (t ++ r) = lex base offset t ++ lex base (offset + byteLength t) r := by
  fun_induction lex base offset t with
  | case1 => simp
  | case2 offset c rest count after others hm ih =>
    have hle : count ≤ rest.length := by simpa [hm] using munch_le base c rest
    have hsame : munch base c (rest ++ r) = (none, count) := by
      rw [munch_append hr c rest (by simp [hm]), hm]
    have hstop : after + byteLength (rest.drop count) = offset + byteLength (c :: rest) := by
      simp only [after]
      rw [Nat.add_assoc, ← Text.byteLength_append, List.cons_append, List.take_append_drop]
    rw [List.cons_append, lex, hsame]
    simp only
    rw [List.take_append_of_le_length hle, List.drop_append_of_le_length hle, ih h, hstop]
  | case3 offset c rest count after others token hm ih =>
    obtain ⟨hfirst, hothers⟩ := List.forall_mem_cons.mp h
    have hle : count ≤ rest.length := by simpa [hm] using munch_le base c rest
    have hsame : munch base c (rest ++ r) = (some token, count) := by
      rw [munch_append hr c rest (by simpa [hm] using hfirst), hm]
    have hstop : after + byteLength (rest.drop count) = offset + byteLength (c :: rest) := by
      simp only [after]
      rw [Nat.add_assoc, ← Text.byteLength_append, List.cons_append, List.take_append_drop]
    rw [List.cons_append, lex, hsame]
    simp only
    rw [List.take_append_of_le_length hle, List.drop_append_of_le_length hle, ih hothers, hstop,
      List.cons_append]

structure Alone (c : Char) : Prop where
  munch (base : Nat) (t : Text) : munch base c t = (some (single c), 0)
  utf8Size : c.utf8Size = 1

theorem alone_of_mark {c : Char} (hc : c ∈ ['(', ')', '[', ']', '\x7b', '\x7d', ';', ',', '*', '^', '-']) :
    Alone c := by
  have hpair (t : Text) : t.head?.bind (pair c) = none := by
    cases t with
    | nil => rfl
    | cons d t =>
      show pair c d = none
      unfold pair
      split <;> first | rfl | exact absurd hc (by decide)
  simp only [List.mem_cons, List.not_mem_nil, or_false] at hc
  refine ⟨fun base t => ?_, ?_⟩
  · unfold Lexeme.munch
    rw [hpair]
    rcases hc with rfl | rfl | rfl | rfl | rfl | rfl | rfl | rfl | rfl | rfl | rfl <;> simp [isBlank]
  · rcases hc with rfl | rfl | rfl | rfl | rfl | rfl | rfl | rfl | rfl | rfl | rfl <;> rfl

theorem lex_alone {c : Char} (hc : Alone c) (offset : Nat) (t : Text) :
    lex base offset (c :: t) = ⟨single c, offset, offset + 1⟩ :: lex base (offset + 1) t := by
  rw [lex, hc.munch]
  simp [hc.utf8Size]

/-- Brackets and separators are lexemes of their own. -/
theorem lex_bracket {c : Char} (hc : c = '(' ∨ c = ')' ∨ c = '\x7b' ∨ c = '\x7d' ∨ c = ';' ∨ c = ',')
    (offset : Nat) (t : Text) :
    lex base offset (c :: t) = ⟨single c, offset, offset + 1⟩ :: lex base (offset + 1) t :=
  lex_alone (alone_of_mark (by rcases hc with rfl | rfl | rfl | rfl | rfl | rfl <;> decide)) offset t

theorem lex_assign {t : Text} (ht : ∀ d ∈ t.head?, d ≠ '=' ∧ d ≠ '>') (offset : Nat) :
    lex base offset ('=' :: t) = ⟨.assign, offset, offset + 1⟩ :: lex base (offset + 1) t := by
  have hpair : t.head?.bind (pair '=') = none := by
    cases t with
    | nil => rfl
    | cons d t => exact pair_eq_none (ht d rfl).1 (ht d rfl).2
  have hmunch : munch base '=' t = (some .assign, 0) := by
    unfold munch
    rw [hpair]
    simp [isBlank, single]
  have hsize : '='.utf8Size = 1 := rfl
  rw [lex, hmunch]
  simp [hsize]

theorem lex_space (offset : Nat) (t : Text) : lex base offset (' ' :: t) = lex base (offset + 1) t := by
  have hmunch : munch base ' ' t = (none, 0) := by simp [munch, isBlank]
  have hsize : ' '.utf8Size = 1 := rfl
  rw [lex, hmunch]
  simp [hsize]

private theorem isDigit_of_isAlpha {c : Char} (h : c.isAlpha) : c.isDigit = false := by
  have hletter := Text.range_of_isAlpha h
  rw [← Bool.not_eq_true]
  intro hdigit
  simp only [Char.isDigit, Bool.and_eq_true, decide_eq_true_eq, ge_iff_le, UInt32.le_iff_toNat_le] at hdigit
  have hrange : 48 ≤ c.toNat ∧ c.toNat ≤ 57 := hdigit
  omega

/-- A name is one lexeme when what follows does not go on with it. -/
theorem lex_name {name t : Text} (hn : name.IsName) (ht : ∀ d ∈ t.head?, isNameChar d = false)
    (offset : Nat) :
    lex base offset (name ++ t) =
      ⟨.identifier, offset, offset + byteLength name⟩ :: lex base (offset + byteLength name) t := by
  match name, hn with
  | c :: rest, ⟨hc, hrest⟩ =>
    have hall : (rest ++ t).takeWhile isNameChar = rest := by
      rw [takeWhile_append_breaks ht, ← List.append_nil rest, List.takeWhile_append_of_pos hrest]
      rfl
    have hmunch : munch base c (rest ++ t) = (some .identifier, rest.length) := by
      have hblank : isBlank c = false := by
        simp only [isBlank, Bool.or_eq_false_iff, beq_eq_false_iff_ne]
        refine ⟨⟨⟨⟨?_, ?_⟩, ?_⟩, ?_⟩, ?_⟩ <;> rintro rfl <;> exact absurd hc (by decide)
      have hdot : c ≠ '.' := by
        rintro rfl
        exact absurd hc (by decide)
      have hdigit : c.isDigit = false := isDigit_of_isAlpha hc
      simp [munch, hblank, hdigit, hdot, hc, hall]
    rw [List.cons_append, lex, hmunch]
    simp

theorem isDigitOf_ten {c : Char} (hc : c.isDigit) : isDigitOf 10 c = true := by
  have hrange : '0' ≤ c ∧ c ≤ '9' := by simpa [Char.isDigit, Char.le_def] using hc
  have hle : c.toNat ≤ 57 := UInt32.le_iff_toNat_le.mp hrange.2
  have hvalue : Text.digitValue c = some (c.toNat - 48) := if_pos hrange
  rw [isDigitOf, Text.digitOf, hvalue]
  simp only [Option.isSome_filter, Option.any_some, decide_eq_true_eq]
  omega

private theorem digitsLength_digits {digits : Text} (hdigits : ∀ c ∈ digits, c.isDigit) (dotted : Bool) :
    digitsLength 10 dotted digits = digits.length := by
  induction digits generalizing dotted with
  | nil => rfl
  | cons c digits ih =>
    obtain ⟨hc, hrest⟩ := List.forall_mem_cons.mp hdigits
    rw [digitsLength, if_pos (isDigitOf_ten hc), ih hrest, List.length_cons]

private theorem numberLength_digits {digits : Text} (hdigits : ∀ c ∈ digits, c.isDigit) (first : Char) :
    numberLength 10 first digits = digits.length := by
  have hbase : literalBase 10 first digits = (10, 0) := by
    rcases digits with _ | ⟨letter, _ | ⟨digit, rest⟩⟩
    · rfl
    · rfl
    · have hmark : markedBase 10 letter = none := by
        unfold markedBase
        rw [if_pos (isDigitOf_ten (hdigits letter List.mem_cons_self))]
      simp [literalBase, hmark]
  simp only [numberLength, hbase, List.drop_zero, digitsLength_digits hdigits, Nat.zero_add, List.drop_length]
  rfl

/-- A run of decimal digits is one lexeme when what follows does not go on with it. -/
theorem lex_digits {digits t : Text} (hne : digits ≠ []) (hdigits : ∀ c ∈ digits, c.isDigit)
    (ht : ∀ d ∈ t.head?, Ends d) (offset : Nat) :
    lex 10 offset (digits ++ t) =
      ⟨.number, offset, offset + byteLength digits⟩ :: lex 10 (offset + byteLength digits) t := by
  obtain ⟨c, rest, rfl⟩ := List.exists_cons_of_ne_nil hne
  obtain ⟨hc, hrest⟩ := List.forall_mem_cons.mp hdigits
  have hblank : isBlank c = false := by
    simp only [isBlank, Bool.or_eq_false_iff, beq_eq_false_iff_ne]
    refine ⟨⟨⟨⟨?_, ?_⟩, ?_⟩, ?_⟩, ?_⟩ <;> rintro rfl <;> exact absurd hc (by decide)
  have hmunch : munch 10 c (rest ++ t) = (some .number, rest.length) := by
    simp only [munch, hblank, hc, numberLength_append ht, numberLength_digits hrest, Bool.false_eq_true, if_false,
      if_true]
  rw [List.cons_append, lex, hmunch]
  simp

end
end Lexeme
end Reckoner
