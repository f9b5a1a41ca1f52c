import Reckoner.Proofs.Joining

/-! Texts that are cut where a lexeme starts. A lexeme that ends within a text does not depend on what stands behind
it, so what stands in front of the cut is lexed by itself. -/
namespace Reckoner.Lexeme

open Text (byteLength isDigitOf)

variable {base : Nat} {r : Text}

private theorem takeWhile_cut {p : Char → Bool} (t : Text) (h : ((t ++ r).takeWhile p).length ≤ t.length) :
    (t ++ r).takeWhile p = t.takeWhile p := by
  rw [List.takeWhile_append] at h ⊢
  split at h
  · rename_i hall
    rw [List.length_append] at h
    have hnone : r.takeWhile p = [] := List.eq_nil_of_length_eq_zero (by omega)
    rw [if_pos hall, hnone, List.append_nil, (List.takeWhile_prefix p).eq_of_length hall]
  · rename_i hstop
    rw [if_neg hstop]

private theorem digitsLength_cut (dotted : Bool) (t : Text) (h : digitsLength base dotted (t ++ r) ≤ t.length) :
    digitsLength base dotted (t ++ r) = digitsLength base dotted t := by
  induction t generalizing dotted with
  | nil => exact Nat.le_zero.mp h
  | cons c t ih =>
    rw [List.cons_append, digitsLength] at h ⊢
    rw [digitsLength]
    by_cases hdigit : isDigitOf base c
    · rw [if_pos hdigit, List.length_cons] at h
      rw [if_pos hdigit, if_pos hdigit, ih dotted (by omega)]
    · rw [if_neg hdigit] at h ⊢
      rw [if_neg hdigit]
      cases t with
      | cons d t =>
        have hhead : (d :: t ++ r).head? = (d :: t).head? := rfl
        rw [hhead] at h ⊢
        split
        · rename_i hpoint
          rw [if_pos hpoint, List.length_cons] at h
          rw [ih true (by omega)]
        · rfl
      | nil =>
        have hnone : ¬(c = '.' ∧ (!dotted) = true ∧ ([] ++ r : Text).head?.any (isDigitOf base) = true) := by
          intro hpoint
          rw [if_pos hpoint] at h
          -- the digit behind the point belongs to the number
          cases r with
          | nil => simp at hpoint
          | cons d r =>
            have hd : isDigitOf base d := by simpa using hpoint.2.2
            simp [digitsLength, hd] at h
        rw [if_neg hnone]
        simp

private theorem exponentLength_cut (t : Text) (h : exponentLength base (t ++ r) ≤ t.length) :
    exponentLength base (t ++ r) = exponentLength base t := by
  unfold exponentLength at h ⊢
  by_cases he : isDigitOf base 'e'
  · rw [if_pos he, if_pos he]
  rw [if_neg he] at h ⊢
  rw [if_neg he]
  cases t with
  | nil => exact Nat.le_zero.mp h
  | cons c t =>
    simp only [List.cons_append, List.length_cons] at h ⊢
    by_cases hc : c = 'e' ∨ c = 'E'
    · rw [if_pos hc] at h ⊢
      rw [if_pos hc]
      cases t with
      | nil =>
        -- an exponent takes up a digit behind the letter
        rw [List.nil_append] at h ⊢
        generalize (if r.head?.any (fun s => s == '+' || s == '-') then 1 else 0) = sign at h ⊢
        have hnone : ((r.drop sign).takeWhile Char.isDigit).length = 0 :=
          Decidable.byContradiction fun hsome => by
            rw [if_neg hsome, List.length_nil] at h
            omega
        rw [if_pos hnone]
        simp
      | cons s t =>
        have hhead : (s :: t ++ r).head? = (s :: t).head? := rfl
        simp only [hhead] at h ⊢
        generalize hsign : (if (s :: t).head?.any (fun s => s == '+' || s == '-') then 1 else 0) = sign at h ⊢
        have hle : sign ≤ (s :: t).length := by
          rw [← hsign, List.length_cons]
          split <;> omega
        rw [List.drop_append_of_le_length hle] at h ⊢
        have hdigits : ((((s :: t).drop sign) ++ r).takeWhile Char.isDigit).length ≤ ((s :: t).drop sign).length := by
          rw [List.length_drop]
          split at h <;> omega
        rw [takeWhile_cut _ hdigits]
    · rw [if_neg hc, if_neg hc]

/-- A letter selects the base of a number only in front of a digit. -/
private theorem literalBase_or (first : Char) (t : Text) :
    literalBase base first t = (base, 0) ∨ 2 ≤ numberLength base first t := by
  unfold numberLength literalBase
  split
  · split
    · split
      · rename_i hdigit
        refine .inr ?_
        simp only [List.drop_succ_cons, List.drop_zero, digitsLength, if_pos hdigit]
        omega
      · exact .inl rfl
    · exact .inl rfl
  · exact .inl rfl

private theorem literalBase_cut (first : Char) (t : Text) (h : numberLength base first (t ++ r) ≤ t.length) :
    literalBase base first (t ++ r) = literalBase base first t := by
  rcases t with _ | ⟨l, _ | ⟨d, t⟩⟩
  · exact (literalBase_or first _).resolve_right (by simp only [List.length_nil] at h; omega)
  · exact (literalBase_or first _).resolve_right (by simp only [List.length_singleton] at h; omega)
  · rfl

private theorem numberLength_cut (first : Char) (t : Text) (h : numberLength base first (t ++ r) ≤ t.length) :
    numberLength base first (t ++ r) = numberLength base first t := by
  have hbase := literalBase_cut first t h
  have hm := literalBase_mark_le base first t
  unfold numberLength at h ⊢
  rw [hbase] at h ⊢
  generalize literalBase base first t = chosen at hm h ⊢
  obtain ⟨digitBase, mark⟩ := chosen
  simp only at hm h ⊢
  rw [List.drop_append_of_le_length hm] at h ⊢
  have hdigits : digitsLength digitBase (first == '.') (t.drop mark ++ r) =
      digitsLength digitBase (first == '.') (t.drop mark) :=
    digitsLength_cut _ _ (by rw [List.length_drop]; omega)
  have hle := digitsLength_le digitBase (first == '.') (t.drop mark)
  rw [List.length_drop] at hle
  rw [hdigits, List.drop_append_of_le_length (by omega)] at h ⊢
  rw [exponentLength_cut _ (by rw [List.length_drop]; omega)]

/-- A lexeme that ends within a text does not depend on what stands behind it. -/
private theorem munch_cut (c : Char) (t : Text) (h : (munch base c (t ++ r)).2 ≤ t.length) :
    munch base c (t ++ r) = munch base c t := by
  unfold munch at h ⊢
  by_cases hblank : isBlank c
  · rw [if_pos hblank, if_pos hblank]
  rw [if_neg hblank] at h ⊢
  rw [if_neg hblank]
  by_cases hdigit : c.isDigit
  · rw [if_pos hdigit] at h ⊢
    rw [if_pos hdigit, numberLength_cut c t h]
  rw [if_neg hdigit] at h ⊢
  rw [if_neg hdigit]
  by_cases hpoint : c = '.' ∧ (t ++ r).head?.any Char.isDigit
  · rw [if_pos hpoint] at h ⊢
    cases t with
    | nil => exact absurd h (by simp)
    | cons d t =>
      rw [List.length_cons] at h
      simp only [List.cons_append, List.drop_succ_cons, List.drop_zero] at h ⊢
      have hsame : c = '.' ∧ (d :: t).head?.any Char.isDigit := hpoint
      rw [numberLength_cut c t (by omega), if_pos hsame]
  have hpoint' : ¬(c = '.' ∧ t.head?.any Char.isDigit) := fun hp => hpoint ⟨hp.1, by
    cases t with
    | nil => exact absurd hp.2 (by simp)
    | cons => exact hp.2⟩
  rw [if_neg hpoint] at h ⊢
  rw [if_neg hpoint']
  by_cases hname : c.isAlpha
  · rw [if_pos hname] at h ⊢
    rw [if_pos hname, takeWhile_cut t h]
  rw [if_neg hname] at h ⊢
  rw [if_neg hname]
  by_cases hquote : c = '"'
  · rw [if_pos hquote] at h ⊢
    rw [if_pos hquote]
    simp only at h ⊢
    by_cases hclosed : ((t ++ r).takeWhile (· ≠ '"')).length < (t ++ r).length
    · rw [if_pos hclosed] at h ⊢
      have hsame := takeWhile_cut (r := r) (p := (· ≠ '"')) t (Nat.le_of_succ_le h)
      rw [hsame] at h ⊢
      rw [if_pos (Nat.lt_of_succ_le h)]
    · rw [if_neg hclosed] at h
      simp only [List.length_append] at h hclosed
      have hr : r = [] := List.eq_nil_of_length_eq_zero (by omega)
      rw [hr, List.append_nil]
  rw [if_neg hquote] at h ⊢
  rw [if_neg hquote]
  cases t with
  | cons d t => rfl
  | nil =>
    cases hpair : ([] ++ r : Text).head?.bind (pair c) with
    | none => rfl
    | some token =>
      rw [hpair] at h
      exact absurd h (by simp)

private theorem length_le_of_byteLength_take {n : Nat} {t : Text} (hn : n ≤ (t ++ r).length)
    (h : byteLength ((t ++ r).take n) ≤ byteLength t) : n ≤ t.length :=
  Decidable.byContradiction fun hlong => by
    obtain ⟨k, hk⟩ : ∃ k, n = t.length + (k + 1) := ⟨n - t.length - 1, by omega⟩
    cases r with
    | nil =>
      rw [List.append_nil] at hn
      omega
    | cons d r =>
      have hd := d.utf8Size_pos
      rw [hk, List.take_length_add_append, Text.byteLength_append, List.take_succ_cons, Text.byteLength_cons] at h
      omega

/-- A lexeme starts where the one before it has ended. -/
private theorem stop_le_start {offset : Nat} {t : Text} {first l : Lexeme} {ls : List Lexeme}
    (h : lex base offset t = first :: ls) (hl : l ∈ ls) : first.stop ≤ l.start := by
  obtain ⟨_, _, _, _, _, _, _, _, _, hothers⟩ := lex_eq_cons h
  exact (lex_bounds (hothers ▸ hl)).1

/-- The lexemes in front of a place where a lexeme starts are those of the text up to there. -/
theorem lex_cut {offset : Nat} {w : Text} {before after : List Lexeme} {l : Lexeme}
    (h : lex base offset (w ++ r) = before ++ l :: after) (hl : l.start = offset + byteLength w) :
    lex base offset w = before := by
  fun_induction lex base offset w generalizing before with
  | case1 offset =>
    cases before with
    | nil => rfl
    | cons first before =>
      have hfirst := lex_bounds (h ▸ List.mem_cons_self : first ∈ lex base offset ([] ++ r))
      have hplace := stop_le_start h (List.mem_append_right before List.mem_cons_self)
      rw [Text.byteLength_nil] at hl
      omega
  | case2 offset c rest count next others hm =>
    rename_i ih
    obtain ⟨hblank, rfl⟩ := munch_none hm
    have hskip : munch base c (rest ++ r) = (none, 0) := if_pos hblank
    rw [List.cons_append, lex, hskip] at h
    refine ih h ?_
    rw [hl]
    simp only [next, Text.byteLength_cons, List.take_zero, Text.byteLength_nil, List.drop_zero]
    omega
  | case3 offset c rest count next others token hm =>
    rename_i ih
    have hpos := c.utf8Size_pos
    have hfirst : (munch base c (rest ++ r)).2 ≤ (rest ++ r).length := munch_le base c (rest ++ r)
    rw [Text.byteLength_cons] at hl
    rcases hlonger : munch base c (rest ++ r) with ⟨_ | token', n⟩
    · have hblank : munch base c rest = (none, 0) := if_pos (munch_none hlonger).1
      cases hm.symm.trans hblank
    · rw [hlonger] at hfirst
      have hwhole := h
      rw [List.cons_append, lex, hlonger] at h
      cases before with
      | nil =>
        obtain ⟨rfl, -⟩ := List.cons.inj h
        simp only at hl
        omega
      | cons first before =>
        have hplace := stop_le_start hwhole (List.mem_append_right before List.mem_cons_self)
        obtain ⟨rfl, hothers⟩ := List.cons.inj h
        simp only [Text.byteLength_cons] at hplace
        have hn : n ≤ rest.length := length_le_of_byteLength_take hfirst (by omega)
        have hsame := munch_cut c rest (by rw [hlonger]; exact hn)
        rw [hlonger, hm] at hsame
        obtain ⟨rfl, rfl⟩ : token' = token ∧ n = count := by simpa using hsame
        simp only [List.take_append_of_le_length hn, List.drop_append_of_le_length hn] at hothers ⊢
        refine congrArg _ (ih hothers ?_)
        rw [hl]
        simp only [next]
        rw [Nat.add_assoc, ← Text.byteLength_append, List.cons_append, List.take_append_drop, Text.byteLength_cons]

end Reckoner.Lexeme
