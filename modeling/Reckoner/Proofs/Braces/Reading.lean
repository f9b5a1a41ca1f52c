import Reckoner.Proofs.Braces.Cut

/-! Statements by the words that they start with: one rule for each kind of statement, and the rules tell what is
read. -/
namespace Reckoner.Statement

open Nesting (level)
open Render (parenthesized braced)
open Text (byteLength dropBytes findOutside groupEnd leadingBlank)

def leadingWords : List Text := ["if", "while", "else", "return", "break", "continue"].map String.toList

def conditionalWord (loops : Bool) : Text := if loops then "while".toList else "if".toList

def jumpWord (leaves : Bool) : Text := if leaves then "break".toList else "continue".toList

def behindElse (t : Text) : Nat := 4 + Text.leadingBlank (dropBytes 4 t)

def innerIf (start : Nat) (t : Text) : Statement × Nat :=
  readConditional false (start + behindElse t + 2) (dropBytes (behindElse t + 2) t)

def behindInnerIf (start : Nat) (t : Text) : Nat :=
  max 4 ((innerIf start t).2 - start) + separators (dropBytes (max 4 ((innerIf start t).2 - start)) t)

inductive Reads (start : Nat) (t : Text) (r : Statement × Nat) : Prop
  | expression
      (hword : ∀ w, word? t = some w → w ∉ leadingWords ∧ assignment? (dropBytes (byteLength w) t) = none)
      (hr : r = (.expression (upToSemicolon start 0 t).1 (upToSemicolon start 0 t).2, (upToSemicolon start 0 t).2))
  | giveBack (hword : word? t = some "return".toList)
      (hr : r = (.giveBack (upToSemicolon start (byteLength "return".toList) t).1
          (upToSemicolon start (byteLength "return".toList) t).2,
        (upToSemicolon start (byteLength "return".toList) t).2))
  | jump (leaves : Bool) (hword : word? t = some (jumpWord leaves))
      (hr : r = (.jump leaves start (upToSemicolon start (byteLength (jumpWord leaves)) t).1
          (upToSemicolon start (byteLength (jumpWord leaves)) t).2,
        (upToSemicolon start (byteLength (jumpWord leaves)) t).2))
  | assign (name : Text) (value : Nat) (hword : word? t = some name) (hname : name ∉ leadingWords)
      (hvalue : assignment? (dropBytes (byteLength name) t) = some value)
      (hr : r = (.assign name start (upToSemicolon start (byteLength name + value) t).1
          (upToSemicolon start (byteLength name + value) t).2,
        (upToSemicolon start (byteLength name + value) t).2))
  | conditional (loops : Bool) (hword : word? t = some (conditionalWord loops))
      (hr : r = readConditional loops (start + byteLength (conditionalWord loops))
        (dropBytes (byteLength (conditionalWord loops)) t))
  | otherwise (hword : word? t = some "else".toList) (hif : word? (dropBytes (behindElse t) t) ≠ some "if".toList)
      (hr : r = (.otherwise start (readBody (start + 4) (dropBytes 4 t)).1, (readBody (start + 4) (dropBytes 4 t)).2))
  | elseIf (hword : word? t = some "else".toList) (hif : word? (dropBytes (behindElse t) t) = some "if".toList)
      (hnone : word? (dropBytes (behindInnerIf start t) t) ≠ some "else".toList)
      (hr : r = (.otherwiseIf start (innerIf start t).1 none, (innerIf start t).2))
  | elseIfElse (hword : word? t = some "else".toList) (hif : word? (dropBytes (behindElse t) t) = some "if".toList)
      (hagain : word? (dropBytes (behindInnerIf start t) t) = some "else".toList)
      (hr : r = (.otherwiseIf start (innerIf start t).1
          (some (readFirst (start + behindInnerIf start t) (dropBytes (behindInnerIf start t) t)).1),
        (readFirst (start + behindInnerIf start t) (dropBytes (behindInnerIf start t) t)).2))

variable {start : Nat} {t : Text} {r : Statement × Nat}

theorem ne_nil_of_word? {w : Text} (h : word? t = some w) : t ≠ [] := by
  rintro rfl
  rw [word?, Lexeme.lex] at h
  cases h

theorem Reads.eq (h : Reads start t r) : readFirst start t = r := by
  cases h with
  | expression hword hr =>
    rw [hr]
    unfold readFirst
    split
    · rfl
    · rename_i w hw
      obtain ⟨hk, hnone⟩ := hword w hw
      simp only [hnone]
      have hne {word : Text} (hword : word ∈ leadingWords) : w ≠ word := fun h => hk (h ▸ hword)
      rw [if_neg (hne (by decide)), if_neg (hne (by decide)), if_neg (hne (by decide)), if_neg (hne (by decide)),
        if_neg fun h => h.elim (hne (by decide)) (hne (by decide))]
  | giveBack hword hr =>
    rw [hr]
    unfold readFirst
    rw [hword]
    rfl
  | jump leaves hword hr =>
    rw [hr]
    unfold readFirst
    rw [hword]
    cases leaves <;> rfl
  | assign name value hword hk hvalue hr =>
    rw [hr]
    unfold readFirst
    rw [hword]
    simp only [hvalue]
    have hne {word : Text} (hword : word ∈ leadingWords) : name ≠ word := fun h => hk (h ▸ hword)
    rw [if_neg (hne (by decide)), if_neg (hne (by decide)), if_neg (hne (by decide)), if_neg (hne (by decide)),
      if_neg fun h => h.elim (hne (by decide)) (hne (by decide))]
  | conditional loops hword hr =>
    rw [hr]
    unfold readFirst
    rw [hword]
    cases loops <;> rfl
  | otherwise hword hif hr =>
    unfold behindElse at hif
    rw [hr]
    unfold readFirst
    rw [hword]
    simp only
    rw [if_neg (by decide), if_neg (by decide), if_pos trivial, if_neg hif]
  | elseIf hword hif hnone hr =>
    unfold behindInnerIf innerIf behindElse at hnone
    unfold behindElse at hif
    rw [hr, innerIf, behindElse]
    unfold readFirst
    rw [hword]
    simp only
    rw [if_neg (by decide), if_neg (by decide), if_pos trivial, if_pos hif, dif_neg fun h => hnone h.2.2]
  | elseIfElse hword hif hagain hr =>
    have hpos : 0 < behindInnerIf start t := by
      unfold behindInnerIf
      omega
    unfold behindInnerIf innerIf behindElse at hagain hpos
    unfold behindElse at hif
    rw [hr, behindInnerIf, innerIf, behindElse, readFirst.eq_def start t, hword]
    simp only
    rw [if_neg (by decide), if_neg (by decide), if_pos trivial, if_pos hif,
      dif_pos ⟨ne_nil_of_word? hword, hpos, hagain⟩]

/-- What is read is one of the kinds. -/
theorem reads_readFirst (start : Nat) (t : Text) : Reads start t (readFirst start t) := by
  have hkind {r : Statement × Nat} (h : Reads start t r) : Reads start t (readFirst start t) := h.eq.symm ▸ h
  cases hword : word? t with
  | none => exact hkind (.expression (fun w hw => nomatch hword.symm.trans hw) rfl)
  | some w =>
    by_cases hif : w = "if".toList
    · exact hkind (.conditional false (hword.trans (congrArg some hif)) rfl)
    by_cases hwhile : w = "while".toList
    · exact hkind (.conditional true (hword.trans (congrArg some hwhile)) rfl)
    by_cases hreturn : w = "return".toList
    · exact hkind (.giveBack (hword.trans (congrArg some hreturn)) rfl)
    by_cases hbreak : w = "break".toList
    · exact hkind (.jump true (hword.trans (congrArg some hbreak)) rfl)
    by_cases hcontinue : w = "continue".toList
    · exact hkind (.jump false (hword.trans (congrArg some hcontinue)) rfl)
    by_cases helse : w = "else".toList
    · rw [helse] at hword
      by_cases hinner : word? (dropBytes (behindElse t) t) = some "if".toList
      · by_cases hagain : word? (dropBytes (behindInnerIf start t) t) = some "else".toList
        · exact hkind (.elseIfElse hword hinner hagain rfl)
        · exact hkind (.elseIf hword hinner hagain rfl)
      · exact hkind (.otherwise hword hinner rfl)
    have hother : w ∉ leadingWords := by
      simp only [leadingWords, List.map_cons, List.map_nil, List.mem_cons, List.not_mem_nil, or_false, not_or]
      exact ⟨hif, hwhile, helse, hreturn, hbreak, hcontinue⟩
    cases hvalue : assignment? (dropBytes (byteLength w) t) with
    | some value => exact hkind (.assign w value hword hother hvalue rfl)
    | none =>
      refine hkind (.expression (fun w' hw' => ?_) rfl)
      obtain rfl := Option.some.inj (hword.symm.trans hw')
      exact ⟨hother, hvalue⟩

/-! ### Conditions and bodies -/

section
variable {k c w u : Text}

theorem leadingBlank_append (hk : ∀ d ∈ k, Text.isBlank d) (hu : ∀ d ∈ u.head?, Text.isBlank d = false) :
    leadingBlank (k ++ u) = byteLength k := by
  have hzero := Text.leadingBlank_eq_zero hu
  unfold leadingBlank at hzero ⊢
  rw [List.takeWhile_append_of_pos hk, Text.byteLength_append, hzero, Nat.add_zero]

theorem leadingBlank_split (t : Text) : ∃ k u : Text, t = k ++ u ∧ (∀ d ∈ k, Text.isBlank d) ∧
    (∀ d ∈ u.head?, Text.isBlank d = false) := by
  refine ⟨t.takeWhile Text.isBlank, Text.trimStart t, (Text.takeWhile_append_trimStart t).symm,
    List.all_eq_true.mp List.all_takeWhile, fun d hd => ?_⟩
  have hnot := List.head?_dropWhile_not Text.isBlank t
  rw [Text.trimStart] at hd
  rwa [Option.mem_def.mp hd] at hnot

theorem readBody_blank (hk : ∀ d ∈ k, Text.isBlank d) (hu : ∀ d ∈ u.head?, Text.isBlank d = false) (start : Nat) :
    readBody start (k ++ u) = readBody (start + byteLength k) u := by
  unfold readBody
  simp only [leadingBlank_append hk hu, Text.dropBytes_byteLength, Text.leadingBlank_eq_zero hu, Nat.add_zero,
    dropBytes]

theorem readConditional_blank (hk : ∀ d ∈ k, Text.isBlank d) (hu : ∀ d ∈ u.head?, Text.isBlank d = false)
    (loops : Bool) (start : Nat) :
    readConditional loops start (k ++ u) = readConditional loops (start + byteLength k) u := by
  unfold readConditional
  simp only [leadingBlank_append hk hu, Text.dropBytes_byteLength, Text.leadingBlank_eq_zero hu, Nat.add_zero,
    dropBytes]

/-- A text may be read as a body without braces. -/
structure Bare (t : Text) : Prop where
  ne_nil : t ≠ []
  head : ∀ d ∈ t.head?, Text.isBlank d = false ∧ d ≠ '\x7b'

theorem readBody_bare (h : Bare t) (start : Nat) :
    readBody start t = (.bare start (start + findOutside .semicolon t), start + findOutside .semicolon t) := by
  unfold readBody
  simp only [Text.leadingBlank_eq_zero fun d hd => (h.head d hd).1, Nat.add_zero, dropBytes]
  split
  · exact absurd rfl h.ne_nil
  · rw [if_neg (h.head _ rfl).2]

theorem readConditional_closed (hc : c.Steady false) (loops : Bool) (start : Nat) (u : Text) :
    readConditional loops start (parenthesized c ++ u) =
      (.conditional loops (.closed start (start + byteLength (parenthesized c)))
        (readBody (start + byteLength (parenthesized c)) u).1,
        (readBody (start + byteLength (parenthesized c)) u).2) := by
  have hblank : leadingBlank (parenthesized c ++ u) = 0 := Text.leadingBlank_eq_zero fun d hd => by
    obtain rfl := Option.some.inj hd
    decide
  have hgroup : groupEnd (parenthesized c ++ u) = some (byteLength (parenthesized c)) :=
    Text.groupEnd_group .parentheses hc u
  unfold readConditional
  simp only [hblank, Nat.add_zero, dropBytes, hgroup]
  rw [if_neg (by simp [parenthesized]), Text.dropBytes_byteLength]

/-- A condition that is found stands in parentheses. -/
theorem readConditional_split {loops : Bool} {p q : Nat} {code : Body}
    (h : (readConditional loops start t).1 = .conditional loops (.closed p q) code) :
    ∃ k c u : Text, t = k ++ (parenthesized c ++ u) ∧ (∀ d ∈ k, Text.isBlank d) ∧ c.Steady false := by
  obtain ⟨k, u, rfl, hk, hu⟩ := leadingBlank_split t
  rw [readConditional_blank hk hu] at h
  unfold readConditional at h
  simp only [Text.leadingBlank_eq_zero hu, Nat.add_zero, dropBytes] at h
  split at h
  · cases h
  · rename_i hhead
    cases u with
    | nil => exact absurd (Option.some_ne_none '(').symm hhead
    | cons d u =>
      obtain rfl : d = '(' := by simpa using hhead
      split at h
      · cases h
      · rename_i stop hgroup
        obtain ⟨c, rest, htext, -, hc⟩ := Text.groupEnd_split .parentheses hgroup
        exact ⟨k, c, rest, congrArg (k ++ ·) htext, hk, hc⟩

/-- A body as it is written, and where it ends. -/
inductive ReadsBody (start : Nat) (t : Text) (r : Body × Nat) : Prop
  | braced (k b u : Text) (ht : t = k ++ (braced b ++ u)) (hk : ∀ d ∈ k, Text.isBlank d) (hb : b.Steady false)
      (hr : r = (.braced (start + byteLength k) (start + byteLength k + byteLength (braced b)),
        start + byteLength k + byteLength (braced b)))
  | bare (k w u : Text) (ht : t = k ++ (w ++ u)) (hk : ∀ d ∈ k, Text.isBlank d) (hw : Bare (w ++ u)) (hu : u.Follows)
      (havoids : (level false).Avoids .semicolon w.tokens)
      (hr : r = (.bare (start + byteLength k) (start + byteLength k + byteLength w),
        start + byteLength k + byteLength w))
  | missing (place : Nat) (hr : r.1 = .missing place)
  | unclosed (brace : Nat) (hr : r.1 = .unclosed brace)

theorem readsBody_readBody (start : Nat) (t : Text) : ReadsBody start t (readBody start t) := by
  obtain ⟨k, u, rfl, hk, hu⟩ := leadingBlank_split t
  rw [readBody_blank hk hu]
  cases u with
  | nil => exact .missing _ rfl
  | cons d u =>
    by_cases hd : d = '\x7b'
    · subst hd
      cases hgroup : groupEnd ('\x7b' :: u) with
      | none =>
        refine .unclosed (start + byteLength k) ?_
        unfold readBody
        simp [Text.leadingBlank_eq_zero hu, dropBytes, hgroup]
      | some stop =>
        obtain ⟨b, rest, htext, -, hb⟩ := Text.groupEnd_split .braces hgroup
        have hsplit : '\x7b' :: u = braced b ++ rest := htext
        rw [hsplit]
        exact .braced k b rest rfl hk hb (readBody_braced hb)
    · have hbare : Bare (d :: u) := ⟨List.cons_ne_nil d u, fun e he => ⟨hu e he, Option.some.inj he ▸ hd⟩⟩
      obtain ⟨w, rest, hsplit, hfound, hrest, havoids⟩ := Text.findOutside_split (d :: u)
      have hread := readBody_bare hbare (start + byteLength k)
      rw [hfound] at hread
      rw [hsplit] at hbare hread ⊢
      exact .bare k w rest rfl hk hbare hrest havoids hread

end

/-! ### Blocks -/

section
variable {k x u : Text}

def Separates (k : Text) : Prop := ∀ d ∈ k, Text.isBlank d ∨ d = ';'

theorem separators_append (hk : Separates k) (t : Text) : separators (k ++ t) = byteLength k + separators t := by
  unfold separators
  rw [List.takeWhile_append_of_pos (by simpa [Separates] using hk), Text.byteLength_append]

theorem separators_ready (ht : Ready t) : separators t = 0 := by
  cases t with
  | nil => rfl
  | cons d t =>
    obtain ⟨hblank, hsemicolon⟩ := ht d rfl
    simp [separators, hblank, hsemicolon]

theorem separators_split (t : Text) : ∃ k u : Text, t = k ++ u ∧ Separates k ∧ Ready u := by
  refine ⟨t.takeWhile fun c => Text.isBlank c || c == ';', t.dropWhile fun c => Text.isBlank c || c == ';',
    List.takeWhile_append_dropWhile.symm, ?_, ?_⟩
  · have hall := List.all_eq_true.mp (List.all_takeWhile (p := fun c => Text.isBlank c || c == ';') (l := t))
    exact fun d hd => by simpa using hall d hd
  · have hready := ready_dropBytes t
    rwa [separators, Text.dropBytes_takeWhile] at hready

theorem readAll_separators (hk : Separates k) (start : Nat) (t : Text) :
    readAll start (k ++ t) = readAll (start + byteLength k) t := by
  rw [readAll.eq_def start, readAll.eq_def (start + byteLength k)]
  simp only [separators_append hk, Text.dropBytes_append, Nat.add_assoc]

theorem readAll_nil_of_separates (hk : Separates k) (start : Nat) : readAll start k = [] := by
  have hall := readAll_separators hk start []
  rwa [List.append_nil, readAll_nil] at hall

/-- A statement and those behind it. -/
theorem readAll_ready (ht : Ready t) (hne : t ≠ []) (h : start < (readFirst start t).2) :
    readAll start t = (start, (readFirst start t).1) ::
      readAll (readFirst start t).2 (dropBytes ((readFirst start t).2 - start) t) := by
  have hsize : max 1 ((readFirst start t).2 - start) = (readFirst start t).2 - start := by omega
  have hstop : start + ((readFirst start t).2 - start) = (readFirst start t).2 := by omega
  rw [readAll]
  simp only [separators_ready ht, Nat.add_zero, dropBytes]
  rw [dif_neg hne]
  simp only [hsize, hstop]

/-- A statement that is written as `x`, and those behind it. -/
theorem readAll_cons {s : Statement} (ht : Ready (x ++ u)) (hx : x ≠ [])
    (h : readFirst start (x ++ u) = (s, start + byteLength x)) :
    readAll start (x ++ u) = (start, s) :: readAll (start + byteLength x) u := by
  have hpos : 0 < byteLength x := Nat.pos_of_ne_zero fun hz => hx (Text.eq_nil_of_byteLength hz)
  have hmoves : start < (readFirst start (x ++ u)).2 := by rw [h]; exact Nat.lt_add_of_pos_right hpos
  rw [readAll_ready ht (List.append_ne_nil_of_left_ne_nil hx u) hmoves, h, Nat.add_sub_cancel_left,
    Text.dropBytes_byteLength]

end

end Reckoner.Statement
