import Reckoner.Proofs.Lexing

/-! Where a text can be cut: in front of a character or at its end. What can be cut out of a piece can be cut out
of the text around it, and lexemes start and stop where it can be cut. -/
namespace Reckoner

namespace Text

def isBoundary : Nat → Text → Bool
  | 0, _ => true
  | _ + 1, [] => false
  | n + 1, c :: t => decide (c.utf8Size ≤ n + 1) && isBoundary (n + 1 - c.utf8Size) t

/-- The bytes from `start` up to `stop` are whole characters of the text. -/
structure IsCut (t : Text) (start stop : Nat) : Prop where
  ordered : start ≤ stop
  within : stop ≤ byteLength t
  starts : isBoundary start t
  stops : isBoundary stop t

instance (t : Text) (start stop : Nat) : Decidable (IsCut t start stop) :=
  decidable_of_iff (start ≤ stop ∧ stop ≤ byteLength t ∧ isBoundary start t ∧ isBoundary stop t)
    ⟨fun ⟨ho, hw, hs, ht⟩ => ⟨ho, hw, hs, ht⟩, fun h => ⟨h.ordered, h.within, h.starts, h.stops⟩⟩

variable {t : Text} {n start stop : Nat}

@[simp] theorem isBoundary_zero (t : Text) : isBoundary 0 t := by rw [isBoundary]

private theorem isBoundary_append (s t : Text) (n : Nat) : isBoundary (byteLength s + n) (s ++ t) = isBoundary n t := by
  induction s with
  | nil => simp
  | cons c s ih =>
    obtain ⟨m, hm⟩ := Nat.exists_eq_succ_of_ne_zero (utf8Size_ne_zero c)
    have hsum : byteLength (c :: s) + n = m + byteLength s + n + 1 := by
      rw [byteLength_cons]
      omega
    have hle : c.utf8Size ≤ m + byteLength s + n + 1 := by omega
    have hrest : m + byteLength s + n + 1 - c.utf8Size = byteLength s + n := by omega
    rw [hsum, List.cons_append, isBoundary, hrest, ih, decide_eq_true hle, Bool.true_and]

theorem isBoundary_byteLength (s t : Text) : isBoundary (byteLength s) (s ++ t) := by
  rw [← Nat.add_zero (byteLength s), isBoundary_append]
  exact isBoundary_zero t

theorem isBoundary_self (t : Text) : isBoundary (byteLength t) t := by
  simpa using isBoundary_byteLength t []

/-- At a boundary the text falls into what stands before it and what stands behind it. -/
theorem exists_of_isBoundary (h : isBoundary n t) : ∃ s u, t = s ++ u ∧ n = byteLength s := by
  induction t generalizing n with
  | nil =>
    cases n with
    | zero => exact ⟨[], [], rfl, rfl⟩
    | succ n => cases h
  | cons c t ih =>
    cases n with
    | zero => exact ⟨[], c :: t, rfl, rfl⟩
    | succ n =>
      obtain ⟨hle, hrest⟩ : c.utf8Size ≤ n + 1 ∧ isBoundary (n + 1 - c.utf8Size) t := by
        simpa [isBoundary] using h
      obtain ⟨s, u, rfl, hs⟩ := ih hrest
      refine ⟨c :: s, u, rfl, ?_⟩
      rw [byteLength_cons]
      omega

theorem le_byteLength_of_isBoundary (h : isBoundary n t) : n ≤ byteLength t := by
  obtain ⟨s, u, rfl, rfl⟩ := exists_of_isBoundary h
  rw [byteLength_append]
  omega

/-- A boundary of what stands behind a boundary is one of the whole text. -/
theorem isBoundary_dropBytes (h : isBoundary n t) (m : Nat) : isBoundary m (dropBytes n t) = isBoundary (n + m) t := by
  obtain ⟨s, u, rfl, rfl⟩ := exists_of_isBoundary h
  rw [dropBytes_byteLength, isBoundary_append]

theorem dropBytes_dropBytes (h : isBoundary n t) (m : Nat) : dropBytes m (dropBytes n t) = dropBytes (n + m) t := by
  obtain ⟨s, u, rfl, rfl⟩ := exists_of_isBoundary h
  rw [dropBytes_byteLength, dropBytes_append]

theorem isBoundary_takeWhile (p : Char → Bool) (t : Text) : isBoundary (byteLength (t.takeWhile p)) t := by
  have h := isBoundary_byteLength (t.takeWhile p) (t.dropWhile p)
  rwa [List.takeWhile_append_dropWhile] at h

theorem dropBytes_takeWhile (p : Char → Bool) (t : Text) :
    dropBytes (byteLength (t.takeWhile p)) t = t.dropWhile p := by
  have h := dropBytes_byteLength (t.takeWhile p) (t.dropWhile p)
  rwa [List.takeWhile_append_dropWhile] at h

namespace IsCut

/-- A text around which others stand can be cut out. -/
theorem middle (s m u : Text) : IsCut (s ++ m ++ u) (byteLength s) (byteLength s + byteLength m) := by
  refine ⟨Nat.le_add_right _ _, ?_, ?_, ?_⟩
  · rw [byteLength_append, byteLength_append]
    omega
  · rw [List.append_assoc]
    exact isBoundary_byteLength s _
  · rw [← byteLength_append]
    exact isBoundary_byteLength _ u

theorem of_boundaries (ho : start ≤ stop) (hs : isBoundary start t) (ht : isBoundary stop t) : IsCut t start stop :=
  ⟨ho, le_byteLength_of_isBoundary ht, hs, ht⟩

/-- What stands in front of a boundary can be cut off. -/
theorem upTo (h : isBoundary n t) : IsCut t 0 n := .of_boundaries (Nat.zero_le n) (isBoundary_zero t) h

/-- What is cut out stands between two other texts. -/
theorem exists_middle (h : IsCut t start stop) :
    ∃ s m u, t = s ++ m ++ u ∧ start = byteLength s ∧ stop = byteLength s + byteLength m := by
  obtain ⟨s, rest, rfl, rfl⟩ := exists_of_isBoundary h.starts
  obtain ⟨n, rfl⟩ := Nat.exists_eq_add_of_le h.ordered
  have hn := h.stops
  rw [isBoundary_append] at hn
  obtain ⟨m, u, rfl, rfl⟩ := exists_of_isBoundary hn
  exact ⟨s, m, u, (List.append_assoc s m u).symm, rfl, rfl⟩

theorem byteLength_slice (h : IsCut t start stop) : byteLength (slice t start stop) = stop - start := by
  obtain ⟨s, m, u, rfl, rfl, rfl⟩ := h.exists_middle
  rw [slice_append]
  omega

/-- Behind the start of what is cut out stands that and then what stands behind it. -/
theorem dropBytes_eq (h : IsCut t start stop) : dropBytes start t = slice t start stop ++ dropBytes stop t := by
  obtain ⟨s, m, u, rfl, rfl, rfl⟩ := h.exists_middle
  rw [slice_append, ← byteLength_append, dropBytes_byteLength, List.append_assoc, dropBytes_byteLength]

/-- What can be cut out of a piece can be cut out of the text. -/
theorem outer {p q : Nat} (h : IsCut t start stop) (hpiece : IsCut (slice t start stop) p q) :
    IsCut t (start + p) (start + q) ∧ slice (slice t start stop) p q = slice t (start + p) (start + q) := by
  obtain ⟨s, m, u, rfl, rfl, rfl⟩ := h.exists_middle
  rw [slice_append] at hpiece ⊢
  obtain ⟨s', m', u', rfl, rfl, rfl⟩ := hpiece.exists_middle
  have htext : s ++ (s' ++ m' ++ u') ++ u = (s ++ s') ++ m' ++ (u' ++ u) := by simp
  have hplace : byteLength s + byteLength s' = byteLength (s ++ s') := (byteLength_append s s').symm
  rw [htext, ← Nat.add_assoc, hplace, slice_append, slice_append]
  exact ⟨middle _ _ _, rfl⟩

/-- What lies within a piece can be cut out of it. -/
private theorem inner {p q : Nat} (h : IsCut t start stop) (hpiece : IsCut t (start + p) (start + q))
    (hq : start + q ≤ stop) : IsCut (slice t start stop) p q := by
  obtain ⟨s, m, u, rfl, rfl, rfl⟩ := h.exists_middle
  have hboundary {n : Nat} (hn : n ≤ byteLength m) (h : isBoundary (byteLength s + n) (s ++ m ++ u)) :
      isBoundary n m := by
    rw [List.append_assoc, isBoundary_append] at h
    obtain ⟨x, y, hxy, rfl⟩ := exists_of_isBoundary h
    obtain ⟨z, rfl, -⟩ | ⟨z, rfl, -⟩ := List.append_eq_append_iff.mp hxy
    · rw [byteLength_append] at hn
      have hz : byteLength z = 0 := by omega
      rw [eq_nil_of_byteLength hz, List.append_nil]
      exact isBoundary_self m
    · exact isBoundary_byteLength x z
  have hpq := hpiece.ordered
  rw [slice_append]
  exact of_boundaries (by omega) (hboundary (by omega) hpiece.starts) (hboundary (by omega) hpiece.stops)

/-- A piece without its last byte and some bytes in front. -/
theorem inset {n : Nat} (h : IsCut t start stop) (hinside : IsCut t (start + n) (stop - 1)) (hlast : 0 < stop) :
    IsCut (slice t start stop) n (byteLength (slice t start stop) - 1) ∧
      slice (slice t start stop) n (byteLength (slice t start stop) - 1) = slice t (start + n) (stop - 1) := by
  have hordered := hinside.ordered
  have hstop : stop - 1 = start + (byteLength (slice t start stop) - 1) := by
    rw [h.byteLength_slice]
    omega
  rw [hstop] at hinside ⊢
  have hpiece := h.inner hinside (by omega)
  exact ⟨hpiece, (h.outer hpiece).2⟩

end IsCut

variable {v w : Text}

def At (t : Text) (start : Nat) (w : Text) : Prop :=
  ∃ before after, t = before ++ w ++ after ∧ byteLength before = start

theorem at_self (t : Text) : t.At 0 t := ⟨[], [], (List.append_nil t).symm, rfl⟩

theorem At.le (h : t.At start w) : start + byteLength w ≤ byteLength t := by
  obtain ⟨before, after, rfl, rfl⟩ := h
  rw [byteLength_append, byteLength_append]
  omega

/-- What stands in a part of a text stands in the text. -/
theorem At.inner {p : Nat} (h : t.At start w) (hv : w.At p v) : t.At (start + p) v := by
  obtain ⟨before, after, rfl, rfl⟩ := h
  obtain ⟨s, u, rfl, rfl⟩ := hv
  exact ⟨before ++ s, u ++ after, by simp, byteLength_append before s⟩

theorem IsCut.at (h : IsCut t start stop) : t.At start (Text.slice t start stop) := by
  obtain ⟨s, m, u, rfl, rfl, rfl⟩ := h.exists_middle
  rw [slice_append]
  exact ⟨s, u, rfl, rfl⟩

theorem At.slice (h : t.At start w) : Text.slice t start (start + byteLength w) = w := by
  obtain ⟨before, after, rfl, rfl⟩ := h
  exact slice_append before w after

theorem At.left (h : t.At start (w ++ v)) : t.At start w := by
  obtain ⟨before, after, rfl, rfl⟩ := h
  exact ⟨before, v ++ after, by simp, rfl⟩

theorem At.right (h : t.At start (w ++ v)) : t.At (start + byteLength w) v := by
  obtain ⟨before, after, rfl, rfl⟩ := h
  exact ⟨before ++ w, after, by simp, byteLength_append before w⟩

/-- Behind its leading blanks stands the trimmed text. -/
theorem At.trim (h : t.At start w) : t.At (start + leadingBlank w) (Text.trim w) := by
  have htrimmed : t.At (start + leadingBlank w) (trimStart w) := by
    rw [← takeWhile_append_trimStart w] at h
    exact h.right
  obtain ⟨behind, hsplit⟩ := isPrefix_trimEnd (trimStart w)
  rw [← hsplit] at htrimmed
  exact htrimmed.left

end Text

def Token.isMark : Token → Bool
  | number | identifier | string | openString | arrow | equal | notEqual | lessEqual | greaterEqual | stray => false
  | _ => true

def Token.character? : Token → Option Char
  | less => some '<'
  | greater => some '>'
  | assign => some '='
  | plus => some '+'
  | minus => some '-'
  | star => some '*'
  | slash => some '/'
  | percent => some '%'
  | caret => some '^'
  | underscore => some '_'
  | comma => some ','
  | semicolon => some ';'
  | leftParen => some '('
  | rightParen => some ')'
  | leftBracket => some '['
  | rightBracket => some ']'
  | leftBrace => some '\x7b'
  | rightBrace => some '\x7d'
  | _ => none

namespace Lexeme

open Text (isBoundary byteLength dropBytes IsCut)

theorem single_isMark {c : Char} (h : (single c).isMark) : c.utf8Size = 1 := by
  unfold single at h
  split at h <;> first | rfl | exact nomatch h

theorem character?_single {c : Char} (h : (single c).isMark) : (single c).character? = some c := by
  revert h
  unfold single
  split <;> first | exact fun _ => rfl | exact fun h => nomatch h

/-- No two characters stand for the same mark. -/
theorem eq_of_single {c d : Char} (h : single c = single d) (hd : (single d).isMark) : c = d := by
  have hc := character?_single (h ▸ hd)
  rw [h, character?_single hd] at hc
  exact (Option.some.inj hc).symm

private theorem pair_isMark {c d : Char} {token : Token} (h : pair c d = some token) : token.isMark = false := by
  unfold pair at h
  split at h
  iterate 5
    obtain rfl := Option.some.inj h
    rfl
  exact nomatch h

/-- A mark is what its one character stands for. -/
theorem munch_mark {base n : Nat} {c : Char} {rest : Text} {token : Token}
    (h : munch base c rest = (some token, n)) (hb : token.isMark) : single c = token ∧ n = 0 := by
  cases Munched.of_eq h with
  | digit => exact absurd hb (by decide)
  | point => exact absurd hb (by decide)
  | name => exact absurd hb (by decide)
  | string => exact absurd hb (by decide)
  | openString => exact absurd hb (by decide)
  | pair hhead hpair =>
    rw [pair_isMark hpair] at hb
    exact absurd hb (by decide)
  | single hsingle => exact ⟨hsingle, rfl⟩

/-- A string stands between quotes. -/
theorem munch_string {base n : Nat} {c : Char} {rest : Text} (h : munch base c rest = (some .string, n)) :
    c = '"' ∧ ∃ inside, '"' ∉ inside ∧ rest.take n = inside ++ ['"'] := by
  cases Munched.of_eq h with
  | pair hhead hpair => exact absurd hpair (pair_ne (by decide) c _)
  | single hsingle => exact absurd hsingle (single_ne (by decide) c)
  | string hquote hlt =>
    have hinside : '"' ∉ rest.takeWhile (· ≠ '"') := fun hmem => by
      simpa using List.all_eq_true.mp List.all_takeWhile _ hmem
    refine ⟨hquote, rest.takeWhile (· ≠ '"'), hinside, ?_⟩
    have hsplit := List.takeWhile_append_dropWhile (p := (· ≠ '"')) (l := rest)
    cases hdrop : rest.dropWhile (· ≠ '"') with
    | nil =>
      rw [hdrop, List.append_nil] at hsplit
      rw [hsplit] at hlt
      exact absurd hlt (Nat.lt_irrefl _)
    | cons d behind =>
      have hhead := List.head?_dropWhile_not (· ≠ '"') rest
      rw [hdrop] at hhead
      obtain rfl : d = '"' := by simpa using hhead
      rw [hdrop] at hsplit
      generalize rest.takeWhile (· ≠ '"') = inside at hsplit
      rw [← hsplit, List.take_length_add_append]
      rfl

/-- The lexemes of a text that are left from a byte on, at which the text can be cut. -/
structure Remain (base : Nat) (t : Text) (place : Nat) (ls : List Lexeme) : Prop where
  boundary : isBoundary place t
  lexed : lex base place (dropBytes place t) = ls

/-- How the first lexeme that is left is written: behind blanks, and before the text of the others. -/
structure Written (base : Nat) (t : Text) (place : Nat) (l : Lexeme) (skipped : Text) (c : Char) (rest : Text)
    (count : Nat) : Prop where
  text : dropBytes place t = skipped ++ c :: rest
  blank : ∀ d ∈ skipped, isBlank d
  munch : Lexeme.munch base c rest = (some l.token, count)
  start : l.start = place + byteLength skipped
  stop : l.stop = l.start + byteLength (c :: rest.take count)

namespace Remain
variable {base place : Nat} {t : Text} {l : Lexeme} {ls : List Lexeme}

theorem all (base : Nat) (t : Text) : Remain base t 0 (lex base 0 t) :=
  ⟨Text.isBoundary_zero t, by rw [dropBytes]⟩

theorem none (base : Nat) (t : Text) : Remain base t (byteLength t) [] :=
  ⟨Text.isBoundary_self t, by rw [Text.dropBytes_self, lex]⟩

/-- The first lexeme is written where it says, and the others are left behind it. -/
theorem first (h : Remain base t place (l :: ls)) :
    (∃ skipped c rest count, Written base t place l skipped c rest count) ∧ Remain base t l.stop ls := by
  obtain ⟨skipped, c, rest, count, htext, hblank, hm, hstart, hstop, hothers⟩ := lex_eq_cons h.lexed
  refine ⟨⟨skipped, c, rest, count, htext, hblank, hm, hstart, hstop⟩, ?_, ?_⟩
  · have hwritten : isBoundary (byteLength skipped + byteLength (c :: rest.take count)) (dropBytes place t) := by
      have hmiddle := (IsCut.middle skipped (c :: rest.take count) (rest.drop count)).stops
      rwa [List.append_assoc, List.cons_append, List.take_append_drop, ← htext] at hmiddle
    rw [hstop, hstart, Nat.add_assoc, ← Text.isBoundary_dropBytes h.boundary]
    exact hwritten
  · have hdrop : dropBytes l.stop t = rest.drop count := by
      have hsplit := Text.dropBytes_byteLength (skipped ++ c :: rest.take count) (rest.drop count)
      rw [List.append_assoc, List.cons_append, List.take_append_drop, ← htext, Text.byteLength_append] at hsplit
      rw [hstop, hstart, Nat.add_assoc, ← Text.dropBytes_dropBytes h.boundary, hsplit]
    rw [hdrop]
    exact hothers.symm

theorem starts (h : Remain base t place (l :: ls)) : isBoundary l.start t := by
  obtain ⟨⟨skipped, c, rest, count, hw⟩, -⟩ := h.first
  rw [hw.start, ← Text.isBoundary_dropBytes h.boundary, hw.text]
  exact Text.isBoundary_byteLength skipped _

theorem rest (h : Remain base t place (l :: ls)) : Remain base t l.stop ls := h.first.2

theorem stops (h : Remain base t place (l :: ls)) : isBoundary l.stop t := h.rest.boundary

theorem ordered (h : Remain base t place (l :: ls)) : place ≤ l.start ∧ l.start < l.stop :=
  lex_bounds (h.lexed ▸ List.mem_cons_self)

theorem cut (h : Remain base t place (l :: ls)) : IsCut t l.start l.stop :=
  .of_boundaries (Nat.le_of_lt h.ordered.2) h.starts h.stops

theorem mark (h : Remain base t place (l :: ls)) (hb : l.token.isMark) : l.stop = l.start + 1 := by
  obtain ⟨⟨skipped, c, rest, count, hw⟩, -⟩ := h.first
  obtain ⟨hsingle, rfl⟩ := munch_mark hw.munch hb
  rw [hw.stop, Text.byteLength_cons, single_isMark (hsingle ▸ hb)]
  rfl

theorem arrow (h : Remain base t place (l :: ls)) (ha : l.token = .arrow) : l.stop = l.start + 2 :=
  lex_arrow (h.lexed ▸ List.mem_cons_self) ha

/-- A string has an inside. -/
theorem string (h : Remain base t place (l :: ls)) (hs : l.token = .string) :
    IsCut t (l.start + 1) (l.stop - 1) := by
  obtain ⟨⟨skipped, c, rest, count, hw⟩, -⟩ := h.first
  obtain ⟨rfl, inside, -, hinside⟩ := munch_string (hs ▸ hw.munch)
  have hquote : '"'.utf8Size = 1 := rfl
  have hlength : byteLength ('"' :: rest.take count) = 1 + byteLength inside + 1 := by
    rw [hinside, Text.byteLength_cons, Text.byteLength_append, Text.byteLength_cons, hquote]
    rfl
  have hmiddle := IsCut.middle (skipped ++ ['"']) inside ('"' :: rest.drop count)
  have htext : skipped ++ ['"'] ++ inside ++ '"' :: rest.drop count = dropBytes place t := by
    have hrest := List.take_append_drop count rest
    rw [hinside, List.append_assoc] at hrest
    rw [hw.text, List.append_assoc, List.append_assoc]
    exact congrArg (fun behind => skipped ++ '"' :: behind) hrest
  have hfront : byteLength (skipped ++ ['"']) = byteLength skipped + 1 := Text.byteLength_append skipped ['"']
  rw [htext, hfront] at hmiddle
  have hstart : l.start + 1 = place + (byteLength skipped + 1) := by
    rw [hw.start]
    omega
  have hstop : l.stop - 1 = place + (byteLength skipped + 1 + byteLength inside) := by
    rw [hw.stop, hw.start, hlength]
    omega
  rw [hstart, hstop]
  refine .of_boundaries (by omega) ?_ ?_
  · rw [← Text.isBoundary_dropBytes h.boundary]
    exact hmiddle.starts
  · rw [← Text.isBoundary_dropBytes h.boundary]
    exact hmiddle.stops

end Remain
end Lexeme
end Reckoner
