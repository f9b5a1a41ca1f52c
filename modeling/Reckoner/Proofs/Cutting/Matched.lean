import Reckoner.Proofs.Cutting.Sections

/-! Bracket groups where they stand in a text. A group that is not broken starts with its bracket and ends with the
partner of it, and in between the bracket stays open. -/
namespace Reckoner

open Nesting (level)
open Text (IsCut isBoundary byteLength dropBytes slice)
open Lexeme (Remain lex single)

namespace Lexeme

variable {base place count : Nat} {t skipped rest : Text} {c : Char} {l : Lexeme} {ls : List Lexeme}

/-- A lexeme stands where it starts. -/
private theorem Written.at (h : Written base t place l skipped c rest count) (hplace : isBoundary place t) :
    t.At l.start (c :: rest.take count) := by
  obtain ⟨front, behind, rfl, rfl⟩ := Text.exists_of_isBoundary hplace
  have htext := h.text
  rw [Text.dropBytes_byteLength] at htext
  refine ⟨front ++ skipped, rest.drop count, ?_, ?_⟩
  · simp [htext]
  · rw [h.start, Text.byteLength_append]

namespace Remain

theorem at_mark (h : Remain base t place (l :: ls)) (hc : l.token.character? = some c) :
    t.At l.start [c] ∧ l.stop = l.start + 1 := by
  have hmark : l.token.isMark := by
    cases hl : l.token <;> first | rfl | rw [hl] at hc; cases hc
  obtain ⟨⟨skipped, d, rest, count, hw⟩, -⟩ := h.first
  obtain ⟨hsingle, rfl⟩ := munch_mark hw.munch hmark
  have hd := character?_single (hsingle.symm ▸ hmark)
  rw [hsingle, hc] at hd
  obtain rfl := Option.some.inj hd
  have hat := hw.at h.boundary
  rw [List.take_zero] at hat
  exact ⟨hat, h.mark hmark⟩

theorem at_arrow (h : Remain base t place (l :: ls)) (hl : l.token = .arrow) : t.At l.start ['=', '>'] := by
  obtain ⟨⟨skipped, d, rest, count, hw⟩, -⟩ := h.first
  obtain ⟨rfl, hhead, rfl⟩ := munch_arrow (hl ▸ hw.munch)
  obtain ⟨behind, rfl⟩ := List.head?_eq_some_iff.mp hhead
  exact hw.at h.boundary

/-- A string stands between quotes. -/
theorem at_string (h : Remain base t place (l :: ls)) (hl : l.token = .string) :
    ∃ inside, '"' ∉ inside ∧ t.At l.start ('"' :: inside ++ ['"']) ∧
      l.stop = l.start + byteLength ('"' :: inside ++ ['"']) := by
  obtain ⟨⟨skipped, d, rest, count, hw⟩, -⟩ := h.first
  obtain ⟨rfl, inside, hquote, hinside⟩ := munch_string (hl ▸ hw.munch)
  have hat := hw.at h.boundary
  have hstop := hw.stop
  rw [hinside] at hat hstop
  exact ⟨inside, hquote, hat, hstop⟩

end Remain
end Lexeme

namespace Nesting
variable {n : Nesting} {token : Token} {ts : List Token}

def StaysOpen (n : Nesting) : List Token → Prop
  | [] => n.opened ≠ []
  | token :: ts => n.opened ≠ [] ∧ (n.feed token).StaysOpen ts

/-- The outermost bracket stays the same as long as one is open. -/
private theorem getLast?_feed (hn : n.opened ≠ []) (ho : (n.feed token).opened ≠ []) :
    (n.feed token).opened.getLast? = n.opened.getLast? := by
  obtain ⟨bracket, opened, hopened⟩ := List.exists_cons_of_ne_nil hn
  unfold feed at ho ⊢
  split
  · simp only [hopened, List.getLast?_cons_cons]
  · rename_i hopens
    rw [if_neg hopens] at ho
    split
    · rename_i hcloses
      simp only [if_pos hcloses, hopened, List.tail_cons] at ho
      obtain ⟨next, rest, rfl⟩ := List.exists_cons_of_ne_nil ho
      rw [hopened, List.tail_cons, List.getLast?_cons_cons]
    · rfl

/-- What closes the outermost bracket, with nothing broken, is its partner. -/
private theorem closer_of_feed (hn : n.opened ≠ []) (ho : (n.feed token).opened = [])
    (hb : (n.feed token).broken = false) :
    n.opened.getLast?.bind Token.closer = some token := by
  unfold feed at ho hb
  split at ho
  · cases ho
  · rename_i hopens
    rw [if_neg hopens] at hb
    split at ho
    · rename_i hcloses
      obtain ⟨bracket, opened, hopened⟩ := List.exists_cons_of_ne_nil hn
      simp only [if_pos hcloses, hopened, List.tail_cons, List.head?_cons, Option.bind_some] at ho hb
      rw [hopened, ho]
      simp only [Bool.or_eq_false_iff, bne_eq_false_iff_eq] at hb
      exact hb.2
    · exact absurd ho hn

/-- A group that is not broken ends with the partner of its outermost bracket, and up to there one is open. -/
private theorem group_closes {n : Nesting} (hn : n.opened ≠ []) {base limit place : Nat} {t : Text} {ls : List Lexeme}
    (h : Remain base t place ls) (hb : (n.group limit ls).broken = false) :
    ∃ inner l before, ls = inner ++ l :: (n.group limit ls).rest ∧ (n.group limit ls).stop = l.stop ∧
      Remain base t before (l :: (n.group limit ls).rest) ∧ n.StaysOpen (inner.map Lexeme.token) ∧
      n.feedAll ((inner ++ [l]).map Lexeme.token) = level true ∧
      n.opened.getLast?.bind Token.closer = some l.token := by
  fun_induction group limit n ls generalizing place with
  | case1 => cases hb
  | case2 n l rest next ho =>
    have hopened : (n.feed l.token).opened = [] := by simpa using ho
    exact ⟨[], l, place, rfl, rfl, h, hn, feed_eq_level hn hopened hb, closer_of_feed hn hopened hb⟩
  | case3 n l rest next ho ih =>
    have hopened : (n.feed l.token).opened ≠ [] := by simpa using ho
    obtain ⟨inner, last, before, hrest, hstop, hremain, hopen, hlevel, hcloser⟩ := ih hopened h.rest hb
    refine ⟨l :: inner, last, before, ?_, hstop, hremain, ⟨hn, hopen⟩, hlevel, ?_⟩
    · rw [List.cons_append, ← hrest]
    · rw [← getLast?_feed hn hopened]
      exact hcloser

/-- A group ends behind the lexemes that it takes up, or with the text. -/
theorem group_stop {n : Nesting} {base place : Nat} {t : Text} {ls : List Lexeme} (h : Remain base t place ls) :
    place ≤ (n.group (byteLength t) ls).stop ∧ isBoundary (n.group (byteLength t) ls).stop t := by
  induction ls generalizing n place with
  | nil => exact ⟨Text.le_byteLength_of_isBoundary h.boundary, Text.isBoundary_self t⟩
  | cons l ls ih =>
    have hordered := h.ordered
    rw [group]
    split
    · exact ⟨Nat.le_of_lt (Nat.lt_of_le_of_lt hordered.1 hordered.2), h.stops⟩
    · obtain ⟨hplace, hboundary⟩ := ih (n := n.feed l.token) h.rest
      exact ⟨by omega, hboundary⟩

end Nesting

/-- The text from `opening` up to `stop` is a bracket group: the bracket `c` is open up to the `d` at the end, which
closes it. -/
structure Text.Encloses (base : Nat) (t : Text) (c d : Char) (opening stop : Nat) : Prop where
  opens : t.At opening [c]
  closes : t.At (stop - 1) [d]
  ordered : opening + 1 < stop
  matched : ∃ inner rest,
    lex base (opening + 1) (dropBytes (opening + 1) t) = inner ++ ⟨single d, stop - 1, stop⟩ :: rest ∧
      (Nesting.inside (single c)).StaysOpen (inner.map Lexeme.token) ∧
      (Nesting.inside (single c)).feedAll (inner.map Lexeme.token ++ [single d]) = level true

inductive Text.Brackets : Char → Char → Prop
  | parentheses : Brackets '(' ')'
  | square : Brackets '[' ']'
  | braces : Brackets '\x7b' '\x7d'
  | angle : Brackets '<' '>'

theorem Section.adjacent_start {token : Token} {offset : Nat} {l : Lexeme} (h : adjacent token offset l) :
    l.start = offset := by
  simp only [adjacent, Bool.and_eq_true, beq_iff_eq] at h
  exact h.2

/-- A group that is not broken, behind its bracket. -/
theorem Section.encloses {base place : Nat} {t : Text} {first : Lexeme} {ls : List Lexeme} {c d : Char}
    (hp : Text.Brackets c d) (h : Remain base t place (first :: ls)) (hfirst : first.token = single c)
    (hb : ((Nesting.inside (single c)).group (byteLength t) ls).broken = false) :
    t.Encloses base c d first.start ((Nesting.inside (single c)).group (byteLength t) ls).stop := by
  have hopening : (single c).character? = some c := by cases hp <;> rfl
  have hclosing : (single d).character? = some d := by cases hp <;> rfl
  have hpartner : (single c).closer = some (single d) := by cases hp <;> rfl
  obtain ⟨hat, hstop⟩ := h.at_mark (hfirst ▸ hopening)
  obtain ⟨inner, l, before, hls, hend, hremain, hopen, hlevel, hcloser⟩ :=
    Nesting.group_closes (List.cons_ne_nil _ _) h.rest hb
  obtain ⟨hforward, -, -⟩ := Nesting.group_remain (List.cons_ne_nil _ _) h.rest hb
  have hl : l.token = single d := Option.some.inj (hcloser.symm.trans hpartner)
  obtain ⟨hlast, hlength⟩ := hremain.at_mark (hl ▸ hclosing)
  generalize (Nesting.inside (single c)).group (byteLength t) ls = g at hls hend hremain hforward ⊢
  have hplace : l.start = g.stop - 1 := by omega
  have hlexeme : l = ⟨single d, g.stop - 1, g.stop⟩ := by rw [← hplace, hend, ← hl]
  refine ⟨hat, hplace ▸ hlast, by omega, inner, g.rest, ?_, hopen, ?_⟩
  · rw [← hlexeme, ← hls, ← hstop]
    exact h.rest.lexed
  · rw [List.map_append, List.map_singleton, hl] at hlevel
    exact hlevel

end Reckoner
