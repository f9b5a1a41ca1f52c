import Reckoner.Proofs.Accepted
import Reckoner.Proofs.Cutting.Lexemes
import Reckoner.Proofs.Cutting.Matched

/-! Texts that are split at the separators outside of brackets. The pieces and the separators between them make up the
text, and no piece is split again: behind a separator the bracket reader is where it is at the start of a text. -/
namespace Reckoner

open Text (IsCut isBoundary byteLength dropBytes join slice splitOutside findOutside)
open Lexeme (Remain lex)

/-- Ranges of the text from the byte `start` to its end, in order, with one lexeme between any two: the separator. -/
inductive Text.Separated (base : Nat) (separator : Token) (t : Text) : Nat → List (Nat × Nat) → Prop
  | last {start : Nat} (h : IsCut t start (byteLength t)) : Separated base separator t start [(start, byteLength t)]
  | next {start : Nat} {l : Lexeme} {rest : List (Nat × Nat)} (h : IsCut t start l.start) (hl : l ∈ lex base 0 t)
      (htoken : l.token = separator) (hrest : Separated base separator t l.stop rest) :
      Separated base separator t start ((start, l.start) :: rest)

/-- Behind some of the lexemes that are left the others are left. -/
private theorem Lexeme.Remain.behind {base place : Nat} {t : Text} {before ls : List Lexeme}
    (h : Remain base t place (before ++ ls)) : ∃ next, place ≤ next ∧ Remain base t next ls := by
  induction before generalizing place with
  | nil => exact ⟨place, Nat.le_refl place, h⟩
  | cons first before ih =>
    obtain ⟨next, hnext, hbehind⟩ := ih h.rest
    have hordered := h.ordered
    exact ⟨next, by omega, hbehind⟩

/-- What stands in front of a lexeme is lexed by itself. -/
private theorem Lexeme.Remain.lex_slice {base place : Nat} {t : Text} {before after : List Lexeme} {l : Lexeme}
    (h : Remain base t place (before ++ l :: after)) :
    IsCut t place l.start ∧ lex base place (slice t place l.start) = before := by
  obtain ⟨next, hnext, hbehind⟩ := h.behind
  have hordered := hbehind.ordered
  have hcut : IsCut t place l.start := .of_boundaries (by omega) h.boundary hbehind.starts
  have hlex := h.lexed
  rw [hcut.dropBytes_eq] at hlex
  refine ⟨hcut, lex_cut hlex ?_⟩
  rw [hcut.byteLength_slice]
  omega

namespace Nesting
variable {m n : Nesting} {separator : Token} {base place start : Nat} {t : Text} {ls : List Lexeme}

/-- The same brackets are open, and the same is expected next; what is broken does not count. -/
structure Alike (m n : Nesting) : Prop where
  opened : m.opened = n.opened
  afterOperand : m.afterOperand = n.afterOperand

private theorem Alike.feed (h : m.Alike n) (token : Token) : (m.feed token).Alike (n.feed token) := by
  obtain ⟨opened, afterOperand, broken⟩ := m
  obtain ⟨opened', afterOperand', broken'⟩ := n
  obtain ⟨rfl, rfl⟩ := h
  have hopens : opens ⟨opened, afterOperand, broken⟩ token = opens ⟨opened, afterOperand, broken'⟩ token := by
    cases token <;> rfl
  have hcloses : closes ⟨opened, afterOperand, broken⟩ token = closes ⟨opened, afterOperand, broken'⟩ token := by
    cases token <;> rfl
  unfold Nesting.feed
  rw [hopens, hcloses]
  split
  · exact ⟨rfl, rfl⟩
  split
  · exact ⟨rfl, rfl⟩
  · exact ⟨rfl, rfl⟩

/-- Behind a separator outside of brackets the reader is where it is at the start of a text. -/
private theorem alike_separator (hsep : separator.separates) (hn : n.opened = []) :
    outside.Alike (n.feed separator) := by
  obtain ⟨hopens, hcloses, hends⟩ :
      n.opens separator = false ∧ n.closes separator = false ∧ separator.endsOperand = false := by
    cases separator <;> first | exact ⟨rfl, rfl, rfl⟩ | cases hsep
  rw [feed_of_plain hopens hcloses, hends]
  exact ⟨hn.symm, rfl⟩

/-- The first piece ends at the first separator. -/
private theorem split_head (n : Nesting) (separator : Token) (limit start : Nat) (ls : List Lexeme) :
    ∃ rest, n.split separator limit start ls = (start, n.find separator limit ls) :: rest := by
  induction ls generalizing n with
  | nil => exact ⟨[], rfl⟩
  | cons l ls ih =>
    rw [split, find]
    split
    · exact ⟨_, rfl⟩
    · exact ih _

/-- The pieces have separators between them and take up the text from the first one on. -/
private theorem split_separated (h : Remain base t place ls) (hls : ∀ l ∈ ls, l ∈ lex base 0 t)
    (hstart : isBoundary start t)
    (hplace : start ≤ place) : t.Separated base separator start (n.split separator (byteLength t) start ls) := by
  induction ls generalizing n place start with
  | nil => exact .last (.of_boundaries (Text.le_byteLength_of_isBoundary hstart) hstart (Text.isBoundary_self t))
  | cons l ls ih =>
    obtain ⟨hl, hothers⟩ := List.forall_mem_cons.mp hls
    have hordered := h.ordered
    rw [split]
    split
    · rename_i hfound
      refine .next (.of_boundaries (by omega) hstart h.starts) hl hfound.2 ?_
      exact ih h.rest hothers h.stops (Nat.le_refl _)
    · exact ih h.rest hothers hstart (by omega)

/-- A text is one piece when no separator in it stands outside of brackets. -/
private theorem splitOutside_of_lex {u : Text} (hu : lex base place u = ls)
    (h : outside.Avoids separator (ls.map Lexeme.token)) :
    splitOutside base separator u = [(0, byteLength u)] := by
  rw [← hu, Text.tokensIn_eq] at h
  have hsplit := split_append (byteLength u) 0 h []
  rwa [List.append_nil] at hsplit

/-- Where `before` has been read since the start of the piece, and no separator among it stands outside of brackets,
this piece and all that follow are whole. -/
private theorem split_whole (hsep : separator.separates) (before : List Lexeme) (h : Remain base t start (before ++ ls))
    (hstate : (outside.feedAll (before.map Lexeme.token)).Alike n)
    (havoids : outside.Avoids separator (before.map Lexeme.token)) :
    ∀ p ∈ n.split separator (byteLength t) start ls,
      splitOutside base separator (slice t p.1 p.2) = [(0, byteLength (slice t p.1 p.2))] := by
  induction ls generalizing n start before with
  | nil =>
    intro p hp
    rw [List.mem_singleton.mp hp, Text.slice_to_end]
    exact splitOutside_of_lex (h.lexed.trans (List.append_nil before)) havoids
  | cons l ls ih =>
    obtain ⟨hcut, hbefore⟩ := h.lex_slice
    obtain ⟨next, -, hbehind⟩ := h.behind
    intro p hp
    rw [split] at hp
    split at hp
    · rename_i hfound
      have hopened : n.opened = [] := List.isEmpty_iff.mp hfound.1
      rcases List.mem_cons.mp hp with rfl | hp
      · exact splitOutside_of_lex hbefore havoids
      · exact ih [] hbehind.rest (hfound.2 ▸ alike_separator hsep hopened) trivial p hp
    · rename_i hmissed
      have hnext : (outside.feedAll (before.map Lexeme.token)).Avoids separator [l.token] :=
        ⟨fun ho hl => hmissed ⟨by rw [← hstate.opened, ho]; rfl, hl⟩, trivial⟩
      refine ih (before ++ [l]) ?_ ?_ ?_ p hp
      · rwa [List.append_assoc]
      · rw [List.map_append, feedAll_append]
        exact hstate.feed l.token
      · rw [List.map_append]
        exact havoids.append hnext

end Nesting

namespace Text
variable {base start place : Nat} {separator : Token} {c : Char} {t : Text} {pieces : List (Nat × Nat)}

/-- A lexeme that is written with one character takes up this character. -/
private theorem dropBytes_lexeme {l : Lexeme} (hl : l ∈ lex base 0 t) (hc : l.token.character? = some c) :
    dropBytes l.start t = c :: dropBytes l.stop t := by
  obtain ⟨before, after, hall⟩ := List.append_of_mem hl
  have hremain := Remain.all base t
  rw [hall] at hremain
  obtain ⟨next, -, hbehind⟩ := hremain.behind
  obtain ⟨⟨front, behind, rfl, hstart⟩, hstop⟩ := hbehind.at_mark hc
  have hsize : c.utf8Size = 1 := by
    generalize l.token = token at hc
    cases token <;> cases hc <;> rfl
  have hwhole : l.stop = byteLength (front ++ [c]) := by
    rw [byteLength_append, hstop, hstart, byteLength_cons, hsize]
    rfl
  rw [hwhole, dropBytes_byteLength, List.append_assoc, ← hstart, dropBytes_byteLength]
  rfl

/-- Put together with the separators, the pieces are the text again. -/
private theorem Separated.join (h : t.Separated base separator start pieces) (hc : separator.character? = some c) :
    join [c] (pieces.map fun p => slice t p.1 p.2) = dropBytes start t := by
  induction h with
  | last => rw [List.map_singleton, join_singleton, slice_to_end]
  | @next start l rest h hl htoken hrest ih =>
    rw [h.dropBytes_eq, dropBytes_lexeme hl (htoken ▸ hc), ← ih]
    cases hrest <;> exact join_cons c _ _ _

/-- A text that is split at a separator: the pieces are in order, the first one starts with the text and the last one
ends with it, between any two lies one separator, and put together with the separators they are the text; no piece is
split again; and the first one ends where the separator is found. -/
theorem splitOutside_pieces (hs : separator.separates) (base : Nat) (t : Text) :
    t.Separated base separator 0 (splitOutside base separator t) ∧
      (∀ c, separator.character? = some c →
        join [c] ((splitOutside base separator t).map fun p => slice t p.1 p.2) = t) ∧
      (∀ p ∈ splitOutside base separator t,
        splitOutside base separator (slice t p.1 p.2) = [(0, byteLength (slice t p.1 p.2))]) ∧
      ∃ rest, splitOutside 10 separator t = (0, findOutside separator t) :: rest := by
  have hseparated : t.Separated base separator 0 (splitOutside base separator t) :=
    Nesting.split_separated (Remain.all base t) (fun _ => id) (isBoundary_zero t) (Nat.le_refl 0)
  refine ⟨hseparated, fun c hc => (hseparated.join hc).trans (dropBytes.eq_def 0 t), ?_, ?_⟩
  · exact Nesting.split_whole hs [] (Remain.all base t) ⟨rfl, rfl⟩ trivial
  · exact Nesting.split_head .outside separator (byteLength t) 0 (lex 10 0 t)

/-- A bracket that closes nothing, a comparison, and a string that does not end. -/
theorem splitOutside_pieces_of_broken :
    let t : Text := "a=b==c)=d,\"=x".toList
    Token.separates .assign ∧ splitOutside 16 .assign t = [(0, 1), (2, 7), (8, 13)] ∧
      t.Separated 16 .assign 0 [(0, 1), (2, 7), (8, 13)] ∧
      join ['='] ["a".toList, "b==c)".toList, "d,\"=x".toList] = t ∧
      splitOutside 16 .assign "d,\"=x".toList = [(0, 5)] ∧ findOutside .assign t = 1 := by
  have hsplit (base : Nat) (h : base = 10 ∨ base = 16) :
      splitOutside base .assign "a=b==c)=d,\"=x".toList = [(0, 1), (2, 7), (8, 13)] := by
    rcases h with rfl | rfl <;> with_unfolding_all rfl
  obtain ⟨hseparated, hjoin, hwhole, rest, hfirst⟩ :=
    @splitOutside_pieces .assign rfl 16 "a=b==c)=d,\"=x".toList
  rw [hsplit 10 (.inl rfl)] at hfirst
  rw [hsplit 16 (.inr rfl)] at hseparated hjoin hwhole
  refine ⟨rfl, hsplit 16 (.inr rfl), hseparated, hjoin '=' rfl, ?_, ?_⟩
  · exact hwhole (8, 13) (by simp)
  · exact (congrArg Prod.snd (List.head_eq_of_cons_eq hfirst)).symm

end Text

end Reckoner
