import Reckoner.Proofs.Cutting.Lexemes
import Reckoner.Proofs.Cutting.Statements
import Reckoner.Proofs.Rendering.Reading

/-! Texts that are cut where a bracket closes or a separator stands. What stands in front of the cut is lexed by itself,
so that a bracket group and a statement are texts of their own. -/
namespace Reckoner

open Nesting (level)
open Text (byteLength dropBytes)

namespace Lexeme
variable {base offset : Nat} {w r : Text} {d : Char} {before after : List Lexeme} {l : Lexeme}

/-- A token that is written with one certain character stands where that character does. -/
private theorem lex_place {t : Text} (h : lex base offset t = before ++ l :: after) (hd : (single d).isMark)
    (hl : l.token = single d) :
    ∃ w r, t = w ++ d :: r ∧ l.start = offset + byteLength w ∧ l.stop = l.start + 1 := by
  induction before generalizing offset t with
  | nil =>
    obtain ⟨skipped, c, rest, count, rfl, -, hm, hstart, hstop, -⟩ := lex_eq_cons h
    have hmark : l.token.isMark := hl ▸ hd
    obtain ⟨hsingle, rfl⟩ := munch_mark hm hmark
    obtain rfl := eq_of_single (hsingle.trans hl) (hl ▸ hmark)
    refine ⟨skipped, rest, rfl, hstart, ?_⟩
    rw [hstop, Text.byteLength_cons, single_isMark hd]
    rfl
  | cons first before ih =>
    obtain ⟨skipped, c, rest, count, rfl, -, -, hstart, hstop, hothers⟩ := lex_eq_cons h
    obtain ⟨w, r, hrest, hplace, hnext⟩ := ih hothers.symm
    refine ⟨skipped ++ c :: rest.take count ++ w, r, ?_, ?_, hnext⟩
    · rw [List.append_assoc, List.append_assoc, List.cons_append, ← hrest, List.take_append_drop]
    · rw [hplace, hstop, hstart, Text.byteLength_append, Text.byteLength_append]
      omega

/-- A lexeme that is written with one certain character cuts the text. -/
private theorem lex_split {t : Text} (h : lex base offset t = before ++ l :: after) (hd : (single d).isMark)
    (hl : l.token = single d) :
    ∃ w r, t = w ++ d :: r ∧ lex base offset w = before ∧ l.start = offset + byteLength w ∧ l.stop = l.start + 1 := by
  obtain ⟨w, r, rfl, hstart, hstop⟩ := lex_place h hd hl
  exact ⟨w, r, rfl, lex_cut h hstart, hstart, hstop⟩

end Lexeme

namespace Nesting
variable {m n : Nesting} {separator bracket : Token} {limit : Nat} {ls : List Lexeme}

/-- A group that is not broken consists of an inside that closes what it opens, and of the closing bracket. -/
private theorem group_split (hb : bracket ≠ .less) (h : ((m.under [bracket]).group limit ls).broken = false) :
    ∃ inner l rest b, ls = inner ++ l :: rest ∧ bracket.closer = some l.token ∧
      (m.under [bracket]).group limit ls = ⟨l.stop, false, rest⟩ ∧ m.Leads (inner.map Lexeme.token) (level b) := by
  have hst : [bracket].head? ≠ some .less := by simpa using hb
  induction ls generalizing m with
  | nil => cases h
  | cons l ls ih =>
    by_cases hcloses : m.opened = [] → m.closes l.token = false
    · have hfeed := feed_under hst hcloses
      have hopen : ((m.feed l.token).under [bracket]).opened.isEmpty = false := by simp [under]
      rw [group, hfeed, hopen] at h
      obtain ⟨inner, last, rest, b, rfl, hcloser, hgroup, hleads⟩ := ih h
      refine ⟨l :: inner, last, rest, b, rfl, hcloser, ?_, .cons hcloses hleads⟩
      rw [group, hfeed, hopen]
      exact hgroup
    · push Not at hcloses
      obtain ⟨hopened, hcloses⟩ := hcloses
      obtain ⟨opened, afterOperand, broken⟩ := m
      simp only at hopened
      subst hopened
      have hfeed : (under [bracket] ⟨[], afterOperand, broken⟩).feed l.token =
          ⟨[], true, broken || bracket.closer != some l.token⟩ := by
        cases hl : l.token <;> simp [hl, closes] at hcloses <;> simp [feed, opens, closes, under]
      rw [group, hfeed] at h
      obtain ⟨rfl, hcloser⟩ : broken = false ∧ bracket.closer = some l.token := by simpa using h
      refine ⟨[], l, ls, afterOperand, rfl, hcloser, ?_, .nil _⟩
      rw [group, hfeed, hcloser]
      simp

/-- Where a separator is found, none stands in front of it; and it is found where there is one. -/
private theorem find_split (n : Nesting) (separator : Token) (limit : Nat) (ls : List Lexeme) :
    (n.find separator limit ls = limit ∧ n.Avoids separator (ls.map Lexeme.token)) ∨
      ∃ before l after, ls = before ++ l :: after ∧ l.token = separator ∧ n.find separator limit ls = l.start ∧
        n.Avoids separator (before.map Lexeme.token) := by
  induction ls generalizing n with
  | nil => exact .inl ⟨rfl, trivial⟩
  | cons l ls ih =>
    by_cases hl : n.opened.isEmpty ∧ l.token = separator
    · exact .inr ⟨[], l, ls, rfl, hl.2, if_pos hl, trivial⟩
    · have hfirst : n.opened = [] → l.token ≠ separator := fun hn hs => hl ⟨by simp [hn], hs⟩
      rw [find, if_neg hl]
      rcases ih (n.feed l.token) with ⟨hlimit, havoids⟩ | ⟨before, last, after, rfl, hlast, hstart, havoids⟩
      · exact .inl ⟨hlimit, hfirst, havoids⟩
      · exact .inr ⟨l :: before, last, after, rfl, hlast, hstart, hfirst, havoids⟩

end Nesting

namespace Text
variable {t : Text} {n : Nat}

/-- A group that is closed is an opening bracket, an inside that closes what it opens, and the closing bracket. -/
theorem groupEnd_split {c d : Char} (hp : Partners c d) (h : groupEnd (c :: t) = some n) :
    ∃ (inside rest : Text), c :: t = c :: inside ++ [d] ++ rest ∧ n = byteLength (c :: inside ++ [d]) ∧
      inside.Steady false := by
  have hcloser : (Lexeme.single c).closer = some (Lexeme.single d) := by cases hp <;> rfl
  have hless : Lexeme.single c ≠ .less := by cases hp <;> nofun
  have hd : (Lexeme.single d).isMark := by cases hp <;> rfl
  have hc : c.utf8Size = 1 := by cases hp <;> rfl
  unfold groupEnd at h
  rw [hp.lex_left] at h
  simp only [hcloser, Option.bind_eq_bind, Option.bind_some] at h
  split at h
  · cases h
  rename_i hbroken
  have hinside : Nesting.inside (Lexeme.single c) = (level false).under [Lexeme.single c] := rfl
  rw [hinside] at h hbroken
  obtain ⟨inner, l, rest, b, hlex, htoken, hgroup, hleads⟩ := Nesting.group_split hless (Bool.not_eq_true _ ▸ hbroken)
  rw [hcloser] at htoken
  obtain ⟨w, r, rfl, hw, hstart, hstop⟩ := Lexeme.lex_split hlex hd (Option.some.inj htoken).symm
  refine ⟨w, r, by simp, ?_, b, ?_⟩
  · rw [hgroup] at h
    obtain rfl := Option.some.inj h
    simp only [hstop, hstart, byteLength_append, byteLength_cons, hc, Lexeme.single_isMark hd,
      byteLength_nil]
  · rw [← hw, tokens_eq] at hleads
    exact hleads

/-- Up to the semicolon that is found, none stands outside of brackets. -/
theorem findOutside_split (t : Text) :
    ∃ w r : Text, t = w ++ r ∧ findOutside .semicolon t = byteLength w ∧ r.Follows ∧
      (level false).Avoids .semicolon w.tokens := by
  unfold findOutside
  rcases Nesting.find_split .outside .semicolon (byteLength t) (Lexeme.lex 10 0 t) with ⟨hlimit, havoids⟩ |
    ⟨before, l, after, hlex, htoken, hfound, havoids⟩
  · exact ⟨t, [], (List.append_nil t).symm, hlimit, .inl rfl, havoids⟩
  · obtain ⟨w, r, rfl, hw, hstart, -⟩ := Lexeme.lex_split (d := ';') hlex (by decide) htoken
    refine ⟨w, ';' :: r, rfl, ?_, .inr ⟨r, rfl⟩, ?_⟩
    · rw [hfound, hstart, Nat.zero_add]
    · rw [← hw] at havoids
      exact havoids

end Text
end Reckoner
