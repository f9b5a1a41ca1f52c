import Reckoner.Proofs.Braces.Reading

/-! The bracket reader on its way through a text. What it has passed closes the brackets that it opens, and what is left
is lexed by itself. -/
namespace Reckoner

open Nesting (level)
open Text (byteLength dropBytes)

namespace Nesting

/-- Inside of brackets no token stands outside of them. -/
private theorem Sealed.avoids_under {n : Nesting} {st ts : List Token} (hst : st.head? ≠ some .less) (hne : st ≠ [])
    (h : n.Sealed ts) (separator : Token) : (n.under st).Avoids separator ts := by
  induction ts generalizing n with
  | nil => trivial
  | cons t ts ih =>
    refine ⟨fun hn => absurd hn (by simp [Nesting.under, hne]), ?_⟩
    rw [feed_under hst h.1]
    exact ih h.2

/-- No semicolon of a bracket group stands outside of it. -/
private theorem crosses_group {c d : Char} (hp : Text.Partners c d) (a : Bool) {b : Bool} {ts : List Token}
    (h : (level false).Leads ts (level b)) :
    Crosses .semicolon a (Lexeme.single c :: ts ++ [Lexeme.single d]) true := by
  refine ⟨leads_group hp a h, fun _ => by cases hp <;> nofun, ?_⟩
  have hst : [Lexeme.single c].head? ≠ some .less := by cases hp <;> nofun
  have hopen : (level a).feed (Lexeme.single c) = (level false).under [Lexeme.single c] := by cases hp <;> rfl
  have hinner := h.under hst (List.cons_ne_nil _ _)
  rw [hopen]
  refine (h.closed.avoids_under hst (List.cons_ne_nil _ _) .semicolon).append ?_
  rw [hinner.state]
  exact ⟨nofun, trivial⟩

end Nesting

namespace Text

/-- The text closes the brackets that it opens and has no semicolon outside of them. The flag tells whether an operand
stands before it. -/
def ClosedAt (a : Bool) (t : Text) : Prop := ∃ b, Nesting.Crosses .semicolon a t.tokens b

/-- The bracket reader gets from the start of a text, outside of brackets, to the start of what is left of it. The flags
tell whether an operand stands before each of them. -/
def Passes (a : Bool) (t : Text) (b : Bool) (u : Text) : Prop :=
  ∃ ts, t.tokens = ts ++ u.tokens ∧ (level a).Leads ts (level b)

/-- It gets there without a semicolon outside of brackets. -/
def Crosses (a : Bool) (t : Text) (b : Bool) (u : Text) : Prop :=
  ∃ ts, t.tokens = ts ++ u.tokens ∧ Nesting.Crosses .semicolon a ts b

variable {a b : Bool} {t u v k e : Text}

theorem ClosedAt.steady (h : t.ClosedAt a) : t.Steady a := by
  obtain ⟨b, h⟩ := h
  exact ⟨b, h.leads⟩

namespace Crosses

theorem passes (h : Crosses a t b u) : Passes a t b u := by
  obtain ⟨ts, htokens, hcrosses⟩ := h
  exact ⟨ts, htokens, hcrosses.leads⟩

private theorem refl (a : Bool) (t : Text) : Crosses a t a t := ⟨[], rfl, .nil a⟩

theorem trans {c : Bool} (ht : Crosses a t b u) (hu : Crosses b u c v) : Crosses a t c v := by
  obtain ⟨ts, htokens, hcrosses⟩ := ht
  obtain ⟨us, hrest, hmore⟩ := hu
  exact ⟨ts ++ us, by rw [htokens, hrest, List.append_assoc], hcrosses.append hmore⟩

theorem closedAt (h : Crosses a t b []) : t.ClosedAt a := by
  obtain ⟨ts, htokens, hcrosses⟩ := h
  rw [tokens_nil, List.append_nil] at htokens
  exact ⟨b, htokens ▸ hcrosses⟩

/-- What is left closes its brackets too. -/
theorem closedAt_of (h : Crosses a t b u) (hu : u.ClosedAt b) : t.ClosedAt a := by
  obtain ⟨c, hu⟩ := hu
  exact (h.trans ⟨u.tokens, by rw [tokens_nil, List.append_nil], hu⟩ : Crosses a t c []).closedAt

theorem name {name : Text} (hn : name.IsName) (hu : ∀ d ∈ u.head?, Lexeme.isNameChar d = false) (a : Bool) :
    Crosses a (name ++ u) true u :=
  ⟨[.identifier], tokens_name hn hu, .plain rfl rfl (by decide) (by decide)⟩

theorem assign (hu : ∀ d ∈ u.head?, d ≠ '=' ∧ d ≠ '>') (a : Bool) : Crosses a ('=' :: u) false u :=
  ⟨[.assign], tokens_assign hu, .plain rfl rfl (by decide) (by decide)⟩

theorem group {c d : Char} (hp : Partners c d) (he : e.Steady false) (a : Bool) (u : Text) :
    Crosses a (c :: e ++ [d] ++ u) true u := by
  obtain ⟨b, hleads⟩ := he
  exact ⟨_, tokens_group hp (Steady.whole ⟨b, hleads⟩) u, Nesting.crosses_group hp a hleads⟩

/-- A text that closes its brackets, up to where it breaks off. -/
theorem closed (he : e.ClosedAt a) (hu : u.Breaks) : ∃ b, Crosses a (e ++ u) b u := by
  have hwhole := he.steady.whole
  obtain ⟨b, hcrosses⟩ := he
  exact ⟨b, e.tokens, tokens_whole hwhole hu, hcrosses⟩

/-- Blanks, of which some are stray characters. -/
theorem blanks (hk : ∀ d ∈ k, isBlank d) (a : Bool) (u : Text) : ∃ b, Crosses a (k ++ u) b u ∧ (b = a ∨ b = false) := by
  induction k generalizing a with
  | nil => exact ⟨a, refl a u, .inl rfl⟩
  | cons d k ih =>
    obtain ⟨hd, hk⟩ := List.forall_mem_cons.mp hk
    have hfirst : Crosses a (d :: (k ++ u)) a (k ++ u) ∨ Crosses a (d :: (k ++ u)) false (k ++ u) := by
      rcases Lexeme.munch_of_blank hd 10 (k ++ u) with hm | hm
      · refine .inl ⟨[], ?_, .nil a⟩
        rw [tokens, Lexeme.lex, hm]
        exact tokens_eq _ _
      · refine .inr ⟨[.stray], ?_, .plain rfl rfl (by decide) (by decide)⟩
        rw [tokens, Lexeme.lex, hm]
        simp [tokens_eq]
    rcases hfirst with hfirst | hfirst
    · obtain ⟨b, hrest, hb⟩ := ih hk a
      exact ⟨b, hfirst.trans hrest, hb⟩
    · obtain ⟨b, hrest, hb⟩ := ih hk false
      exact ⟨b, hfirst.trans hrest, .inr (hb.elim id id)⟩

end Crosses

namespace Passes

theorem trans {c : Bool} (ht : Passes a t b u) (hu : Passes b u c v) : Passes a t c v := by
  obtain ⟨ts, htokens, hleads⟩ := ht
  obtain ⟨us, hrest, hmore⟩ := hu
  exact ⟨ts ++ us, by rw [htokens, hrest, List.append_assoc], hleads.append hmore⟩

theorem steady (h : Passes a t b []) : t.Steady a := by
  obtain ⟨ts, htokens, hleads⟩ := h
  rw [tokens_nil, List.append_nil] at htokens
  exact ⟨b, htokens ▸ hleads⟩

/-- A text that closes its brackets, up to where it breaks off. -/
theorem steady_append (he : e.Steady a) (hu : u.Breaks) : ∃ b, Passes a (e ++ u) b u := by
  have hwhole := he.whole
  obtain ⟨b, hleads⟩ := he
  exact ⟨b, e.tokens, tokens_whole hwhole hu, hleads⟩

private theorem semicolon (a : Bool) (u : Text) : Passes a (';' :: u) false u :=
  ⟨[.semicolon], tokens_semicolon u, .cons (fun _ => rfl) (.nil _)⟩

/-- Blanks and semicolons. -/
theorem separators (hk : ∀ d ∈ k, isBlank d ∨ d = ';') (a : Bool) (u : Text) :
    ∃ b, Passes a (k ++ u) b u ∧ (b = a ∨ b = false) := by
  induction k generalizing a with
  | nil => exact ⟨a, (Crosses.refl a u).passes, .inl rfl⟩
  | cons d k ih =>
    obtain ⟨hd, hbehind⟩ := List.forall_mem_cons.mp hk
    rcases hd with hd | rfl
    · obtain ⟨b, hfirst, hb⟩ := Crosses.blanks (k := [d]) (by simpa using hd) a (k ++ u)
      obtain ⟨c, hrest, hc⟩ := ih hbehind b
      refine ⟨c, hfirst.passes.trans hrest, ?_⟩
      rcases hc with rfl | hc
      · exact hb
      · exact .inr hc
    · obtain ⟨c, hrest, hc⟩ := ih hbehind false
      exact ⟨c, (semicolon a _).trans hrest, .inr (hc.elim id id)⟩

end Passes
end Text

namespace Statement
variable {t w name : Text}

/-- The word that a text starts with is all of a name. -/
theorem word?_split (ht : ∀ d ∈ t.head?, Text.isBlank d = false) (h : word? t = some name) :
    ∃ u, t = name ++ u ∧ name.IsName ∧ ∀ d ∈ u.head?, Lexeme.isNameChar d = false := by
  have hname := word?_isName h
  unfold word? at h
  split at h
  · rename_i start stop ls hlex
    obtain ⟨c, rest, count, rfl, hm, rfl, hstop⟩ := first_of_head ht hlex
    obtain ⟨-, rfl⟩ := Lexeme.munch_identifier hm
    have htake : rest.take (rest.takeWhile Lexeme.isNameChar).length = rest.takeWhile Lexeme.isNameChar :=
      (List.prefix_iff_eq_take.mp (List.takeWhile_prefix _)).symm
    rw [htake] at hstop
    have hsplit : c :: rest = c :: rest.takeWhile Lexeme.isNameChar ++ rest.dropWhile Lexeme.isNameChar := by
      rw [List.cons_append, List.takeWhile_append_dropWhile]
    simp only at hstop
    rw [hstop, hsplit, Text.slice_front] at h
    obtain rfl := Option.some.inj h
    refine ⟨_, hsplit, hname, fun d hd => ?_⟩
    have hnot := List.head?_dropWhile_not Lexeme.isNameChar rest
    rwa [Option.mem_def.mp hd] at hnot
  · cases h

/-- A lone `=` behind blanks. -/
theorem assignment?_split {value : Nat} (h : assignment? t = some value) :
    ∃ k u : Text, t = k ++ '=' :: u ∧ (∀ d ∈ k, Text.isBlank d) ∧ value = byteLength (k ++ ['=']) ∧
      ∀ d ∈ u.head?, d ≠ '=' ∧ d ≠ '>' := by
  unfold assignment? at h
  split at h
  · rename_i start stop ls hlex
    obtain ⟨k, c, u, count, rfl, hk, hm, hstart, hstop, -⟩ := Lexeme.lex_eq_cons hlex
    obtain ⟨hsingle, rfl⟩ := Lexeme.munch_mark hm rfl
    obtain rfl : c = '=' := Lexeme.eq_of_single hsingle rfl
    refine ⟨k, u, rfl, fun d hd => Text.isBlank_of_lexeme (hk d hd), ?_, fun d hd => ?_⟩
    · simp only at hstart hstop
      rw [← Option.some.inj h, hstop, hstart, List.take_zero, Text.byteLength_append, Nat.zero_add]
    · refine ⟨?_, ?_⟩ <;>
      · rintro rfl
        cases u with
        | nil => cases hd
        | cons d u =>
          obtain rfl := Option.some.inj hd
          cases hm
  · cases h

end Statement
end Reckoner
