import Reckoner.Proofs.FirstWord
import Reckoner.Proofs.Rendering.Framed
import Reckoner.Proofs.Rendering.Steady

/-! How the statements that a renderer writes are read: where each of them ends, and what its parts are. -/
namespace Reckoner

open Render (parenthesized braced)
open Text (byteLength dropBytes findOutside groupEnd leadingBlank)

namespace Text

/-- What may follow a statement: nothing, or a semicolon and more. -/
def Follows (r : Text) : Prop := r = [] ∨ ∃ next, r = ';' :: next

theorem Follows.breaks {r : Text} (h : r.Follows) : r.Breaks := by
  rcases h with rfl | ⟨next, rfl⟩
  · exact breaks_nil
  · exact breaks_semicolon next

theorem Follows.isNameChar {r : Text} (h : r.Follows) : ∀ d ∈ r.head?, Lexeme.isNameChar d = false := by
  intro d hd
  rcases h with rfl | ⟨next, rfl⟩
  · exact nomatch hd
  · exact Option.some.inj hd ▸ rfl

private theorem Closed.space {t : Text} (h : t.Closed) : Closed (' ' :: t) := by rwa [Closed, tokens_space]

theorem leadingBlank_eq_zero {t : Text} (h : ∀ c ∈ t.head?, isBlank c = false) : leadingBlank t = 0 := by
  cases t with
  | nil => rfl
  | cons c t => simp [leadingBlank, h c rfl]

end Text

namespace Statement
variable {start : Nat} {c b t r name : Text}

theorem separators_eq_zero (h : ∀ c ∈ t.head?, Text.Firm c) : separators t = 0 := by
  cases t with
  | nil => rfl
  | cons c t =>
    have hc := h c rfl
    simp [separators, hc.blank, hc.semicolon]

theorem separators_semicolon (t : Text) : separators (';' :: t) = 1 + separators t := by
  have hsize : ';'.utf8Size = 1 := rfl
  simp [separators, hsize]

theorem word?_name (hn : name.IsName) (ht : ∀ d ∈ t.head?, Lexeme.isNameChar d = false) :
    word? (name ++ t) = some name := by
  have hslice : Text.slice (name ++ t) 0 (0 + byteLength name) = name := by
    simpa using Text.slice_append [] name t
  rw [word?, Lexeme.lex_name hn ht]
  simp only [hslice]

theorem readBody_braced (hb : b.Steady false) :
    readBody start (braced b ++ r) =
      (.braced start (start + byteLength (braced b)), start + byteLength (braced b)) := by
  have hblank : leadingBlank (braced b ++ r) = 0 := Text.leadingBlank_eq_zero fun c hc => by
    obtain rfl := Option.some.inj hc
    decide
  have hgroup : groupEnd (braced b ++ r) = some (byteLength (braced b)) := Text.groupEnd_group .braces hb r
  unfold readBody
  simp only [hblank, Nat.add_zero, dropBytes, hgroup]
  split
  · rename_i hnil
    exact absurd hnil (List.cons_ne_nil _ _)
  · rename_i first rest hcons
    obtain ⟨rfl, -⟩ := List.cons.inj hcons
    rw [if_pos rfl]

theorem readConditional_rendered (loops : Bool) (hc : c.Steady false) (hb : b.Steady false) :
    readConditional loops start (parenthesized c ++ braced b ++ r) =
      (.conditional loops (.closed start (start + byteLength (parenthesized c)))
        (.braced (start + byteLength (parenthesized c)) (start + byteLength (parenthesized c ++ braced b))),
        start + byteLength (parenthesized c ++ braced b)) := by
  have hblank : leadingBlank (parenthesized c ++ (braced b ++ r)) = 0 :=
    Text.leadingBlank_eq_zero fun c hc => by
      obtain rfl := Option.some.inj hc
      decide
  have hgroup : groupEnd (parenthesized c ++ (braced b ++ r)) = some (byteLength (parenthesized c)) :=
    Text.groupEnd_group .parentheses hc (braced b ++ r)
  rw [List.append_assoc]
  unfold readConditional
  simp only [hblank, Nat.add_zero, dropBytes, hgroup]
  rw [if_neg (by simp [parenthesized]), Text.dropBytes_byteLength, readBody_braced hb, Text.byteLength_append,
    Nat.add_assoc]

/-- A word that starts no statement. -/
private theorem ne_of_isKeyword_eq_false (h : isKeyword name = false) {word : Text} (hw : isKeyword word) :
    name ≠ word := by
  rintro rfl
  rw [h] at hw
  exact nomatch hw

/-- The first lexeme of a text that starts with a firm character. -/
private theorem lex_framed (hf : t.Framed) :
    ∃ l ls first rest, Lexeme.lex 10 0 t = l :: ls ∧ t = first ++ rest ∧ l.start = 0 ∧
      l.stop = byteLength first := by
  obtain ⟨c, rest, rfl, hc⟩ := hf.first
  have hblank : Lexeme.isBlank c = false := by
    rw [← Bool.not_eq_true]
    intro hb
    have hb' := Text.isBlank_of_lexeme hb
    rw [hc.blank] at hb'
    cases hb'
  rw [Lexeme.lex]
  rcases hm : Lexeme.munch 10 c rest with ⟨_ | token, count⟩
  · rw [(Lexeme.munch_none hm).1] at hblank
    cases hblank
  · refine ⟨_, _, c :: rest.take count, rest.drop count, rfl, ?_, rfl, ?_⟩
    · rw [List.cons_append, List.take_append_drop]
    · exact Nat.zero_add _

private theorem assignment?_eq_none (h : t.tokens.head? ≠ some .assign) : assignment? t = none := by
  unfold assignment?
  split
  · rename_i hlex
    rw [Text.tokens, hlex] at h
    exact absurd rfl h
  · rfl

/-- The word that a speaking text starts with is no word of a statement, and no assignment follows it. -/
theorem word?_speaks (ht : t.Closed) (hf : t.Framed) (hs : t.Speaks) (hr : r.Follows) {word : Text}
    (h : word? (t ++ r) = some word) :
    isKeyword word = false ∧ assignment? (dropBytes (byteLength word) (t ++ r)) = none := by
  obtain ⟨l, ls, first, rest, hlex, rfl, hstart, hstop⟩ := lex_framed hf
  obtain ⟨token, start, stop⟩ := l
  simp only at hstart hstop
  subst hstart hstop
  have hall := Text.lex_whole ht.steady.whole hr.breaks 0
  rw [hlex] at hall
  have hidentifier : token = .identifier ∧ Text.slice (first ++ rest ++ r) 0 (byteLength first) = word := by
    rw [word?, hall, List.cons_append] at h
    split at h
    · rename_i heq
      obtain ⟨hl, -⟩ := List.cons.inj heq
      obtain ⟨rfl, rfl, rfl⟩ := Lexeme.mk.inj hl
      exact ⟨rfl, Option.some.inj h⟩
    · cases h
  obtain ⟨rfl, hword⟩ := hidentifier
  have hfirst (u : Text) : Text.slice (first ++ u) 0 (byteLength first) = first := by
    simpa using Text.slice_append [] first u
  obtain rfl : first = word := by rw [← hword, List.append_assoc, hfirst]
  obtain ⟨hkey, hnext⟩ := hs _ _ hlex rfl
  simp only [hfirst] at hkey
  refine ⟨hkey, ?_⟩
  rw [List.append_assoc, Text.dropBytes_byteLength]
  have hbehind := @Lexeme.lex_behind 10 0 _ [] ls _ hlex
  rw [Nat.sub_zero, Text.dropBytes_byteLength] at hbehind
  have htokens : rest.tokens = ls.map Lexeme.token := by rw [← Text.tokens_eq (byteLength first), hbehind]
  have hwhole : rest.Whole := by
    intro token htoken
    refine ht.steady.whole token ?_
    rw [Text.tokens, hlex]
    exact List.mem_cons_of_mem _ (htokens ▸ htoken)
  refine assignment?_eq_none ?_
  rw [Text.tokens_whole hwhole hr.breaks, htokens]
  cases ls with
  | nil =>
    rcases hr with rfl | ⟨next, rfl⟩
    · rw [Text.tokens, Lexeme.lex]
      exact (Option.some_ne_none _).symm
    · rw [Text.tokens_semicolon]
      simp
  | cons next ls => exact fun h => hnext next rfl (Option.some.inj h)

/-- What stands where a statement is expected, and starts none, is an expression. -/
theorem readFirst_expression (ht : t.Closed) (hf : t.Framed) (hs : t.Speaks) (hr : r.Follows) :
    readFirst start (t ++ r) = (.expression start (start + byteLength t), start + byteLength t) := by
  have hup : upToSemicolon start 0 (t ++ r) = (start, start + byteLength t) := by
    rw [upToSemicolon, dropBytes, Text.findOutside_closed ht hr, Nat.add_zero]
  unfold readFirst
  cases hword : word? (t ++ r) with
  | none => simp only [hup]
  | some word =>
    obtain ⟨hkey, hassign⟩ := word?_speaks ht hf hs hr hword
    simp only [hup, hassign]
    rw [if_neg (ne_of_isKeyword_eq_false hkey rfl), if_neg (ne_of_isKeyword_eq_false hkey rfl),
      if_neg (ne_of_isKeyword_eq_false hkey rfl), if_neg (ne_of_isKeyword_eq_false hkey rfl), if_neg]
    rintro (rfl | rfl)
    · exact absurd hkey (by decide)
    · exact absurd hkey (by decide)

theorem readFirst_giveBack (ht : t.Closed) (hr : r.Follows) :
    readFirst start ("return ".toList ++ t ++ r) =
      (.giveBack (start + 6) (start + byteLength ("return ".toList ++ t)),
        start + byteLength ("return ".toList ++ t)) := by
  have hsplit : "return ".toList ++ t ++ r = "return".toList ++ (' ' :: t ++ r) := rfl
  have hsize : byteLength "return".toList = 6 := rfl
  have hword : word? ("return".toList ++ (' ' :: t ++ r)) = some "return".toList :=
    word?_name (by decide) fun d hd => Option.some.inj hd ▸ rfl
  have hup : upToSemicolon start 6 ("return".toList ++ (' ' :: t ++ r)) =
      (start + 6, start + byteLength ("return ".toList ++ t)) := by
    rw [upToSemicolon, ← hsize, Text.dropBytes_byteLength, Text.findOutside_closed ht.space hr, Nat.add_assoc,
      ← Text.byteLength_append]
    rfl
  rw [hsplit]
  unfold readFirst
  rw [hword]
  simp only [hsize, hup]
  rw [if_neg (by decide), if_neg (by decide), if_neg (by decide), if_pos trivial]

private theorem word?_follows (hn : name.IsName) (hr : r.Follows) : word? (name ++ r) = some name :=
  word?_name hn hr.isNameChar

private theorem upToSemicolon_follows (start : Nat) (name : Text) (hr : r.Follows) :
    upToSemicolon start (byteLength name) (name ++ r) = (start + byteLength name, start + byteLength name) := by
  have hend : findOutside .semicolon r = 0 := by
    rcases hr with rfl | ⟨next, rfl⟩
    · rw [findOutside, Lexeme.lex, Nesting.find]
      rfl
    · rw [findOutside, Lexeme.lex_bracket (by simp), Nesting.find, if_pos ⟨rfl, rfl⟩]
  rw [upToSemicolon, Text.dropBytes_byteLength, hend, Nat.add_zero]

theorem readFirst_break (hr : r.Follows) :
    readFirst start ("break".toList ++ r) = (.jump true start (start + 5) (start + 5), start + 5) := by
  have hname : Text.IsName "break".toList := by decide
  have hup := upToSemicolon_follows start "break".toList hr
  unfold readFirst
  rw [word?_follows hname hr]
  simp only [hup]
  rw [if_neg (by decide), if_neg (by decide), if_neg (by decide), if_neg (by decide), if_pos (.inl trivial)]
  rfl

theorem readFirst_continue (hr : r.Follows) :
    readFirst start ("continue".toList ++ r) = (.jump false start (start + 8) (start + 8), start + 8) := by
  have hname : Text.IsName "continue".toList := by decide
  have hup := upToSemicolon_follows start "continue".toList hr
  unfold readFirst
  rw [word?_follows hname hr]
  simp only [hup]
  rw [if_neg (by decide), if_neg (by decide), if_neg (by decide), if_neg (by decide), if_pos (.inr trivial)]
  rfl

theorem readFirst_assign (hn : name.IsName) (hk : isKeyword name = false) (ht : t.Closed) (hf : t.Framed)
    (hr : r.Follows) :
    readFirst start (name ++ '=' :: t ++ r) =
      (.assign name start (start + byteLength name + 1) (start + byteLength (name ++ '=' :: t)),
        start + byteLength (name ++ '=' :: t)) := by
  have hsplit : name ++ '=' :: t ++ r = name ++ ('=' :: (t ++ r)) := by simp
  have hword : word? (name ++ ('=' :: (t ++ r))) = some name :=
    word?_name hn fun d hd => Option.some.inj hd ▸ rfl
  have hassign : assignment? ('=' :: (t ++ r)) = some 1 := by
    rw [assignment?, Lexeme.lex_assign fun d hd => ⟨(hf.first.head r d hd).equals, (hf.first.head r d hd).greater⟩]
  have hup : upToSemicolon start (byteLength name + 1) (name ++ ('=' :: (t ++ r))) =
      (start + byteLength name + 1, start + byteLength (name ++ '=' :: t)) := by
    have hskip : dropBytes (byteLength name + 1) (name ++ ('=' :: (t ++ r))) = t ++ r := by
      rw [Text.dropBytes_append]
      exact Text.dropBytes_byteLength ['='] (t ++ r)
    have hsize : '='.utf8Size = 1 := rfl
    rw [upToSemicolon, hskip, Text.findOutside_closed ht hr]
    simp [hsize, Nat.add_assoc]
  rw [hsplit]
  unfold readFirst
  rw [hword]
  simp only [Text.dropBytes_byteLength, hassign, hup]
  rw [if_neg (ne_of_isKeyword_eq_false hk rfl), if_neg (ne_of_isKeyword_eq_false hk rfl),
    if_neg (ne_of_isKeyword_eq_false hk rfl), if_neg (ne_of_isKeyword_eq_false hk rfl), if_neg]
  rintro (rfl | rfl)
  · exact nomatch hk
  · exact nomatch hk

private theorem word?_parenthesized (hn : name.IsName) (t : Text) :
    word? (name ++ (parenthesized c ++ t)) = some name :=
  word?_name hn fun _ hd => Option.some.inj hd ▸ rfl

theorem readFirst_if (start : Nat) (c b r : Text) :
    readFirst start ("if".toList ++ (parenthesized c ++ braced b ++ r)) =
      readConditional false (start + 2) (parenthesized c ++ braced b ++ r) := by
  have hname : Text.IsName "if".toList := by decide
  unfold readFirst
  rw [List.append_assoc, word?_parenthesized hname]
  simp only [Text.dropBytes_byteLength]
  rw [if_pos trivial]
  rfl

theorem readFirst_while (start : Nat) (c b r : Text) :
    readFirst start ("while".toList ++ (parenthesized c ++ braced b ++ r)) =
      readConditional true (start + 5) (parenthesized c ++ braced b ++ r) := by
  have hname : Text.IsName "while".toList := by decide
  unfold readFirst
  rw [List.append_assoc, word?_parenthesized hname]
  simp only [Text.dropBytes_byteLength]
  rw [if_neg (by decide), if_pos trivial]
  rfl

theorem readFirst_otherwise (hb : b.Steady false) :
    let stop := start + byteLength ("else".toList ++ braced b)
    readFirst start ("else".toList ++ braced b ++ r) = (.otherwise start (.braced (start + 4) stop), stop) := by
  intro stop
  have hstop : stop = start + 4 + byteLength (braced b) := by
    simp only [stop, Text.byteLength_append, Nat.add_assoc]
    rfl
  have hname : Text.IsName "else".toList := by decide
  have hword : word? ("else".toList ++ (braced b ++ r)) = some "else".toList :=
    word?_name hname fun d hd => Option.some.inj hd ▸ rfl
  have hsize : byteLength "else".toList = 4 := rfl
  have hdrop : dropBytes 4 ("else".toList ++ (braced b ++ r)) = braced b ++ r := by
    rw [← hsize, Text.dropBytes_byteLength]
  have hblank : leadingBlank (braced b ++ r) = 0 := Text.leadingBlank_eq_zero fun c hc => by
    obtain rfl := Option.some.inj hc
    decide
  have hnone : word? (braced b ++ r) = none := by
    rw [word?, show braced b ++ r = '\x7b' :: (b ++ ['\x7d'] ++ r) from rfl, Lexeme.lex_bracket (by simp)]
    rfl
  rw [List.append_assoc]
  unfold readFirst
  rw [hword]
  simp only [hsize, hdrop, hblank, Nat.add_zero, hnone, readBody_braced hb]
  rw [if_neg (by decide), if_neg (by decide), if_pos trivial, if_neg (Option.some_ne_none _).symm, hstop]

section
variable (start : Nat) (c b r : Text)

def elseIf : Text := "else ".toList ++ ("if".toList ++ (parenthesized c ++ braced b ++ r))

private theorem dropBytes_elseIf (n : Nat) :
    dropBytes (7 + n) (elseIf c b r) = dropBytes n (parenthesized c ++ braced b ++ r) :=
  Text.dropBytes_append "else if".toList _ n

private theorem word?_elseIf : word? (elseIf c b r) = some "else".toList := by
  have hname : Text.IsName "else".toList := by decide
  exact word?_name (t := ' ' :: ("if".toList ++ (parenthesized c ++ braced b ++ r))) hname
    fun _ hd => Option.some.inj hd ▸ rfl

variable {c b r}

theorem readFirst_elseIf {first : Statement} (h : readConditional false (start + 7) (parenthesized c ++ braced b ++ r) =
    (first, start + 7 + byteLength (parenthesized c ++ braced b))) :
    let stop := start + 7 + byteLength (parenthesized c ++ braced b)
    let u := dropBytes (separators r) r
    readFirst start (elseIf c b r) =
      if word? u = some "else".toList then
        (.otherwiseIf start first (some (readFirst (stop + separators r) u).1),
          (readFirst (stop + separators r) u).2)
      else (.otherwiseIf start first none, stop) := by
  intro stop u
  have hname : Text.IsName "if".toList := by decide
  have hblank : leadingBlank (dropBytes 4 (elseIf c b r)) = 1 := by
    have hdrop : dropBytes 4 (elseIf c b r) = ' ' :: ("if".toList ++ (parenthesized c ++ braced b ++ r)) :=
      Text.dropBytes_byteLength "else".toList _
    rw [hdrop]
    rfl
  have hif : word? (dropBytes 5 (elseIf c b r)) = some "if".toList := by
    have hdrop : dropBytes 5 (elseIf c b r) = "if".toList ++ (parenthesized c ++ (braced b ++ r)) := by
      rw [← List.append_assoc (parenthesized c)]
      exact Text.dropBytes_byteLength "else ".toList _
    rw [hdrop, word?_parenthesized hname]
  have hcondition : readConditional false (start + 5 + 2) (dropBytes (5 + 2) (elseIf c b r)) = (first, stop) := by
    have hdrop : dropBytes (5 + 2) (elseIf c b r) = parenthesized c ++ braced b ++ r := dropBytes_elseIf c b r 0
    rw [hdrop]
    exact h
  have hskip : max 4 (stop - start) = 7 + byteLength (parenthesized c ++ braced b) := by
    simp only [stop]
    omega
  have hrest (n : Nat) : dropBytes (7 + byteLength (parenthesized c ++ braced b) + n) (elseIf c b r) = dropBytes n r := by
    rw [Nat.add_assoc, dropBytes_elseIf, Text.dropBytes_append]
  rw [readFirst.eq_def start (elseIf c b r), word?_elseIf]
  simp only [hblank, hif, hcondition, hskip]
  rw [if_neg (by decide), if_neg (by decide), if_pos trivial, if_pos trivial]
  have hrest0 := hrest 0
  rw [Nat.add_zero, dropBytes] at hrest0
  simp only [hrest0, hrest]
  have hplace : start + (7 + byteLength (parenthesized c ++ braced b) + separators r) = stop + separators r := by
    simp only [stop]
    omega
  by_cases hu : word? u = some "else".toList
  · rw [dif_pos ⟨List.cons_ne_nil _ _, by omega, hu⟩, if_pos hu, hplace]
  · rw [dif_neg fun h => hu h.2.2, if_neg hu]

end

theorem readAll_nil (start : Nat) : readAll start [] = [] := by
  rw [readAll]
  rfl

/-- A statement and what follows it. -/
theorem readAll_first {s : Statement} (hf : t.Starts)
    (h : readFirst start (t ++ r) = (s, start + byteLength t)) :
    readAll start (t ++ r) = (start, s) :: readAll (start + byteLength t) r := by
  have hne : t ++ r ≠ [] := List.append_ne_nil_of_left_ne_nil hf.ne_nil r
  have hpos : 0 < byteLength t := Nat.pos_of_ne_zero fun hz => hf.ne_nil (Text.eq_nil_of_byteLength hz)
  have hsize : max 1 (start + byteLength t - start) = byteLength t := by omega
  rw [readAll]
  simp only [separators_eq_zero (hf.head r), Nat.add_zero, dropBytes]
  rw [dif_neg hne]
  simp only [h, hsize, Text.dropBytes_byteLength]

theorem readAll_semicolon (start : Nat) (t : Text) : readAll start (';' :: t) = readAll (start + 1) t := by
  have hdrop (n : Nat) : dropBytes (1 + n) (';' :: t) = dropBytes n t := Text.dropBytes_append [';'] t n
  rw [readAll.eq_def start, readAll.eq_def (start + 1)]
  simp only [separators_semicolon, hdrop, Nat.add_assoc]

end Statement
end Reckoner
