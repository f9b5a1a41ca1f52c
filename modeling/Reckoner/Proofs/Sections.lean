import Reckoner.Proofs.Brackets
import Reckoner.Proofs.Lexing
import Reckoner.Section

/-! Sections against the bracket reader: a section that is not broken takes up tokens that lead from the
outside of all brackets to the outside of all brackets. -/
namespace Reckoner

open Nesting (level)

def Token.separates : Token → Bool
  | comma | semicolon | assign => true
  | _ => false

/-- The tokens of a part go from outside of all brackets to outside of all brackets, and no separator among
them stands outside. -/
structure Nesting.Crosses (separator : Token) (a : Bool) (ts : List Token) (b : Bool) : Prop where
  leads : (level a).Leads ts (level b)
  avoids : (level a).Avoids separator ts

namespace Nesting.Crosses
variable {separator : Token} {a b c : Bool} {t : Token} {ts us : List Token}

theorem nil (a : Bool) : Crosses separator a [] a := ⟨.nil _, trivial⟩

theorem append (ht : Crosses separator a ts b) (hu : Crosses separator b us c) :
    Crosses separator a (ts ++ us) c :=
  ⟨ht.leads.append hu.leads, ht.avoids.append (ht.leads.state ▸ hu.avoids)⟩

/-- One token that is neither a bracket nor the separator. -/
theorem plain (ho : (level a).opens t = false) (hc : (level a).closes t = false) (hs : t ≠ separator)
    (hstring : t ≠ .openString) : Crosses separator a [t] t.endsOperand := by
  refine ⟨⟨⟨fun _ => hc, trivial⟩, ?_⟩, fun _ => hs, trivial⟩
  have hfeed := feed_of_plain ho hc
  have hbroken : (t == Token.openString) = false := by simpa using hstring
  simpa [feedAll, level, hbroken] using hfeed

/-- An opening bracket and its group. -/
private theorem group {bracket : Token} (ho : (level a).opens bracket) (hs : bracket ≠ separator)
    (hl : (inside bracket).Leads ts (level true)) (ha : (inside bracket).Avoids separator ts) :
    Crosses separator a (bracket :: ts) true := by
  have hfeed : (level a).feed bracket = inside bracket := by
    rw [feed, if_pos ho]
    rfl
  have hcloses : (level a).closes bracket = false := by
    cases bracket <;> first | rfl | cases ho
  exact ⟨.cons (fun _ => hcloses) (hfeed ▸ hl), fun _ => hs, hfeed ▸ ha⟩

end Nesting.Crosses

namespace Section

/-- How a section is taken off the lexemes: up to the lexemes behind it; or, as an anonymous function without
braces, with its arrow and all that is left; or as a bracket group with nothing for its base. -/
inductive Takes (separator : Token) (limit : Nat) (a : Bool) (s : Section) (ls rest : List Lexeme) : Prop
  | upTo (taken : List Lexeme) (h : ls = taken ++ rest)
    (crosses : Nesting.Crosses separator a (taken.map Lexeme.token) (s.kind ≠ .operators))
  | bare (head body : List Lexeme) (arrow : Lexeme) (h : ls = head ++ arrow :: body) (hrest : rest = [])
    (harrow : arrow.token = .arrow) (hkind : s.kind = .function arrow.start false) (hstop : s.stop = limit)
    (crosses : Nesting.Crosses separator a ((head ++ [arrow]).map Lexeme.token) false)
  | noBase (closing : Nat) (hkind : s.kind = .square closing (some s.stop))

variable {separator : Token} {limit : Nat} {a : Bool} {s : Section} {rest : List Lexeme}

theorem adjacent_token {token : Token} {offset : Nat} {l : Lexeme} (h : adjacent token offset l) :
    l.token = token := by
  simp only [adjacent, Bool.and_eq_true, beq_iff_eq] at h
  exact h.1

section
variable (hsep : separator.separates)
include hsep

theorem ne_separator {t : Token} (ht : t.separates = false) : t ≠ separator := by
  rintro rfl
  exact nomatch hsep.symm.trans ht

/-- A bracket group that is not broken. -/
theorem group_crosses {first : Lexeme} {ls : List Lexeme} (ho : (level a).opens first.token)
    (hb : ((Nesting.inside first.token).group limit ls).broken = false) :
    ∃ taken, first :: ls = taken ++ ((Nesting.inside first.token).group limit ls).rest ∧
      Nesting.Crosses separator a (taken.map Lexeme.token) true := by
  obtain ⟨taken, htaken, hl, ha⟩ := Nesting.group_leads (by simp [Nesting.inside]) limit ls hb
  have hs : first.token ≠ separator := by
    refine ne_separator hsep ?_
    cases hf : first.token <;> first | rfl | simp [hf, Nesting.opens] at ho
  exact ⟨first :: taken, by rw [List.cons_append, ← htaken], Nesting.Crosses.group ho hs hl ha⟩

private theorem grouped_takes {kind : SectionKind} {start : Nat} {first : Lexeme} {ls : List Lexeme}
    (before : List Lexeme) {b : Bool} (hk : kind ≠ .operators) (ho : (level b).opens first.token)
    (hbefore : Nesting.Crosses separator a (before.map Lexeme.token) b)
    (h : grouped limit kind first.token start ls = (s, rest)) (hb : s.broken = false) :
    Takes separator limit a s (before ++ first :: ls) rest := by
  unfold grouped at h
  obtain ⟨rfl, rfl⟩ := Prod.mk.inj h
  obtain ⟨taken, htaken, hcrosses⟩ := group_crosses hsep ho hb
  refine .upTo (before ++ taken) (by rw [htaken, List.append_assoc]) ?_
  simpa [hk] using hbefore.append hcrosses

/-- A function whose parameters lead to its arrow. -/
private theorem function_takes (head : List Lexeme) {b : Bool} {start : Nat} {ls : List Lexeme} {arrow : Lexeme}
    (harrow : arrow.token = .arrow) (hhead : Nesting.Crosses separator a (head.map Lexeme.token) b)
    (h : function limit start arrow ls = (s, rest)) (hb : s.broken = false) :
    Takes separator limit a s (head ++ arrow :: ls) rest := by
  have hmid : Nesting.Crosses separator a ((head ++ [arrow]).map Lexeme.token) false := by
    have hplain : Nesting.Crosses separator b [Token.arrow] false := .plain rfl rfl (ne_separator hsep rfl) nofun
    rw [List.map_append, List.map_singleton, harrow]
    exact hhead.append hplain
  have hbare (h : (⟨.function arrow.start false, start, limit, false⟩, []) = (s, rest)) :
      Takes separator limit a s (head ++ arrow :: ls) rest := by
    obtain ⟨rfl, rfl⟩ := Prod.mk.inj h
    exact .bare head ls arrow rfl rfl harrow rfl rfl hmid
  unfold function at h
  split at h
  · split at h
    · rename_i brace body hbrace
      obtain ⟨rfl, rfl⟩ := Prod.mk.inj h
      rw [← hbrace] at hb
      obtain ⟨taken, htaken, hcrosses⟩ := group_crosses hsep (a := false) (by rw [hbrace]; rfl) hb
      rw [hbrace] at htaken
      refine .upTo (head ++ [arrow] ++ taken) (by simp [htaken]) ?_
      rw [List.map_append]
      exact hmid.append hcrosses
    · exact hbare h
  · exact hbare h

private theorem named_takes {name : Lexeme} {ls : List Lexeme} (hname : name.token = .identifier)
    (h : named limit name ls = (s, rest)) (hb : s.broken = false) : Takes separator limit a s (name :: ls) rest := by
  have hone : Nesting.Crosses separator a ([name].map Lexeme.token) true := by
    rw [List.map_singleton, hname]
    exact .plain rfl rfl (ne_separator hsep rfl) (by decide)
  have hvariable (h : (⟨.variable, name.start, name.stop, false⟩, ls) = (s, rest)) :
      Takes separator limit a s (name :: ls) rest := by
    obtain ⟨rfl, rfl⟩ := Prod.mk.inj h
    exact .upTo [name] rfl hone
  unfold named at h
  split at h
  · rename_i next after
    split at h
    · rename_i hnext
      have hparen := adjacent_token hnext
      rw [← hparen] at h
      exact grouped_takes hsep [name] (by nofun) (by rw [hparen]; rfl) hone h hb
    · split at h
      · rename_i harrow
        exact function_takes hsep [name] harrow hone h hb
      · exact hvariable h
  · exact hvariable h

private theorem parenthesized_takes {start : Nat} {first : Lexeme} {ls : List Lexeme}
    (hfirst : first.token = .leftParen) (h : parenthesized limit start ls = (s, rest))
    (hb : s.broken = false) : Takes separator limit a s (first :: ls) rest := by
  have hplain (h : (⟨.parenthesis, start, ((Nesting.inside .leftParen).group limit ls).stop,
      ((Nesting.inside .leftParen).group limit ls).broken⟩, ((Nesting.inside .leftParen).group limit ls).rest) =
        (s, rest)) : Takes separator limit a s (first :: ls) rest := by
    rw [← hfirst] at h
    exact grouped_takes hsep [] (by nofun) (by rw [hfirst]; rfl) (.nil a) h hb
  unfold parenthesized at h
  simp only at h
  split at h
  · rename_i next after hafter
    split at h
    · rename_i harrow
      obtain ⟨hgroup, harrow⟩ : ((Nesting.inside .leftParen).group limit ls).broken = false ∧
          next.token = .arrow := by simpa using harrow
      rw [← hfirst] at hgroup hafter
      obtain ⟨taken, htaken, hcrosses⟩ := group_crosses hsep (a := a) (by rw [hfirst]; rfl) hgroup
      rw [htaken, hafter]
      exact function_takes hsep taken harrow hcrosses h hb
    · exact hplain h
  · exact hplain h

/-- The base behind a bracket group: either nothing, or tokens that end in an operand. -/
private theorem baseGroup_crosses {start : Nat} {ls : List Lexeme} (hb : (baseGroup limit start ls).broken = false) :
    (baseGroup limit start ls).stop = start ∨
      ∃ taken, ls = taken ++ (baseGroup limit start ls).rest ∧
        Nesting.Crosses separator false (taken.map Lexeme.token) true := by
  have hone {first : Lexeme} (hf : first.token = .number ∨ first.token = .identifier) :
      Nesting.Crosses separator false ([first].map Lexeme.token) true := by
    rw [List.map_singleton]
    rcases hf with hf | hf <;> rw [hf] <;> exact .plain rfl rfl (ne_separator hsep rfl) (by decide)
  revert hb
  unfold baseGroup
  split
  · rename_i first after
    split
    · rename_i hf
      exact fun _ => .inr ⟨[first], rfl, hone (.inl hf)⟩
    · rename_i hf
      have hname := hone (.inr hf)
      split
      · rename_i next args
        split
        · rename_i hnext
          intro hb
          have hparen := adjacent_token hnext
          rw [← hparen] at hb ⊢
          obtain ⟨taken, htaken, hcrosses⟩ := group_crosses hsep (a := true) (by rw [hparen]; rfl) hb
          refine .inr ⟨first :: taken, by rw [htaken, List.cons_append], ?_⟩
          exact hname.append hcrosses
        · exact fun _ => .inr ⟨[first], rfl, hname⟩
      · exact fun _ => .inr ⟨[first], rfl, hname⟩
    · rename_i hf
      intro hb
      rw [← hf] at hb ⊢
      obtain ⟨taken, htaken, hcrosses⟩ := group_crosses hsep (a := false) (by rw [hf]; rfl) hb
      exact .inr ⟨taken, htaken, hcrosses⟩
    · exact fun _ => .inl rfl
  · exact fun _ => .inl rfl

private theorem square_takes {start : Nat} {first : Lexeme} {ls : List Lexeme} (hfirst : first.token = .leftBracket)
    (h : square limit start ls = (s, rest)) (hb : s.broken = false) : Takes separator limit a s (first :: ls) rest := by
  unfold square at h
  rw [← hfirst] at h
  simp only at h
  split at h
  · rename_i hgroup
    obtain ⟨rfl, -⟩ := Prod.mk.inj h
    exact nomatch hb
  · rename_i hgroup
    obtain ⟨taken, htaken, hcrosses⟩ := group_crosses hsep (a := a) (by rw [hfirst]; rfl)
      (Bool.not_eq_true _ ▸ hgroup)
    rw [htaken]
    have hplain (h : (⟨.square (((Nesting.inside first.token).group limit ls).stop - 1) none, start,
        ((Nesting.inside first.token).group limit ls).stop, false⟩,
          ((Nesting.inside first.token).group limit ls).rest) = (s, rest)) :
        Takes separator limit a s (taken ++ ((Nesting.inside first.token).group limit ls).rest) rest := by
      obtain ⟨rfl, rfl⟩ := Prod.mk.inj h
      exact .upTo taken rfl hcrosses
    split at h
    · rename_i next after hafter
      split at h
      · rename_i hnext
        obtain ⟨rfl, rfl⟩ := Prod.mk.inj h
        rcases baseGroup_crosses hsep hb with hstop | ⟨base, hbase, hcross⟩
        · exact .noBase (((Nesting.inside first.token).group limit ls).stop - 1) (by simp only [hstop])
        · refine .upTo (taken ++ [next] ++ base) ?_ ?_
          · rw [hafter, List.append_assoc, List.append_assoc, ← hbase]
            rfl
          · have hunderscore : Nesting.Crosses separator true ([next].map Lexeme.token) false := by
              rw [List.map_singleton, adjacent_token hnext]
              exact .plain rfl rfl (ne_separator hsep rfl) (by decide)
            rw [List.map_append, List.map_append]
            exact (hcrosses.append hunderscore).append hcross
      · exact hplain h
    · exact hplain h

private theorem operator_crosses {t : Token} (ht : t.isOperator) (hless : t = .less → a = true) :
    Nesting.Crosses separator a [t] false := by
  have hfacts : (level a).opens t = false ∧ (level a).closes t = false ∧ t.separates = false ∧
      t ≠ .openString ∧ t.endsOperand = false := by
    by_cases hl : t = .less
    · subst hl
      simp [hless rfl, Nesting.opens, Nesting.closes, level, Token.endsOperand, Token.separates]
    · cases t <;> simp_all [Token.isOperator, Nesting.opens, Nesting.closes, level, Token.endsOperand, Token.separates]
  obtain ⟨ho, hc, hs, hstring, hend⟩ := hfacts
  exact hend ▸ .plain ho hc (ne_separator hsep hs) hstring

private theorem run_crosses {ls : List Lexeme} (h : ∀ l ∈ ls, continuesRun l) :
    Nesting.Crosses separator false (ls.map Lexeme.token) false := by
  induction ls with
  | nil => exact .nil false
  | cons l ls ih =>
    obtain ⟨hl, hls⟩ := List.forall_mem_cons.mp h
    obtain ⟨ho, hless⟩ : l.token.isOperator ∧ l.token ≠ .less := by
      simpa [continuesRun] using hl
    exact (operator_crosses hsep ho fun he => absurd he hless).append (ih hls)

private theorem operators_takes {first : Lexeme} {ls : List Lexeme} (hfirst : first.token.isOperator)
    (hless : first.token = .less → a = true) (h : operators first ls = (s, rest)) :
    Takes separator limit a s (first :: ls) rest := by
  unfold operators at h
  obtain ⟨rfl, rfl⟩ := Prod.mk.inj h
  refine .upTo (first :: ls.takeWhile continuesRun) (by simp) ?_
  have hrun := run_crosses hsep (List.all_eq_true.mp (List.all_takeWhile (p := continuesRun) (l := ls)))
  exact (operator_crosses hsep hfirst hless).append hrun

/-- A section that is not broken and not undefined takes up what it should. -/
theorem next_takes {ls : List Lexeme} (h : next limit a ls = some (s, rest)) (hb : s.broken = false)
    (hk : s.kind ≠ .undefined) : Takes separator limit a s ls rest := by
  cases ls with
  | nil => exact nomatch h
  | cons first ls =>
    have h := Option.some.inj h
    have hsingle {kind : SectionKind} (ho : (level a).opens first.token = false)
        (hc : (level a).closes first.token = false) (he : first.token.endsOperand)
        (hkind : kind ≠ .operators) (h : (⟨kind, first.start, first.stop, false⟩, ls) = (s, rest)) :
        Takes separator limit a s (first :: ls) rest := by
      obtain ⟨rfl, rfl⟩ := Prod.mk.inj h
      refine .upTo [first] rfl ?_
      have hs : first.token.separates = false := by
        cases hf : first.token <;> first | rfl | simp [hf, Token.endsOperand] at he
      have hplain := Nesting.Crosses.plain ho hc (ne_separator hsep hs) fun hs => by
        simp [hs, Token.endsOperand] at he
      simpa [hkind, he] using hplain
    split at h
    · rename_i ht
      exact hsingle (by rw [ht]; rfl) (by rw [ht]; rfl) (by rw [ht]; rfl) (by nofun) h
    · rename_i ht
      exact hsingle (by rw [ht]; rfl) (by rw [ht]; rfl) (by rw [ht]; rfl) (by nofun) h
    · obtain ⟨rfl, -⟩ := Prod.mk.inj h
      exact nomatch hb
    · exact named_takes hsep ‹_› h hb
    · exact parenthesized_takes hsep ‹_› h hb
    · exact square_takes hsep ‹_› h hb
    · rename_i ht
      split at h
      · rename_i ha
        exact operators_takes hsep (by rw [ht]; rfl) (fun _ => ha) h
      · rename_i ha
        rw [← ht] at h
        exact grouped_takes hsep [] (by nofun) (by simp [ht, Nesting.opens, level, ha]) (.nil a) h hb
    · rename_i hless
      split at h
      · rename_i ho
        exact operators_takes hsep ho (fun ht => absurd ht hless) h
      · obtain ⟨rfl, -⟩ := Prod.mk.inj h
        exact absurd rfl hk

end

theorem function_start (limit start : Nat) (arrow : Lexeme) (ls : List Lexeme) :
    (function limit start arrow ls).1.start = start := by
  unfold function
  split
  · split <;> rfl
  · rfl

/-- A section starts where its first lexeme does. -/
theorem next_start {limit : Nat} {a : Bool} {first : Lexeme} {ls : List Lexeme}
    (h : next limit a (first :: ls) = some (s, rest)) : s.start = first.start := by
  have hnamed : (named limit first ls).1.start = first.start := by
    unfold named
    split
    · split
      · rfl
      · split
        · exact function_start ..
        · rfl
    · rfl
  have hparenthesized : (parenthesized limit first.start ls).1.start = first.start := by
    unfold parenthesized
    simp only
    split
    · split
      · exact function_start ..
      · rfl
    · rfl
  have hsquare : (square limit first.start ls).1.start = first.start := by
    unfold square
    simp only
    split
    · rfl
    · split
      · split <;> rfl
      · rfl
  have key {r : Section × List Lexeme} (hr : r.1.start = first.start) (he : some r = some (s, rest)) :
      s.start = first.start := by
    rw [Option.some.inj he] at hr
    exact hr
  refine key ?_ h
  split
  · rfl
  · rfl
  · rfl
  · exact hnamed
  · exact hparenthesized
  · exact hsquare
  · split <;> rfl
  · split <;> rfl

theorem all_nil (limit : Nat) (a : Bool) : all limit a [] = [] := by
  rw [all]
  rfl

theorem all_eq {ls : List Lexeme} (h : next limit a ls = some (s, rest)) :
    all limit a ls = if s.broken then [s] else s :: all limit (s.kind ≠ .operators) rest := by
  rw [all]
  split
  · rename_i hn
    cases hn.symm.trans h
  · rename_i hn
    obtain ⟨rfl, rfl⟩ := Prod.mk.inj (Option.some.inj (hn.symm.trans h))
    rfl

end Section
end Reckoner
