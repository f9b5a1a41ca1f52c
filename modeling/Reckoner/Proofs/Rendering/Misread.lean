import Reckoner.Proofs.Brackets

/-! Brackets read behind a word. There a `<` compares that opened a vector where an operand was expected: either
the text closes its brackets all the same, or no block that it ends is closed by its brace. -/
namespace Reckoner.Nesting

/-- The group that is being read is closed by these tokens, and not broken. -/
def Survives (n : Nesting) : List Token → Prop
  | [] => False
  | t :: ts => if (n.feed t).opened.isEmpty then (n.feed t).broken = false else Survives (n.feed t) ts

variable {n n' m : Nesting} {t : Token} {ts us : List Token} {st : List Token}

private theorem not_survives_of_broken (h : n.broken = true) (ts : List Token) : ¬n.Survives ts := by
  induction ts generalizing n with
  | nil => exact id
  | cons t ts ih =>
    have hnext : (n.feed t).broken = true := by
      rw [← Bool.not_eq_false]
      intro hb
      have hn := (@broken_of_feedAll n [t] hb).1
      rw [h] at hn
      exact nomatch hn
    rw [Survives]
    split
    · rw [hnext]
      nofun
    · exact ih hnext

private theorem not_survives_of_feed (h : (n.feed t).broken = true) (ts : List Token) : ¬n.Survives (t :: ts) := by
  rw [Survives]
  split
  · rw [h]
    nofun
  · exact not_survives_of_broken h ts

/-- What closes no bracket around it goes on with the group around it. -/
theorem survives_cons (hst : st.head? ≠ some .less) (hne : st ≠ []) (h : n.opened = [] → n.closes t = false) :
    (n.under st).Survives (t :: ts) ↔ ((n.feed t).under st).Survives ts := by
  have hopen : ((n.feed t).under st).opened.isEmpty = false := by simp [under, hne]
  rw [Survives, feed_under hst h, hopen]
  exact Iff.rfl

theorem survives_append (hst : st.head? ≠ some .less) (hne : st ≠ []) (h : n.Leads ts n') :
    (n.under st).Survives (ts ++ us) ↔ (n'.under st).Survives us := by
  induction ts generalizing n with
  | nil => rw [← h.state]; rfl
  | cons t ts ih =>
    rw [List.cons_append, survives_cons hst hne h.closed.1]
    exact ih ⟨h.closed.2, h.state⟩

/-- What closes a bracket without breaking anything closes its partner. -/
private theorem closes_partner (ho : n.opens t = false) (hc : n.closes t = true) (hb : (n.feed t).broken = false) :
    ∃ o, n.opened = o :: (n.feed t).opened ∧ o.closer = some t := by
  have hfeed : n.feed t = ⟨n.opened.tail, true, n.broken || n.opened.head?.bind Token.closer != some t⟩ := by
    rw [feed, ho, hc]
    rfl
  rw [hfeed] at hb ⊢
  simp only [Bool.or_eq_false_iff, bne_eq_false_iff_eq] at hb
  cases hn : n.opened with
  | nil => simp [hn] at hb
  | cons o os => exact ⟨o, rfl, by simpa [hn] using hb.2⟩

def firm (opened : List Token) : List Token := opened.filter (· ≠ .less)

def react (opened : List Token) : Token → List Token
  | .leftParen => .leftParen :: opened
  | .leftBracket => .leftBracket :: opened
  | .leftBrace => .leftBrace :: opened
  | .rightParen | .rightBracket | .rightBrace => opened.tail
  | _ => opened

private theorem firm_feed (h : (n.feed t).broken = false) : firm (n.feed t).opened = react (firm n.opened) t := by
  have hplain (ho : n.opens t = false) (hc : n.closes t = false) : (n.feed t).opened = n.opened := by
    rw [feed_of_plain ho hc]
  have hopen (ho : n.opens t = true) : (n.feed t).opened = t :: n.opened := by
    rw [feed, if_pos ho]
  cases t
  case leftParen | leftBracket | leftBrace => rw [hopen rfl]; rfl
  case rightParen | rightBracket | rightBrace =>
    obtain ⟨o, ho, hcloser⟩ := closes_partner rfl rfl h
    rw [ho]
    cases o <;> first | exact absurd hcloser (by decide) | rfl
  case less =>
    by_cases ho : n.opens .less
    · rw [hopen ho]; rfl
    · rw [hplain (Bool.not_eq_true _ ▸ ho) rfl]; rfl
  case greater =>
    by_cases hc : n.closes .greater
    · obtain ⟨o, ho, hcloser⟩ := closes_partner rfl hc h
      rw [ho]
      cases o <;> first | exact absurd hcloser (by decide) | rfl
    · rw [hplain rfl (Bool.not_eq_true _ ▸ hc)]; rfl
  all_goals rw [hplain rfl rfl]; rfl

/-- Two runs over the same tokens that differ in the state of a `<` at most: when the first one closes all that
it opens, then either so does the second one, or the block that ends with these tokens is not closed. -/
theorem leads_or_fails {b : Bool} (hn : n.Leads ts (level b)) (hm : m.broken = false)
    (hfirm : firm m.opened = firm n.opened) :
    (∃ b', m.Leads ts (level b')) ∨ ∀ st us, ¬(m.under (.leftBrace :: st)).Survives (ts ++ .rightBrace :: us) := by
  have hbroken : (n.feedAll ts).broken = false := by rw [hn.state]; rfl
  induction ts generalizing n m with
  | nil =>
    have hnothing : firm m.opened = [] := by
      have hopened : n.opened = [] := congrArg opened hn.state
      rw [hfirm, hopened]
      rfl
    cases ho : m.opened with
    | nil =>
      refine .inl ⟨m.afterOperand, trivial, ?_⟩
      obtain ⟨opened, afterOperand, broken⟩ := m
      simp only at hm ho
      subst hm ho
      rfl
    | cons o os =>
      refine .inr fun st us => ?_
      obtain rfl : o = .less := by
        rw [ho] at hnothing
        cases o <;> first | rfl | cases hnothing
      refine not_survives_of_feed ?_ us
      simp [feed, under, opens, closes, ho, Token.closer]
  | cons t ts ih =>
    have hnext := (broken_of_feedAll hbroken).1
    have hstep : ((n.feed t).feedAll ts).broken = false := hbroken
    have hnt : (n.feed t).broken = false := (broken_of_feedAll hstep).1
    have hcloses : m.opened = [] → m.closes t = false := by
      intro ho
      rw [ho] at hfirm
      rw [← Bool.not_eq_true]
      intro hc
      have ht : t = .rightParen ∨ t = .rightBracket ∨ t = .rightBrace := by
        cases t <;> simp_all [closes]
      rcases ht with rfl | rfl | rfl <;>
      · obtain ⟨o, hno, hcloser⟩ := closes_partner rfl rfl hnt
        rw [hno] at hfirm
        cases o <;> first | exact absurd hcloser (by decide) | cases hfirm
    have hst (st : List Token) : (Token.leftBrace :: st).head? ≠ some .less := by simp
    cases hmt : (m.feed t).broken with
    | true =>
      refine .inr fun st us => ?_
      rw [List.cons_append, survives_cons (hst st) (List.cons_ne_nil _ _) hcloses]
      have hunder : ((m.feed t).under (.leftBrace :: st)).broken = true := hmt
      exact not_survives_of_broken hunder _
    | false =>
      have hfirm' : firm (m.feed t).opened = firm (n.feed t).opened := by
        rw [firm_feed hmt, firm_feed hnt, hfirm]
      rcases ih ⟨hn.closed.2, hn.state⟩ hmt hfirm' hstep with ⟨b', h⟩ | h
      · exact .inl ⟨b', .cons hcloses h⟩
      · refine .inr fun st us => ?_
        rw [List.cons_append, survives_cons (hst st) (List.cons_ne_nil _ _) hcloses]
        exact h st us

end Reckoner.Nesting
