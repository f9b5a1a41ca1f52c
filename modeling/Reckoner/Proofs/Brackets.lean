import Reckoner.Nesting

/-! Runs of the bracket reader over the tokens of a part of a text. A run that closes no bracket of what
stands around it goes the same way inside of any brackets. -/
namespace Reckoner.Nesting

/-- Outside of all brackets of the part, with nothing broken in it so far. -/
def level (afterOperand : Bool) : Nesting := { afterOperand }

def under (st : List Token) (n : Nesting) : Nesting := { n with opened := n.opened ++ st }

def feedAll (n : Nesting) (ts : List Token) : Nesting := ts.foldl feed n

/-- No token closes a bracket that was opened before. -/
def Sealed (n : Nesting) : List Token → Prop
  | [] => True
  | t :: ts => (n.opened = [] → n.closes t = false) ∧ Sealed (n.feed t) ts

/-- No token outside of brackets is the separator. -/
def Avoids (separator : Token) (n : Nesting) : List Token → Prop
  | [] => True
  | t :: ts => (n.opened = [] → t ≠ separator) ∧ Avoids separator (n.feed t) ts

/-- The tokens lead from one state to another without closing a bracket from before. -/
structure Leads (n : Nesting) (ts : List Token) (n' : Nesting) : Prop where
  closed : n.Sealed ts
  state : n.feedAll ts = n'

variable {n n' m : Nesting} {t separator : Token} {ts us : List Token} {st : List Token}

theorem feedAll_append (n : Nesting) (ts us : List Token) :
    n.feedAll (ts ++ us) = (n.feedAll ts).feedAll us := List.foldl_append

private theorem Sealed.append (ht : n.Sealed ts) (hu : (n.feedAll ts).Sealed us) : n.Sealed (ts ++ us) := by
  induction ts generalizing n with
  | nil => exact hu
  | cons t ts ih => exact ⟨ht.1, ih ht.2 hu⟩

theorem Avoids.append (ht : n.Avoids separator ts) (hu : (n.feedAll ts).Avoids separator us) :
    n.Avoids separator (ts ++ us) := by
  induction ts generalizing n with
  | nil => exact hu
  | cons t ts ih => exact ⟨ht.1, ih ht.2 hu⟩

namespace Leads

theorem nil (n : Nesting) : n.Leads [] n := ⟨trivial, rfl⟩

theorem append (ht : n.Leads ts m) (hu : m.Leads us n') : n.Leads (ts ++ us) n' := by
  obtain ⟨hs, rfl⟩ := ht
  exact ⟨hs.append hu.closed, by rw [feedAll_append, hu.state]⟩

theorem cons (h : n.opened = [] → n.closes t = false) (ht : (n.feed t).Leads ts n') : n.Leads (t :: ts) n' :=
  ⟨⟨h, ht.closed⟩, ht.state⟩

end Leads

/-- What a token that is no bracket does. -/
theorem feed_of_plain (ho : n.opens t = false) (hc : n.closes t = false) :
    n.feed t = { n with afterOperand := t.endsOperand, broken := n.broken || t == .openString } := by
  simp [feed, ho, hc]

theorem feed_under (hst : st.head? ≠ some .less) (h : n.opened = [] → n.closes t = false) :
    (n.under st).feed t = (n.feed t).under st := by
  have hopens : (n.under st).opens t = n.opens t := by cases t <;> rfl
  have hhead : n.opened ≠ [] → (n.opened ++ st).head? = n.opened.head? := by
    intro hne
    cases hn : n.opened with
    | nil => exact absurd hn hne
    | cons o os => rfl
  have hcloses : (n.under st).closes t = n.closes t := by
    by_cases hne : n.opened = []
    · have hless : (st.head? == some Token.less) = false := by simpa using hst
      have hn := h hne
      unfold closes at hn ⊢
      cases t <;> first | rfl | simp_all [under]
    · unfold closes
      cases t <;> first | rfl | simp [under, hhead hne]
  unfold feed
  rw [hopens, hcloses]
  split
  · rfl
  split
  · rename_i hc
    have hne : n.opened ≠ [] := fun hn => by simp [h hn] at hc
    simp only [under, hhead hne]
    rw [List.tail_append_of_ne_nil hne]
  · rfl

private theorem Sealed.feedAll_under (hst : st.head? ≠ some .less) (h : n.Sealed ts) :
    (n.under st).feedAll ts = (n.feedAll ts).under st := by
  induction ts generalizing n with
  | nil => rfl
  | cons t ts ih =>
    have hfeed := feed_under hst h.1
    simp only [feedAll, List.foldl_cons] at ih ⊢
    rw [hfeed]
    exact ih h.2

private theorem Sealed.under (hst : st.head? ≠ some .less) (hne : st ≠ []) (h : n.Sealed ts) :
    (n.under st).Sealed ts := by
  induction ts generalizing n with
  | nil => trivial
  | cons t ts ih =>
    refine ⟨fun hn => absurd hn (by simp [Nesting.under, hne]), ?_⟩
    rw [feed_under hst h.1]
    exact ih h.2

theorem Leads.under (hst : st.head? ≠ some .less) (hne : st ≠ []) (h : n.Leads ts n') :
    (n.under st).Leads ts (n'.under st) :=
  ⟨h.closed.under hst hne, by rw [h.closed.feedAll_under hst, h.state]⟩

/-- A group inside of brackets goes on behind the tokens that close none of them. -/
private theorem group_append (hst : st.head? ≠ some .less) (hne : st ≠ []) (limit : Nat) {ls : List Lexeme}
    (h : n.Leads (ls.map Lexeme.token) n') (rest : List Lexeme) :
    (n.under st).group limit (ls ++ rest) = (n'.under st).group limit rest := by
  induction ls generalizing n with
  | nil => rw [← h.state]; rfl
  | cons l ls ih =>
    have hfeed := feed_under hst h.closed.1
    have hopen : ((n.feed l.token).under st).opened.isEmpty = false := by
      simp [Nesting.under, hne]
    rw [List.cons_append, group, hfeed, hopen]
    exact ih ⟨h.closed.2, h.state⟩

/-- A group whose contents lead back to it ends at its closing bracket. -/
theorem group_inside {bracket closer : Token} (hb : bracket ≠ .less) (hc : bracket.closer = some closer)
    (limit : Nat) {ls : List Lexeme} {a : Bool} (h : (level false).Leads (ls.map Lexeme.token) (level a))
    (start stop : Nat) (rest : List Lexeme) :
    (inside bracket).group limit (ls ++ ⟨closer, start, stop⟩ :: rest) = ⟨stop, false, rest⟩ := by
  have hst : [bracket].head? ≠ some .less := by simpa using hb
  have hgroup := group_append hst (by simp) limit h (⟨closer, start, stop⟩ :: rest)
  have hclose : ((level a).under [bracket]).feed closer = ⟨[], true, false⟩ := by
    cases bracket <;> simp [Token.closer] at hc <;> subst hc <;> rfl
  rw [show inside bracket = (level false).under [bracket] from rfl, hgroup, group, hclose]
  rfl

/-- A search goes on behind the tokens among which the separator does not stand outside of brackets. -/
theorem find_append (limit : Nat) {ls : List Lexeme} (h : n.Avoids separator (ls.map Lexeme.token))
    (rest : List Lexeme) :
    n.find separator limit (ls ++ rest) = (n.feedAll (ls.map Lexeme.token)).find separator limit rest := by
  induction ls generalizing n with
  | nil => rfl
  | cons l ls ih =>
    have hl : ¬(n.opened.isEmpty ∧ l.token = separator) := fun hl => h.1 (by simpa using hl.1) hl.2
    rw [List.cons_append, find, if_neg hl]
    exact ih h.2

/-- A split goes on behind the tokens among which the separator does not stand outside of brackets. -/
theorem split_append (limit start : Nat) {ls : List Lexeme} (h : n.Avoids separator (ls.map Lexeme.token))
    (rest : List Lexeme) :
    n.split separator limit start (ls ++ rest) =
      (n.feedAll (ls.map Lexeme.token)).split separator limit start rest := by
  induction ls generalizing n with
  | nil => rfl
  | cons l ls ih =>
    have hl : ¬(n.opened.isEmpty ∧ l.token = separator) := fun hl => h.1 (by simpa using hl.1) hl.2
    rw [List.cons_append, split, if_neg hl]
    exact ih h.2

/-- What is broken stays so. -/
theorem broken_of_feedAll (h : (n.feedAll ts).broken = false) :
    n.broken = false ∧ ∀ t ∈ ts, t ≠ .openString := by
  induction ts generalizing n with
  | nil => exact ⟨h, nofun⟩
  | cons t ts ih =>
    obtain ⟨hn, hts⟩ := ih h
    have hfeed : n.broken = false ∧ t ≠ .openString := by
      unfold feed at hn
      split at hn
      · rename_i ho
        exact ⟨hn, fun ht => by simp [ht, opens] at ho⟩
      split at hn
      · rename_i hc
        exact ⟨(Bool.or_eq_false_iff.mp hn).1, fun ht => by simp [ht, closes] at hc⟩
      · simpa using hn
    exact ⟨hfeed.1, List.forall_mem_cons.mpr ⟨hfeed.2, hts⟩⟩

theorem feed_eq_level (hn : n.opened ≠ []) (ho : (n.feed t).opened = []) (hb : (n.feed t).broken = false) :
    n.feed t = level true := by
  unfold feed at ho hb ⊢
  split at ho
  · exact nomatch ho
  rename_i hopens
  rw [if_neg hopens] at hb ⊢
  split at ho
  · rename_i hcloses
    rw [if_pos hcloses] at hb ⊢
    simp only at ho hb
    simp [level, ho, hb]
  · exact absurd ho hn

/-- A group that is not broken takes up tokens that lead out of it, and no separator among them stands
outside of its brackets. -/
theorem group_leads (hn : n.opened ≠ []) (limit : Nat) (ls : List Lexeme)
    (h : (n.group limit ls).broken = false) :
    ∃ taken, ls = taken ++ (n.group limit ls).rest ∧ n.Leads (taken.map Lexeme.token) (level true) ∧
      n.Avoids separator (taken.map Lexeme.token) := by
  fun_induction group limit n ls with
  | case1 => exact nomatch h
  | case2 n lexeme rest next ho =>
    have hlevel : n.feed lexeme.token = level true := feed_eq_level hn (by simpa using ho) h
    exact ⟨[lexeme], rfl, ⟨⟨fun he => absurd he hn, trivial⟩, hlevel⟩, fun he => absurd he hn, trivial⟩
  | case3 n lexeme rest next ho ih =>
    obtain ⟨taken, hrest, hleads, havoids⟩ := ih (by simpa using ho) h
    refine ⟨lexeme :: taken, by rw [List.cons_append, ← hrest], ?_, fun he => absurd he hn, havoids⟩
    exact hleads.cons fun he => absurd he hn

end Reckoner.Nesting
