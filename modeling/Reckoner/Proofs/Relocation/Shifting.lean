import Reckoner.Proofs.Sections

/-! The sections of a text that stands behind another one are its own sections, further back. -/
namespace Reckoner

namespace Lexeme
variable (n : Nat) (l : Lexeme)

@[simp] theorem shift_token : (l.shift n).token = l.token := rfl

@[simp] theorem shift_start : (l.shift n).start = l.start + n := rfl

@[simp] theorem shift_stop : (l.shift n).stop = l.stop + n := rfl

end Lexeme

def SectionKind.shift (n : Nat) : SectionKind → SectionKind
  | .call opening => .call (opening + n)
  | .square closing base => .square (closing + n) (base.map (· + n))
  | .function arrow braced => .function (arrow + n) braced
  | kind => kind

def Section.shift (n : Nat) (s : Section) : Section := ⟨s.kind.shift n, s.start + n, s.stop + n, s.broken⟩

namespace Nesting

private theorem group_shift (limit k : Nat) (n : Nesting) (ls : List Lexeme) :
    n.group (limit + k) (ls.map (Lexeme.shift k)) =
      ⟨(n.group limit ls).stop + k, (n.group limit ls).broken, (n.group limit ls).rest.map (Lexeme.shift k)⟩ := by
  induction ls generalizing n with
  | nil => rfl
  | cons l ls ih =>
    simp only [List.map_cons, group, ih, Lexeme.shift_token, Lexeme.shift_stop]
    split <;> rfl

private theorem group_stop_pos {limit : Nat} (hl : 0 < limit) (n : Nesting) {ls : List Lexeme}
    (hp : ∀ l ∈ ls, 0 < l.stop) : 0 < (n.group limit ls).stop := by
  induction ls generalizing n with
  | nil => exact hl
  | cons l ls ih =>
    obtain ⟨hfirst, hrest⟩ := List.forall_mem_cons.mp hp
    unfold group
    simp only
    split
    · exact hfirst
    · exact ih _ hrest

end Nesting

namespace Section

/-- A section has a last byte, and so has what stands before its base. -/
structure Solid (s : Section) : Prop where
  stop : 0 < s.stop
  base (closing first : Nat) : s.kind = .square closing (some first) → 0 < first

structure Moved (n : Nat) (r r' : Section × List Lexeme) : Prop where
  shifted : r' = (r.1.shift n, r.2.map (Lexeme.shift n))
  solid : r.1.Solid

section
variable {limit n : Nat} {ls : List Lexeme}

private theorem function_moved (hl : 0 < limit) (hp : ∀ l ∈ ls, 0 < l.stop) (start : Nat) (arrow : Lexeme) :
    Moved n (function limit start arrow ls)
      (function (limit + n) (start + n) (arrow.shift n) (ls.map (Lexeme.shift n))) := by
  unfold function
  cases ls with
  | nil => exact ⟨rfl, hl, nofun⟩
  | cons brace body =>
    simp only [List.map_cons, Nesting.group_shift]
    by_cases hb : brace.token = .leftBrace
    · have hb' : (brace.shift n).token = .leftBrace := hb
      rw [if_pos hb, if_pos hb']
      exact ⟨rfl, Nesting.group_stop_pos hl _ fun l h => hp l (List.mem_cons_of_mem _ h), nofun⟩
    · have hb' : (brace.shift n).token ≠ .leftBrace := hb
      rw [if_neg hb, if_neg hb']
      exact ⟨rfl, hl, nofun⟩

private theorem grouped_moved (hl : 0 < limit) (hp : ∀ l ∈ ls, 0 < l.stop) (kind : SectionKind)
    (hk : ∀ closing base, kind ≠ .square closing base) (bracket : Token) (start : Nat) :
    Moved n (grouped limit kind bracket start ls)
      (grouped (limit + n) (kind.shift n) bracket (start + n) (ls.map (Lexeme.shift n))) := by
  unfold grouped
  simp only [Nesting.group_shift]
  exact ⟨rfl, Nesting.group_stop_pos hl _ hp, fun closing first h => absurd h (hk closing (some first))⟩

private theorem adjacent_shift (token : Token) (offset : Nat) (l : Lexeme) :
    adjacent token (offset + n) (l.shift n) = adjacent token offset l := by
  rw [Bool.eq_iff_iff]
  simp [adjacent]

private theorem named_moved (hl : 0 < limit) (hp : ∀ l ∈ ls, 0 < l.stop) {name : Lexeme} (hname : 0 < name.stop) :
    Moved n (named limit name ls) (named (limit + n) (name.shift n) (ls.map (Lexeme.shift n))) := by
  unfold named
  cases ls with
  | nil => exact ⟨rfl, hname, nofun⟩
  | cons next after =>
    have hafter : ∀ l ∈ after, 0 < l.stop := fun l h => hp l (List.mem_cons_of_mem _ h)
    have hadj : adjacent .leftParen (name.shift n).stop (next.shift n) = adjacent .leftParen name.stop next :=
      adjacent_shift _ _ _
    simp only [List.map_cons, hadj]
    split
    · exact grouped_moved hl hafter (.call next.start) (by nofun) .leftParen name.start
    · by_cases harrow : next.token = .arrow
      · have harrow' : (next.shift n).token = .arrow := harrow
        rw [if_pos harrow, if_pos harrow']
        exact function_moved hl hafter name.start next
      · have harrow' : (next.shift n).token ≠ .arrow := harrow
        rw [if_neg harrow, if_neg harrow']
        exact ⟨rfl, hname, nofun⟩

private theorem parenthesized_moved (hl : 0 < limit) (hp : ∀ l ∈ ls, 0 < l.stop) (start : Nat) :
    Moved n (parenthesized limit start ls) (parenthesized (limit + n) (start + n) (ls.map (Lexeme.shift n))) := by
  unfold parenthesized
  simp only [Nesting.group_shift]
  have hstop := Nesting.group_stop_pos hl (.inside .leftParen) hp
  have hsuffix := group_rest_suffix limit (.inside .leftParen) ls
  generalize (Nesting.inside .leftParen).group limit ls = group at hstop hsuffix
  obtain ⟨stop, broken, rest⟩ := group
  cases rest with
  | nil => exact ⟨rfl, hstop, nofun⟩
  | cons next after =>
    have hafter : ∀ l ∈ after, 0 < l.stop :=
      fun l h => hp l (hsuffix.subset (List.mem_cons_of_mem _ h))
    simp only [List.map_cons]
    by_cases harrow : (!broken && next.token == .arrow) = true
    · have harrow' : (!broken && (next.shift n).token == .arrow) = true := harrow
      rw [if_pos harrow, if_pos harrow']
      exact function_moved hl hafter start next
    · have harrow' : ¬(!broken && (next.shift n).token == .arrow) = true := harrow
      rw [if_neg harrow, if_neg harrow']
      exact ⟨rfl, hstop, nofun⟩

private theorem baseGroup_shift (start : Nat) :
    baseGroup (limit + n) (start + n) (ls.map (Lexeme.shift n)) =
      ⟨(baseGroup limit start ls).stop + n, (baseGroup limit start ls).broken,
        (baseGroup limit start ls).rest.map (Lexeme.shift n)⟩ := by
  cases ls with
  | nil => rfl
  | cons first after =>
    simp only [List.map_cons, baseGroup, Lexeme.shift_token, Lexeme.shift_stop, Nesting.group_shift]
    split
    · rfl
    · cases after with
      | nil => rfl
      | cons next args =>
        simp only [List.map_cons, adjacent_shift, Nesting.group_shift]
        split <;> rfl
    · rfl
    · rfl

private theorem baseGroup_stop_pos (hl : 0 < limit) (hp : ∀ l ∈ ls, 0 < l.stop) {start : Nat} (hs : 0 < start) :
    0 < (baseGroup limit start ls).stop := by
  unfold baseGroup
  split
  · rename_i first after
    obtain ⟨hfirst, hafter⟩ := List.forall_mem_cons.mp hp
    split
    · exact hfirst
    · split
      · split
        · exact Nesting.group_stop_pos hl _ fun l h => hafter l (List.mem_cons_of_mem _ h)
        · exact hfirst
      · exact hfirst
    · exact Nesting.group_stop_pos hl _ hafter
    · exact hs
  · exact hs

private theorem square_moved (hl : 0 < limit) (hp : ∀ l ∈ ls, 0 < l.stop) (start : Nat) :
    Moved n (square limit start ls) (square (limit + n) (start + n) (ls.map (Lexeme.shift n))) := by
  unfold square
  simp only [Nesting.group_shift]
  have hstop := Nesting.group_stop_pos hl (.inside .leftBracket) hp
  have hsuffix := group_rest_suffix limit (.inside .leftBracket) ls
  generalize (Nesting.inside .leftBracket).group limit ls = group at hstop hsuffix
  obtain ⟨stop, broken, rest⟩ := group
  simp only at hstop hsuffix ⊢
  have hplain : Moved n (⟨.square (stop - 1) none, start, stop, false⟩, rest)
      (⟨.square (stop + n - 1) none, start + n, stop + n, false⟩, rest.map (Lexeme.shift n)) := by
    have hlast : stop + n - 1 = stop - 1 + n := by omega
    rw [hlast]
    exact ⟨rfl, hstop, nofun⟩
  split
  · exact ⟨rfl, hstop, nofun⟩
  · cases rest with
    | nil => exact hplain
    | cons next after =>
      simp only [List.map_cons, adjacent_shift]
      split
      · have hfirst : 0 < next.stop := hp next (hsuffix.subset List.mem_cons_self)
        have hlast : stop + n - 1 = stop - 1 + n := by omega
        rw [Lexeme.shift_stop, baseGroup_shift, hlast]
        refine ⟨rfl, ?_, fun closing first h => ?_⟩
        · have hafter : next :: after ⊆ ls := hsuffix.subset
          exact baseGroup_stop_pos hl (fun l h => hp l (hafter (List.mem_cons_of_mem _ h))) hfirst
        · obtain ⟨-, h⟩ := SectionKind.square.inj h
          exact Option.some.inj h ▸ hfirst
      · exact hplain

private theorem operators_moved {first : Lexeme} (hfirst : 0 < first.stop) (hp : ∀ l ∈ ls, 0 < l.stop) :
    Moved n (operators first ls) (operators (first.shift n) (ls.map (Lexeme.shift n))) := by
  have hcontinues : continuesRun ∘ Lexeme.shift n = continuesRun := rfl
  unfold operators
  rw [List.takeWhile_map, List.dropWhile_map, hcontinues, List.getLast?_map]
  cases hlast : (ls.takeWhile continuesRun).getLast? with
  | none => exact ⟨rfl, hfirst, nofun⟩
  | some last =>
    have hmem : last ∈ ls := (List.takeWhile_prefix _).subset (List.mem_of_getLast? hlast)
    exact ⟨rfl, hp last hmem, nofun⟩

private theorem next_moved (hl : 0 < limit) {first : Lexeme} (hp : ∀ l ∈ first :: ls, 0 < l.stop) (a : Bool) :
    ∃ r r', next limit a (first :: ls) = some r ∧
      next (limit + n) a ((first :: ls).map (Lexeme.shift n)) = some r' ∧ Moved n r r' := by
  obtain ⟨hfirst, hrest⟩ := List.forall_mem_cons.mp hp
  refine ⟨_, _, rfl, rfl, ?_⟩
  simp only [Lexeme.shift_token, Lexeme.shift_start, Lexeme.shift_stop]
  split
  · exact ⟨rfl, hfirst, nofun⟩
  · exact ⟨rfl, hfirst, nofun⟩
  · exact ⟨rfl, hfirst, nofun⟩
  · exact named_moved hl hrest hfirst
  · exact parenthesized_moved hl hrest first.start
  · exact square_moved hl hrest first.start
  · split
    · exact operators_moved hfirst hrest
    · exact grouped_moved hl hrest .vector (by nofun) .less first.start
  · split
    · exact operators_moved hfirst hrest
    · exact ⟨rfl, hfirst, nofun⟩

theorem isOperators_shift (k : SectionKind) : (k.shift n ≠ .operators) = (k ≠ .operators) := by
  cases k <;> simp [SectionKind.shift]

/-- The sections of a text further back. -/
theorem all_shift (hl : 0 < limit) (hp : ∀ l ∈ ls, 0 < l.stop) (a : Bool) :
    all (limit + n) a (ls.map (Lexeme.shift n)) = (all limit a ls).map (shift n) ∧
      ∀ s ∈ all limit a ls, s.Solid := by
  induction hlength : ls.length using Nat.strongRecOn generalizing ls a with
  | ind length ih =>
    cases ls with
    | nil =>
      rw [List.map_nil, all_nil, all_nil]
      exact ⟨rfl, nofun⟩
    | cons first ls =>
      obtain ⟨⟨s, rest⟩, _, hnext, hnext', rfl, hsolid⟩ := next_moved (n := n) hl hp a
      have hsuffix := next_suffix hnext
      have hrest : ∀ l ∈ rest, 0 < l.stop := fun l h => hp l (List.mem_cons_of_mem _ (hsuffix.subset h))
      obtain ⟨hmap, hall⟩ := ih rest.length (hlength ▸ length_next_lt hnext) hrest (s.kind ≠ .operators) rfl
      rw [all_eq hnext, all_eq hnext']
      by_cases hb : s.broken
      · have hb' : (s.shift n).broken := hb
        rw [if_pos hb, if_pos hb']
        exact ⟨rfl, by simpa using hsolid⟩
      · have hb' : ¬(s.shift n).broken := hb
        rw [if_neg hb, if_neg hb', List.map_cons, ← hmap]
        refine ⟨?_, List.forall_mem_cons.mpr ⟨hsolid, hall⟩⟩
        simp only [shift, isOperators_shift]

end
end Section
end Reckoner
