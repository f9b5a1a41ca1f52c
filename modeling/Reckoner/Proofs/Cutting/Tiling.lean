import Reckoner.Proofs.Cutting.Matched

/-! Sections tile their text: each one starts behind the blanks that follow the one before it, and nothing else is
left over. Where a section is not broken, what stands at its places is what its kind says. -/
namespace Reckoner

open Text (IsCut isBoundary byteLength dropBytes slice)
open Lexeme (Remain lex)

def Text.behindBlanks (t : Text) (place : Nat) : Nat :=
  place + byteLength ((dropBytes place t).takeWhile Lexeme.isBlank)

/-- What stands at the places of a section of this kind: its brackets, each the partner of the other, its quotes, its
arrow, and the `_` in front of a base. -/
def SectionKind.Stands (base : Nat) (t : Text) (start stop : Nat) : SectionKind → Prop
  | .call opening => start < opening ∧ t.Encloses base '(' ')' opening stop
  | .parenthesis => t.Encloses base '(' ')' start stop
  | .vector => t.Encloses base '<' '>' start stop
  | .square closing none => t.Encloses base '[' ']' start (closing + 1) ∧ stop = closing + 1
  | .square closing (some first) => t.Encloses base '[' ']' start (closing + 1) ∧ t.At (closing + 1) ['_'] ∧
      first = closing + 2 ∧ first ≤ stop
  | .string => start + 1 < stop ∧ t.At start ['"'] ∧ t.At (stop - 1) ['"']
  | .function arrow true => start < arrow ∧ t.At arrow ['=', '>'] ∧
      t.Encloses base '\x7b' '\x7d' (t.behindBlanks (arrow + 2)) stop
  | .function arrow false => start < arrow ∧ t.At arrow ['=', '>'] ∧ stop = byteLength t
  | .number | .variable | .operators | .undefined => True

namespace Section

def first (base : Nat) (afterOperand : Bool) (start : Nat) (t : Text) : Option Section :=
  (ofText base afterOperand start t).head?

structure Lies (base : Nat) (t : Text) (place : Nat) (s : Section) : Prop where
  start : s.start = t.behindBlanks place
  forward : s.start < s.stop
  cut : IsCut t s.start s.stop
  stands : s.broken = false → s.kind.Stands base t s.start s.stop

/-- Each section is the first one from where the one before it ends, up to the end of the text or a broken section. -/
inductive Tiles (base : Nat) (t : Text) : Bool → Nat → List Section → Prop
  | done {a : Bool} {place : Nat} (h : first base a place t = none) : Tiles base t a place []
  | broken {a : Bool} {place : Nat} {s : Section} (h : first base a place t = some s) (hlies : s.Lies base t place)
      (hb : s.broken) : Tiles base t a place [s]
  | next {a : Bool} {place : Nat} {s : Section} {rest : List Section} (h : first base a place t = some s)
      (hlies : s.Lies base t place) (hb : s.broken = false)
      (hrest : Tiles base t (s.kind ≠ .operators) s.stop rest) : Tiles base t a place (s :: rest)

/-- The text `u` is what the sections take up in `t`, one after the other, with blanks between them and at both ends;
what stands behind a broken one is not told. -/
def Spell (t : Text) : Text → List Section → Prop
  | u, [] => ∀ c ∈ u, Lexeme.isBlank c
  | u, s :: rest => ∃ blanks behind, u = blanks ++ slice t s.start s.stop ++ behind ∧
      (∀ c ∈ blanks, Lexeme.isBlank c) ∧ (s.broken = false → Spell t behind rest)

end Section

namespace Lexeme
variable {base place : Nat} {t : Text} {l : Lexeme} {ls : List Lexeme}

/-- No lexeme is left where only blanks are. -/
private theorem lex_eq_nil_iff (base offset : Nat) (t : Text) : lex base offset t = [] ↔ ∀ c ∈ t, isBlank c := by
  constructor
  · intro h
    fun_induction lex base offset t with
    | case1 => exact List.forall_mem_nil _
    | case2 offset c rest count stop others hm ih =>
      obtain ⟨hblank, rfl⟩ := munch_none hm
      rw [List.drop_zero] at ih
      exact List.forall_mem_cons.mpr ⟨hblank, ih h⟩
    | case3 => cases h
  · intro h
    cases hlex : lex base offset t with
    | nil => rfl
    | cons l ls =>
      obtain ⟨skipped, c, rest, count, rfl, -, hm, -⟩ := lex_eq_cons hlex
      have hc : isBlank c := h c (List.mem_append_right _ List.mem_cons_self)
      rw [munch, if_pos hc] at hm
      cases hm

/-- The first lexeme that is left starts behind the blanks. -/
private theorem Remain.start_eq (h : Remain base t place (l :: ls)) : l.start = t.behindBlanks place := by
  obtain ⟨⟨skipped, c, rest, count, hw⟩, -⟩ := h.first
  have hc : isBlank c = false := by
    rw [← Bool.not_eq_true]
    intro hc
    have hm := hw.munch
    rw [munch, if_pos hc] at hm
    cases hm
  rw [hw.start, Text.behindBlanks, hw.text, List.takeWhile_append_of_pos hw.blank,
    List.takeWhile_cons_of_neg (by simp [hc]), List.append_nil]

end Lexeme

namespace Section

structure Ends (base : Nat) (t : Text) (s : Section) : Prop where
  forward : s.start < s.stop
  boundary : isBoundary s.stop t
  stands : s.broken = false → s.kind.Stands base t s.start s.stop

variable {base place : Nat} {t : Text} {ls : List Lexeme}

/-- A function whose arrow is the first lexeme that is left behind its parameters. -/
private theorem function_ends {start : Nat} {arrow : Lexeme} (hstart : start < arrow.start)
    (harrow : arrow.token = .arrow)
    (h : Remain base t place (arrow :: ls)) : (function (byteLength t) start arrow ls).1.Ends base t := by
  have hordered := h.ordered
  have hwhole := Text.le_byteLength_of_isBoundary h.stops
  have hat := h.at_arrow harrow
  have hbare : Ends base t ⟨.function arrow.start false, start, byteLength t, false⟩ :=
    ⟨by simp only; omega, Text.isBoundary_self t, fun _ => ⟨hstart, hat, rfl⟩⟩
  unfold function
  split
  · rename_i brace body
    split
    · rename_i hbrace
      have hbody := h.rest.ordered
      obtain ⟨hplace, hboundary⟩ := Nesting.group_stop (n := .inside .leftBrace) h.rest.rest
      refine ⟨by simp only; omega, hboundary, fun hb => ⟨hstart, hat, ?_⟩⟩
      rw [← h.arrow harrow, ← h.rest.start_eq]
      exact encloses .braces h.rest hbrace hb
    · exact hbare
  · exact hbare

private theorem named_ends {name : Lexeme} (h : Remain base t place (name :: ls)) :
    (named (byteLength t) name ls).1.Ends base t := by
  have hordered := h.ordered
  have hvariable : Ends base t ⟨.variable, name.start, name.stop, false⟩ := ⟨hordered.2, h.stops, fun _ => trivial⟩
  unfold named
  split
  · rename_i next after
    have hnext := h.rest.ordered
    split
    · rename_i hparen
      obtain ⟨hplace, hboundary⟩ := Nesting.group_stop (n := .inside .leftParen) h.rest.rest
      refine ⟨by simp only [grouped]; omega, hboundary, fun hb => ⟨by simp only [grouped]; omega, ?_⟩⟩
      exact encloses .parentheses h.rest (adjacent_token hparen) hb
    · split
      · rename_i harrow
        exact function_ends (by omega) harrow h.rest
      · exact hvariable
  · exact hvariable

private theorem parenthesized_ends {opening : Lexeme} (h : Remain base t place (opening :: ls))
    (ho : opening.token = .leftParen) : (parenthesized (byteLength t) opening.start ls).1.Ends base t := by
  have hordered := h.ordered
  obtain ⟨hplace, hboundary⟩ := Nesting.group_stop (n := .inside .leftParen) h.rest
  have hplain : Ends base t ⟨.parenthesis, opening.start, ((Nesting.inside .leftParen).group (byteLength t) ls).stop,
      ((Nesting.inside .leftParen).group (byteLength t) ls).broken⟩ :=
    ⟨by simp only; omega, hboundary, encloses .parentheses h ho⟩
  unfold parenthesized
  simp only
  split
  · rename_i next after hafter
    split
    · rename_i harrow
      obtain ⟨hwhole, harrow⟩ : ((Nesting.inside .leftParen).group (byteLength t) ls).broken = false ∧
          next.token = .arrow := by simpa using harrow
      obtain ⟨hforward, -, hremain⟩ := Nesting.group_remain (List.cons_ne_nil _ _) h.rest hwhole
      rw [hafter] at hremain
      have hnext := hremain.ordered
      exact function_ends (by omega) harrow hremain
    · exact hplain
  · exact hplain

private theorem baseGroup_stop (h : Remain base t place ls) :
    place ≤ (baseGroup (byteLength t) place ls).stop ∧ isBoundary (baseGroup (byteLength t) place ls).stop t := by
  unfold baseGroup
  split
  · rename_i first after
    have hordered := h.ordered
    have hone : place ≤ first.stop ∧ isBoundary first.stop t := ⟨by omega, h.stops⟩
    split
    · exact hone
    · split
      · rename_i next args
        split
        · have hnext := h.rest.ordered
          obtain ⟨hplace, hboundary⟩ := Nesting.group_stop (n := .inside .leftParen) h.rest.rest
          exact ⟨by omega, hboundary⟩
        · exact hone
      · exact hone
    · obtain ⟨hplace, hboundary⟩ := Nesting.group_stop (n := .inside .leftParen) h.rest
      exact ⟨by omega, hboundary⟩
    · exact ⟨Nat.le_refl _, h.boundary⟩
  · exact ⟨Nat.le_refl _, h.boundary⟩

private theorem square_ends {opening : Lexeme} (h : Remain base t place (opening :: ls))
    (ho : opening.token = .leftBracket) :
    (square (byteLength t) opening.start ls).1.Ends base t := by
  have hordered := h.ordered
  obtain ⟨hplace, hboundary⟩ := Nesting.group_stop (n := .inside .leftBracket) h.rest
  unfold square
  simp only
  split
  · exact ⟨by simp only; omega, hboundary, nofun⟩
  · rename_i hwhole
    rw [Bool.not_eq_true] at hwhole
    have hencloses := encloses .square h ho hwhole
    obtain ⟨hforward, -, hremain⟩ := Nesting.group_remain (List.cons_ne_nil _ _) h.rest hwhole
    change t.Encloses base '[' ']' opening.start ((Nesting.inside .leftBracket).group (byteLength t) ls).stop at hencloses
    generalize (Nesting.inside .leftBracket).group (byteLength t) ls = g at hencloses hforward hremain hboundary ⊢
    have hclosing : g.stop - 1 + 1 = g.stop := by omega
    have hplain : Ends base t ⟨.square (g.stop - 1) none, opening.start, g.stop, false⟩ :=
      ⟨by simp only; omega, hboundary, fun _ => ⟨hclosing.symm ▸ hencloses, hclosing.symm⟩⟩
    split
    · rename_i next after hafter
      rw [hafter] at hremain
      split
      · rename_i hunderscore
        obtain ⟨hat, hnext⟩ := hremain.at_mark (c := '_') (by rw [adjacent_token hunderscore]; rfl)
        rw [adjacent_start hunderscore] at hat hnext
        obtain ⟨hbase, hend⟩ := baseGroup_stop hremain.rest
        refine ⟨by simp only; omega, hend, fun _ => ⟨hclosing.symm ▸ hencloses, hclosing.symm ▸ hat, ?_, hbase⟩⟩
        omega
      · exact hplain
    · exact hplain

private theorem operators_ends {operator : Lexeme} (h : Remain base t place (operator :: ls)) :
    (operators operator ls).1.Ends base t := by
  obtain ⟨hforward, hremain⟩ := operators_remain h
  exact ⟨hforward, hremain.boundary, fun _ => trivial⟩

private theorem string_stands {quoted : Lexeme} (h : Remain base t place (quoted :: ls)) (hq : quoted.token = .string) :
    SectionKind.string.Stands base t quoted.start quoted.stop := by
  obtain ⟨inside, -, hat, hstop⟩ := h.at_string hq
  have hlength : byteLength ('"' :: inside ++ ['"']) = byteLength ('"' :: inside) + 1 := Text.byteLength_append _ _
  have hlast : quoted.stop - 1 = quoted.start + byteLength ('"' :: inside) := by omega
  have hquote : byteLength ('"' :: inside) = 1 + byteLength inside := rfl
  refine ⟨by omega, hat.left (w := ['"']) (v := inside ++ ['"']), ?_⟩
  rw [hlast]
  exact hat.right

/-- Where the first section of the lexemes that are left lies. -/
private theorem next_lies {a : Bool} {s : Section} {rest : List Lexeme} (h : Remain base t place ls)
    (hs : next (byteLength t) a ls = some (s, rest)) : s.Lies base t place := by
  cases ls with
  | nil => cases hs
  | cons l ls =>
    have hstart := next_start hs
    have hends : s.Ends base t := by
      have hr := Option.some.inj hs
      have hsingle {kind : SectionKind} {broken : Bool} (hr : (⟨kind, l.start, l.stop, broken⟩, ls) = (s, rest))
          (hk : broken = false → kind.Stands base t l.start l.stop) : s.Ends base t := by
        obtain ⟨rfl, -⟩ := Prod.mk.inj hr
        exact ⟨h.ordered.2, h.stops, hk⟩
      have hfirst {r : Section × List Lexeme} (hr : r = (s, rest)) (hends : r.1.Ends base t) : s.Ends base t := by
        rw [hr] at hends
        exact hends
      split at hr
      · exact hsingle hr fun _ => trivial
      · exact hsingle hr fun _ => string_stands h ‹_›
      · exact hsingle hr nofun
      · exact hfirst hr (named_ends h)
      · exact hfirst hr (parenthesized_ends h ‹_›)
      · exact hfirst hr (square_ends h ‹_›)
      · rename_i hl
        split at hr
        · exact hfirst hr (operators_ends h)
        · obtain ⟨rfl, -⟩ := Prod.mk.inj hr
          have hordered := h.ordered
          obtain ⟨hplace, hboundary⟩ := Nesting.group_stop (n := .inside .less) h.rest
          exact ⟨by simp only; omega, hboundary, encloses .angle h hl⟩
      · split at hr
        · exact hfirst hr (operators_ends h)
        · exact hsingle hr fun _ => trivial
    refine ⟨hstart.trans h.start_eq, hends.forward, ?_, hends.stands⟩
    exact .of_boundaries (Nat.le_of_lt hends.forward) (hstart ▸ h.starts) hends.boundary

private theorem first_eq (base : Nat) (a : Bool) (start : Nat) (t : Text) :
    first base a start t = (next (byteLength t) a (lex base start (dropBytes start t))).map Prod.fst := by
  rw [first, ofText]
  cases hnext : next (byteLength t) a (lex base start (dropBytes start t)) with
  | none => rw [all.eq_def, hnext]; rfl
  | some r =>
    rw [all_eq hnext]
    split <;> rfl

/-- There is no section where only blanks are. -/
private theorem first_eq_none_iff (base : Nat) (a : Bool) (start : Nat) (t : Text) :
    first base a start t = none ↔ ∀ c ∈ dropBytes start t, Lexeme.isBlank c := by
  rw [first_eq, Option.map_eq_none_iff, ← Lexeme.lex_eq_nil_iff base start]
  cases lex base start (dropBytes start t) with
  | nil => exact ⟨fun _ => rfl, fun _ => rfl⟩
  | cons l ls => exact ⟨nofun, nofun⟩

private theorem first_lies {a : Bool} {start : Nat} {s : Section} (h : isBoundary start t)
    (hs : first base a start t = some s) :
    s.Lies base t start := by
  rw [first_eq, Option.map_eq_some_iff] at hs
  obtain ⟨⟨s, rest⟩, hnext, rfl⟩ := hs
  exact next_lies ⟨h, rfl⟩ hnext

private theorem all_tiles {a : Bool} (h : Remain base t place ls) : Tiles base t a place (all (byteLength t) a ls) := by
  have hfirst {a : Bool} {ls : List Lexeme} {place : Nat} {s : Section} {rest : List Lexeme}
      (h : Remain base t place ls) (hnext : next (byteLength t) a ls = some (s, rest)) :
      first base a place t = some s := by
    rw [first_eq, h.lexed, hnext]
    rfl
  fun_induction all (byteLength t) a ls generalizing place with
  | case1 a ls hnext =>
    refine .done ?_
    rw [first_eq, h.lexed, hnext]
    rfl
  | case2 a ls s rest hnext hb => exact .broken (hfirst h hnext) (next_lies h hnext) hb
  | case3 a ls s rest hnext hb ih =>
    have hwhole : s.broken = false := Bool.not_eq_true _ ▸ hb
    exact .next (hfirst h hnext) (next_lies h hnext) hwhole (ih (next_reads h hnext hwhole).rest)

/-- What is left behind a place is blanks, the section that is read there, and what is left behind it. -/
private theorem Lies.split {s : Section} (h : s.Lies base t place) (hplace : isBoundary place t) :
    dropBytes place t = (dropBytes place t).takeWhile Lexeme.isBlank ++ slice t s.start s.stop ++ dropBytes s.stop t := by
  have hfront : (dropBytes place t).dropWhile Lexeme.isBlank = dropBytes s.start t := by
    rw [h.start, Text.behindBlanks, ← Text.dropBytes_dropBytes hplace, Text.dropBytes_takeWhile]
  rw [List.append_assoc, ← h.cut.dropBytes_eq, ← hfront, List.takeWhile_append_dropWhile]

private theorem Tiles.spell {a : Bool} {sections : List Section} (h : Tiles base t a place sections)
    (hplace : isBoundary place t) : Spell t (dropBytes place t) sections := by
  have hblank {place : Nat} : ∀ c ∈ (dropBytes place t).takeWhile Lexeme.isBlank, Lexeme.isBlank c :=
    List.all_eq_true.mp List.all_takeWhile
  induction h with
  | done hnone => exact (first_eq_none_iff base _ _ t).mp hnone
  | broken hfirst hlies hb =>
    exact ⟨_, _, hlies.split hplace, hblank, fun hwhole => absurd hwhole (by rw [hb]; nofun)⟩
  | next hfirst hlies hb hrest ih => exact ⟨_, _, hlies.split hplace, hblank, fun _ => ih hlies.cut.stops⟩

/-- The sections of a text from a place on at which it can be cut. There is none exactly where only blanks are; the
first one starts behind the blanks, can be cut out, and has its brackets, its quotes or its arrow where its kind says
unless it is broken; and all of them, read one behind the other, take up the text but for the blanks. -/
theorem ofText_tiles (base : Nat) (a : Bool) {start : Nat} {t : Text} (h : isBoundary start t) :
    (first base a start t = none ↔ ∀ c ∈ dropBytes start t, Lexeme.isBlank c) ∧
      (∀ s, first base a start t = some s → s.Lies base t start) ∧
      Tiles base t a start (ofText base a start t) ∧ Spell t (dropBytes start t) (ofText base a start t) := by
  have htiles : Tiles base t a start (ofText base a start t) := all_tiles ⟨h, rfl⟩
  exact ⟨first_eq_none_iff base a start t, fun s hs => first_lies h hs, htiles, htiles.spell h⟩

/-- Behind a character of two bytes and a blank stands a call with a vector in it. -/
theorem ofText_tiles_of_call :
    let t : Text := "é f(<a>)".toList
    isBoundary 2 t ∧ first 10 false 2 t = some ⟨.call 4, 3, 9, false⟩ ∧ t.Encloses 10 '(' ')' 4 9 ∧
      Tiles 10 t false 2 [⟨.call 4, 3, 9, false⟩] := by
  have hboundary : isBoundary 2 "é f(<a>)".toList := by decide
  have hall : ofText 10 false 2 "é f(<a>)".toList = [⟨.call 4, 3, 9, false⟩] := by with_unfolding_all rfl
  have hfirst : first 10 false 2 "é f(<a>)".toList = some ⟨.call 4, 3, 9, false⟩ := by rw [first, hall]; rfl
  obtain ⟨-, hlies, htiles, -⟩ := ofText_tiles 10 false hboundary
  rw [hall] at htiles
  exact ⟨hboundary, hfirst, ((hlies _ hfirst).stands rfl).2, htiles⟩

end Section
end Reckoner
