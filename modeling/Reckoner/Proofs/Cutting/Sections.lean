import Reckoner.Proofs.Cutting.Boundary
import Reckoner.Proofs.Sections

/-! Sections can be cut out of their text, and so can all that is cut out for them. Read anew from where the one
before it stopped, each section is the same. -/
namespace Reckoner

open Text (IsCut isBoundary byteLength slice)
open Lexeme (Remain)

def SectionKind.Within (t : Text) (start stop : Nat) : SectionKind → Prop
  | .call opening => IsCut t start opening ∧ IsCut t (opening + 1) (stop - 1)
  | .parenthesis | .vector | .string => IsCut t (start + 1) (stop - 1)
  | .square closing base => IsCut t (start + 1) closing ∧ ∀ first ∈ base, 0 < first ∧ IsCut t first stop
  | .function arrow braced => IsCut t start arrow ∧ IsCut t (arrow + 2) stop ∧
      (braced → IsCut t (arrow + 2 + Text.leadingBlank (slice t (arrow + 2) stop) + 1) (stop - 1))
  | .number | .variable | .operators | .undefined => True

namespace Section

structure Reads (base : Nat) (t : Text) (place : Nat) (s : Section) (rest : List Lexeme) : Prop where
  ordered : place ≤ s.start
  forward : s.start < s.stop
  cut : IsCut t s.start s.stop
  parts : s.kind.Within t s.start s.stop
  rest : Remain base t s.stop rest

end Section

namespace Nesting

private theorem isMark_of_feed {n : Nesting} {t : Token} (hn : n.opened ≠ []) (ho : (n.feed t).opened = []) :
    t.isMark := by
  unfold feed at ho
  split at ho
  · exact nomatch ho
  · split at ho
    · rename_i hcloses
      cases t <;> first | rfl | exact nomatch hcloses
    · exact absurd ho hn

/-- A group that is not broken ends with its bracket, behind which the other lexemes are left. -/
theorem group_remain {n : Nesting} (hn : n.opened ≠ []) {base limit place : Nat} {t : Text} {ls : List Lexeme}
    (h : Remain base t place ls) (hb : (n.group limit ls).broken = false) :
    place < (n.group limit ls).stop ∧ isBoundary ((n.group limit ls).stop - 1) t ∧
      Remain base t (n.group limit ls).stop (n.group limit ls).rest := by
  fun_induction group limit n ls generalizing place with
  | case1 => cases hb
  | case2 n l rest next ho =>
    have hstop := h.mark (isMark_of_feed hn (by simpa using ho))
    have hordered := h.ordered
    refine ⟨Nat.lt_of_le_of_lt hordered.1 hordered.2, ?_, h.rest⟩
    rw [hstop]
    exact h.starts
  | case3 n l rest next ho ih =>
    obtain ⟨hplace, hboundary, hrest⟩ := ih (by simpa using ho) h.rest hb
    have hordered := h.ordered
    exact ⟨by omega, hboundary, hrest⟩

/-- The pieces between the separators outside of brackets can be cut out. -/
private theorem split_cuts {n : Nesting} {separator : Token} {base place start : Nat} {t : Text} {ls : List Lexeme}
    (h : Remain base t place ls) (hstart : isBoundary start t) (ho : start ≤ place) :
    ∀ p ∈ n.split separator (byteLength t) start ls, IsCut t p.1 p.2 := by
  induction ls generalizing n place start with
  | nil =>
    intro p hp
    rw [List.mem_singleton.mp hp]
    exact .of_boundaries (Text.le_byteLength_of_isBoundary hstart) hstart (Text.isBoundary_self t)
  | cons l ls ih =>
    have hordered := h.ordered
    intro p hp
    rw [split] at hp
    split at hp
    · rcases List.mem_cons.mp hp with rfl | hp
      · exact .of_boundaries (by omega) hstart h.starts
      · exact ih h.rest h.stops (Nat.le_refl _) p hp
    · exact ih h.rest hstart (by omega) p hp

/-- At the separator that is found the text can be cut. -/
theorem find_boundary {n : Nesting} {separator : Token} {base place : Nat} {t : Text} {ls : List Lexeme}
    (h : Remain base t place ls) :
    place ≤ n.find separator (byteLength t) ls ∧ isBoundary (n.find separator (byteLength t) ls) t := by
  induction ls generalizing n place with
  | nil => exact ⟨Text.le_byteLength_of_isBoundary h.boundary, Text.isBoundary_self t⟩
  | cons l ls ih =>
    have hordered := h.ordered
    rw [find]
    split
    · exact ⟨hordered.1, h.starts⟩
    · obtain ⟨hplace, hboundary⟩ := ih h.rest
      exact ⟨by omega, hboundary⟩

end Nesting

namespace Text

theorem splitOutside_cuts {base : Nat} {separator : Token} {t : Text} :
    ∀ p ∈ splitOutside base separator t, IsCut t p.1 p.2 :=
  Nesting.split_cuts (Remain.all base t) (isBoundary_zero t) (Nat.le_refl 0)

theorem findOutside_boundary (separator : Token) (t : Text) : isBoundary (findOutside separator t) t :=
  (Nesting.find_boundary (Remain.all 10 t)).2

/-- Up to its first lexeme a text is blank. -/
private theorem leadingBlank_slice {base place stop : Nat} {t : Text} {l : Lexeme} {ls : List Lexeme}
    (h : Remain base t place (l :: ls)) (hl : l.token ≠ .stray) (hstop : l.start < stop) :
    place + leadingBlank (slice t place stop) = l.start := by
  obtain ⟨⟨skipped, c, rest, count, hw⟩, -⟩ := h.first
  have hc : isBlank c = false := Bool.eq_false_iff.mpr fun hc => hl (Lexeme.munch_blank hc hw.munch)
  have hskipped : ∀ d ∈ skipped, isBlank d := fun d hd => isBlank_of_lexeme (hw.blank d hd)
  obtain ⟨n, hn⟩ : ∃ n, stop - place = byteLength skipped + (n + 1) := by
    have hstart := hw.start
    exact ⟨stop - place - byteLength skipped - 1, by omega⟩
  rw [slice, hw.text, hn, takeBytes_append, takeBytes, leadingBlank, List.takeWhile_append_of_pos hskipped,
    List.takeWhile_cons_of_neg (by simp [hc]), List.append_nil, hw.start]

end Text

namespace Section

section
variable {base limit place : Nat} {t : Text} {ls rest : List Lexeme} {s : Section}

private theorem reads_of {kind : SectionKind} {start stop : Nat} {broken : Bool} (hplace : place ≤ start)
    (hforward : start < stop) (hstart : isBoundary start t) (hparts : kind.Within t start stop)
    (hrest : Remain base t stop rest) : Reads base t place ⟨kind, start, stop, broken⟩ rest :=
  ⟨hplace, hforward, .of_boundaries (Nat.le_of_lt hforward) hstart hrest.boundary, hparts, hrest⟩

/-- A function whose arrow is the first lexeme that is left behind its parameters. -/
private theorem function_reads {start before : Nat} (hplace : place ≤ start) (hstart : isBoundary start t)
    (hbefore : start ≤ before) {arrow : Lexeme} (harrow : arrow.token = .arrow)
    (h : Remain base t before (arrow :: ls)) (hs : function (byteLength t) start arrow ls = (s, rest))
    (hb : s.broken = false) : s.Reads base t place rest := by
  have hordered := h.ordered
  have hhead : IsCut t start arrow.start := .of_boundaries (by omega) hstart h.starts
  have hbody := h.rest
  rw [h.arrow harrow] at hbody
  have hwhole := Text.le_byteLength_of_isBoundary hbody.boundary
  have hbare (hs : (⟨.function arrow.start false, start, byteLength t, false⟩, []) = (s, rest)) :
      s.Reads base t place rest := by
    obtain ⟨rfl, rfl⟩ := Prod.mk.inj hs
    refine reads_of hplace (by omega) hstart ⟨hhead, ?_, fun h => absurd h Bool.false_ne_true⟩ (.none base t)
    exact .of_boundaries hwhole hbody.boundary (Text.isBoundary_self t)
  unfold function at hs
  split at hs
  · rename_i brace body
    split at hs
    · rename_i hbrace
      obtain ⟨rfl, rfl⟩ := Prod.mk.inj hs
      have hafter := hbody.ordered
      have hopen := hbody.mark (by rw [hbrace]; rfl)
      obtain ⟨hforward, hclose, hremain⟩ := Nesting.group_remain (by simp [Nesting.inside]) hbody.rest hb
      refine reads_of hplace (by omega) hstart ⟨hhead, ?_, fun _ => ?_⟩ hremain
      · exact .of_boundaries (by omega) hbody.boundary hremain.boundary
      · rw [Text.leadingBlank_slice hbody (by simp [hbrace]) (by omega), ← hopen]
        exact .of_boundaries (by omega) hbody.stops hclose
    · exact hbare hs
  · exact hbare hs

/-- The inside of a group behind an opening bracket that is the first lexeme that is left. -/
private theorem group_inside (limit : Nat) (bracket : Token) {first : Lexeme} (h : Remain base t place (first :: ls))
    (hfirst : first.token.isMark) (hb : ((Nesting.inside bracket).group limit ls).broken = false) :
    IsCut t (first.start + 1) (((Nesting.inside bracket).group limit ls).stop - 1) ∧
      first.stop < ((Nesting.inside bracket).group limit ls).stop ∧
      Remain base t ((Nesting.inside bracket).group limit ls).stop ((Nesting.inside bracket).group limit ls).rest := by
  obtain ⟨hforward, hclose, hremain⟩ := Nesting.group_remain (by simp [Nesting.inside]) h.rest hb
  rw [← h.mark hfirst]
  exact ⟨.of_boundaries (by omega) h.stops hclose, hforward, hremain⟩

private theorem named_reads {name : Lexeme} (h : Remain base t place (name :: ls))
    (hs : named (byteLength t) name ls = (s, rest)) (hb : s.broken = false) : s.Reads base t place rest := by
  have hordered := h.ordered
  have hvariable (hs : (⟨.variable, name.start, name.stop, false⟩, ls) = (s, rest)) : s.Reads base t place rest := by
    obtain ⟨rfl, rfl⟩ := Prod.mk.inj hs
    exact reads_of hordered.1 hordered.2 h.starts trivial h.rest
  unfold named at hs
  split at hs
  · rename_i next after
    have hnext := h.rest.ordered
    split at hs
    · rename_i hparen
      obtain ⟨rfl, rfl⟩ := Prod.mk.inj hs
      obtain ⟨hinside, hforward, hremain⟩ := group_inside _ _ h.rest (by rw [adjacent_token hparen]; rfl) hb
      refine reads_of hordered.1 (by omega) h.starts ⟨?_, hinside⟩ hremain
      exact .of_boundaries (by omega) h.starts h.rest.starts
    · split at hs
      · rename_i harrow
        exact function_reads hordered.1 h.starts (Nat.le_of_lt hordered.2) harrow h.rest hs hb
      · exact hvariable hs
  · exact hvariable hs

private theorem parenthesized_reads {first : Lexeme} (h : Remain base t place (first :: ls))
    (hfirst : first.token = .leftParen) (hs : parenthesized (byteLength t) first.start ls = (s, rest))
    (hb : s.broken = false) : s.Reads base t place rest := by
  have hordered := h.ordered
  have hgroup := group_inside (byteLength t) .leftParen h (by rw [hfirst]; rfl)
  have hplain (hs : (⟨.parenthesis, first.start, ((Nesting.inside .leftParen).group (byteLength t) ls).stop,
      ((Nesting.inside .leftParen).group (byteLength t) ls).broken⟩,
        ((Nesting.inside .leftParen).group (byteLength t) ls).rest) = (s, rest)) : s.Reads base t place rest := by
    obtain ⟨rfl, rfl⟩ := Prod.mk.inj hs
    obtain ⟨hinside, hforward, hremain⟩ := hgroup hb
    exact reads_of hordered.1 (by omega) h.starts hinside hremain
  unfold parenthesized at hs
  simp only at hs
  split at hs
  · rename_i next after hafter
    split at hs
    · rename_i harrow
      obtain ⟨hwhole, harrow⟩ : ((Nesting.inside .leftParen).group (byteLength t) ls).broken = false ∧
          next.token = .arrow := by simpa using harrow
      obtain ⟨-, hforward, hremain⟩ := hgroup hwhole
      rw [hafter] at hremain
      exact function_reads hordered.1 h.starts (by omega) harrow hremain hs hb
    · exact hplain hs
  · exact hplain hs

/-- The base behind a bracket group ends where the lexemes behind it are left. -/
private theorem baseGroup_remain (h : Remain base t place ls) (hb : (baseGroup limit place ls).broken = false) :
    place ≤ (baseGroup limit place ls).stop ∧
      Remain base t (baseGroup limit place ls).stop (baseGroup limit place ls).rest := by
  revert hb
  unfold baseGroup
  split
  · rename_i first after
    have hordered := h.ordered
    have hone : place ≤ first.stop := by omega
    split
    · exact fun _ => ⟨hone, h.rest⟩
    · split
      · rename_i next args
        split
        · intro hb
          have hnext := h.rest.ordered
          obtain ⟨hforward, -, hremain⟩ := Nesting.group_remain (by simp [Nesting.inside]) h.rest.rest hb
          exact ⟨by omega, hremain⟩
        · exact fun _ => ⟨hone, h.rest⟩
      · exact fun _ => ⟨hone, h.rest⟩
    · intro hb
      obtain ⟨hforward, -, hremain⟩ := Nesting.group_remain (by simp [Nesting.inside]) h.rest hb
      exact ⟨by omega, hremain⟩
    · exact fun _ => ⟨Nat.le_refl _, h⟩
  · exact fun _ => ⟨Nat.le_refl _, h⟩

private theorem square_reads {first : Lexeme} (h : Remain base t place (first :: ls))
    (hfirst : first.token = .leftBracket)
    (hs : square (byteLength t) first.start ls = (s, rest)) (hb : s.broken = false) : s.Reads base t place rest := by
  have hordered := h.ordered
  have hgroup := group_inside (byteLength t) .leftBracket h (by rw [hfirst]; rfl)
  unfold square at hs
  simp only at hs
  split at hs
  · obtain ⟨rfl, -⟩ := Prod.mk.inj hs
    exact nomatch hb
  · rename_i hwhole
    obtain ⟨hinside, hforward, hremain⟩ := hgroup (Bool.not_eq_true _ ▸ hwhole)
    have hplain (hs : (⟨.square (((Nesting.inside .leftBracket).group (byteLength t) ls).stop - 1) none, first.start,
        ((Nesting.inside .leftBracket).group (byteLength t) ls).stop, false⟩,
          ((Nesting.inside .leftBracket).group (byteLength t) ls).rest) = (s, rest)) : s.Reads base t place rest := by
      obtain ⟨rfl, rfl⟩ := Prod.mk.inj hs
      exact reads_of hordered.1 (by omega) h.starts ⟨hinside, nofun⟩ hremain
    split at hs
    · rename_i next after hafter
      rw [hafter] at hremain
      split at hs
      · obtain ⟨rfl, rfl⟩ := Prod.mk.inj hs
        have hnext := hremain.ordered
        obtain ⟨hbase, hend⟩ := baseGroup_remain hremain.rest hb
        refine reads_of hordered.1 (by omega) h.starts ⟨hinside, fun place hplace => ?_⟩ hend
        obtain rfl := Option.some.inj hplace
        exact ⟨by omega, .of_boundaries hbase hremain.stops hend.boundary⟩
      · exact hplain hs
    · exact hplain hs

/-- What a run of operators leaves stands behind its last lexeme. -/
theorem operators_remain {first : Lexeme} (h : Remain base t place (first :: ls)) :
    first.start < (((ls.takeWhile continuesRun).getLast?).getD first).stop ∧
      Remain base t (((ls.takeWhile continuesRun).getLast?).getD first).stop (ls.dropWhile continuesRun) := by
  induction ls generalizing place first with
  | nil => exact ⟨h.ordered.2, h.rest⟩
  | cons l ls ih =>
    have hordered := h.ordered
    by_cases hl : continuesRun l
    · obtain ⟨hforward, hremain⟩ := ih h.rest
      have hnext := h.rest.ordered
      rw [List.takeWhile_cons_of_pos hl, List.dropWhile_cons_of_pos hl, List.getLast?_cons, Option.getD_some]
      exact ⟨by omega, hremain⟩
    · rw [List.takeWhile_cons_of_neg hl, List.dropWhile_cons_of_neg hl]
      exact ⟨hordered.2, h.rest⟩

/-- A section that is not broken is read behind the lexemes before it. -/
theorem next_reads {a : Bool} (h : Remain base t place ls) (hs : next (byteLength t) a ls = some (s, rest))
    (hb : s.broken = false) : s.Reads base t place rest := by
  cases ls with
  | nil => exact nomatch hs
  | cons first ls =>
    have hordered := h.ordered
    have hs := Option.some.inj hs
    have hsingle {kind : SectionKind} (hs : (⟨kind, first.start, first.stop, false⟩, ls) = (s, rest))
        (hk : kind.Within t first.start first.stop) : s.Reads base t place rest := by
      obtain ⟨rfl, rfl⟩ := Prod.mk.inj hs
      exact reads_of hordered.1 hordered.2 h.starts hk h.rest
    have hoperators (hs : operators first ls = (s, rest)) : s.Reads base t place rest := by
      obtain ⟨rfl, rfl⟩ := Prod.mk.inj hs
      obtain ⟨hforward, hremain⟩ := operators_remain h
      exact reads_of hordered.1 hforward h.starts trivial hremain
    split at hs
    · exact hsingle hs trivial
    · rename_i ht
      exact hsingle hs (h.string ht)
    · obtain ⟨rfl, -⟩ := Prod.mk.inj hs
      exact nomatch hb
    · exact named_reads h hs hb
    · exact parenthesized_reads h ‹_› hs hb
    · exact square_reads h ‹_› hs hb
    · rename_i ht
      split at hs
      · exact hoperators hs
      · obtain ⟨rfl, rfl⟩ := Prod.mk.inj hs
        obtain ⟨hinside, hforward, hremain⟩ := group_inside _ _ h (by rw [ht]; rfl) hb
        exact reads_of hordered.1 (by omega) h.starts hinside hremain
    · split at hs
      · exact hoperators hs
      · exact hsingle hs trivial

/-- All sections of the lexemes that are left can be cut out, up to a broken one. -/
private theorem all_within {a : Bool} (h : Remain base t place ls) :
    ∀ s ∈ all (byteLength t) a ls, s.broken = false →
      IsCut t s.start s.stop ∧ s.kind.Within t s.start s.stop := by
  fun_induction all (byteLength t) a ls generalizing place with
  | case1 => exact nofun
  | case2 a ls first rest hnext hb =>
    intro s hs hwhole
    rw [List.mem_singleton.mp hs, hb] at hwhole
    exact nomatch hwhole
  | case3 a ls first rest hnext hb ih =>
    have hfirst := next_reads h hnext (Bool.not_eq_true _ ▸ hb)
    intro s hs
    rcases List.mem_cons.mp hs with rfl | hs
    · exact fun _ => ⟨hfirst.cut, hfirst.parts⟩
    · exact ih hfirst.rest s hs

/-- All sections of the lexemes that are left start within the text, a broken one too. -/
private theorem all_starts {a : Bool} (h : Remain base t place ls) :
    ∀ s ∈ all (byteLength t) a ls, s.start ≤ byteLength t := by
  have hfirst {a : Bool} {ls rest : List Lexeme} {s : Section} {place : Nat} (h : Remain base t place ls)
      (hnext : next (byteLength t) a ls = some (s, rest)) : s.start ≤ byteLength t := by
    cases ls with
    | nil => exact nomatch hnext
    | cons l ls => exact next_start hnext ▸ Text.le_byteLength_of_isBoundary h.starts
  fun_induction all (byteLength t) a ls generalizing place with
  | case1 => exact nofun
  | case2 a ls first rest hnext hb => exact List.forall_mem_singleton.mpr (hfirst h hnext)
  | case3 a ls first rest hnext hb ih =>
    have hrest := (next_reads h hnext (Bool.not_eq_true _ ▸ hb)).rest
    exact List.forall_mem_cons.mpr ⟨hfirst h hnext, ih hrest⟩

end

theorem ofText_within {base : Nat} {t : Text} {s : Section} (hs : s ∈ ofText base false 0 t) (hb : s.broken = false) :
    IsCut t s.start s.stop ∧ s.kind.Within t s.start s.stop :=
  all_within (Remain.all base t) s (by rwa [ofText, Text.dropBytes] at hs) hb

theorem ofText_starts {base : Nat} {t : Text} : ∀ s ∈ ofText base false 0 t, s.start ≤ byteLength t := by
  rw [ofText, Text.dropBytes]
  exact all_starts (Remain.all base t)

end Section

/-- Behind the bracket that a text starts with, its group has an inside. -/
theorem Text.groupEnd_cut {c : Char} {t : Text} {stop : Nat} (hc : c.utf8Size = 1)
    (h : groupEnd (c :: t) = some stop) : IsCut (c :: t) 1 (stop - 1) ∧ isBoundary stop (c :: t) ∧ 0 < stop := by
  have hone : isBoundary 1 (c :: t) := by
    have hfirst := isBoundary_byteLength [c] t
    rwa [byteLength_cons, byteLength_nil, hc] at hfirst
  unfold groupEnd at h
  have hall := Remain.all 10 (c :: t)
  split at h
  · exact nomatch h
  · rename_i first rest hlex
    rw [hlex] at hall
    obtain ⟨closer, hcloser, hgroup⟩ := Option.bind_eq_some_iff.mp h
    have hmark : first.token.isMark := by
      cases hf : first.token <;> first | rfl | simp [hf, Token.closer] at hcloser
    simp only at hgroup
    split at hgroup
    · exact nomatch hgroup
    · rename_i hb
      obtain ⟨hinside, hforward, hremain⟩ := Section.group_inside _ _ hall hmark (Bool.not_eq_true _ ▸ hb)
      rw [Option.some.inj hgroup] at hinside hforward hremain
      have hordered := hinside.ordered
      exact ⟨.of_boundaries (by omega) hone hinside.stops, hremain.boundary, by omega⟩

namespace Checked

/-- The sections from the byte `cursor` on, where the text is cut for each of them and lexed anew. There are none
when it cannot be cut there, or when a section does not lead forward within the text. -/
def sections (base : Nat) (t : Text) (afterOperand : Bool) (cursor : Nat) : Option (List Section) :=
  if isBoundary cursor t then
    match Section.next (byteLength t) afterOperand (Lexeme.lex base cursor (Text.dropBytes cursor t)) with
    | none => some []
    | some (first, _) =>
      if first.broken then some [first]
      else if _ : cursor < first.stop ∧ first.stop ≤ byteLength t then
        (first :: ·) <$> sections base t (first.kind ≠ .operators) first.stop
      else none
  else none
termination_by byteLength t - cursor

/-- The sections of a text are the same when the text is cut and lexed anew for each of them. -/
theorem sections_eq {base : Nat} {t : Text} {a : Bool} {cursor : Nat} (h : isBoundary cursor t) :
    sections base t a cursor = some (Section.ofText base a cursor t) := by
  fun_induction sections base t a cursor with
  | case1 a cursor _ hnext =>
    rw [Section.ofText, Section.all.eq_def, hnext]
  | case2 a cursor _ first rest hnext hb =>
    rw [Section.ofText, Section.all_eq hnext, if_pos hb]
  | case3 a cursor _ first rest hnext hb hforward ih =>
    have hfirst := Section.next_reads ⟨h, rfl⟩ hnext (Bool.not_eq_true _ ▸ hb)
    have hrest : Section.all (byteLength t) (first.kind ≠ .operators) rest =
        Section.ofText base (first.kind ≠ .operators) first.stop t := by
      rw [Section.ofText, hfirst.rest.lexed]
    have hall : Section.ofText base a cursor t =
        first :: Section.ofText base (first.kind ≠ .operators) first.stop t := by
      rw [← hrest]
      exact (Section.all_eq hnext).trans (if_neg hb)
    rw [ih hfirst.rest.boundary, hall]
    rfl
  | case4 a cursor _ first rest hnext hb hforward =>
    have hfirst := Section.next_reads ⟨h, rfl⟩ hnext (Bool.not_eq_true _ ▸ hb)
    have hordered := hfirst.ordered
    have hstop := hfirst.forward
    exact absurd ⟨by omega, hfirst.cut.within⟩ hforward
  | case5 a cursor hno => exact absurd h hno

end Checked
end Reckoner
