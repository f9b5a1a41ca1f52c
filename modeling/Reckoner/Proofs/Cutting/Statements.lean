import Reckoner.Proofs.Cutting.Sections

/-! Statements read with a check at every cut. The checks never fail: each statement takes up a part of what is
left of the text, and its expressions and bodies can be cut out of the whole. -/
namespace Reckoner

open Text (IsCut isBoundary byteLength dropBytes slice)
open Lexeme (Remain)

namespace Checked

def drop (n : Nat) (t : Text) : Option Text := if isBoundary n t then some (dropBytes n t) else none

def cut (t : Text) (start stop : Nat) : Option Text :=
  if IsCut t start stop then some (slice t start stop) else none

def word (t : Text) : Option (Option Text) :=
  match Lexeme.lex 10 0 t with
  | ⟨.identifier, start, stop⟩ :: _ => some <$> cut t start stop
  | _ => some none

/-- A body; one without braces is parsed from the byte before it on, so there must be one. -/
def readBody (start : Nat) (t : Text) : Option (Body × Nat) := do
  let blank := Text.leadingBlank t
  let start := start + blank
  let t ← drop blank t
  match t with
  | [] => return (.missing start, start)
  | c :: _ =>
    if c = '\x7b' then
      match Text.groupEnd t with
      | some stop => return (.braced start (start + stop), start + stop)
      | none => return (.unclosed start, start + byteLength t)
    else if 0 < start then
      let stop := start + Text.findOutside .semicolon t
      return (.bare start stop, stop)
    else none

def readConditional (loops : Bool) (start : Nat) (t : Text) : Option (Statement × Nat) := do
  let blank := Text.leadingBlank t
  let start := start + blank
  let t ← drop blank t
  let failed (condition : Condition) := (Statement.conditional loops condition (.missing start), start + byteLength t)
  if t.head? ≠ some '(' then return failed (.noParenthesis (Text.firstWord t) start)
  else match Text.groupEnd t with
    | none => return failed (.unclosed start)
    | some stop =>
      let (body, last) ← readBody (start + stop) (← drop stop t)
      return (.conditional loops (.closed start (start + stop)) body, last)

/-- A statement up to the next semicolon, all of which behind the first `skip` bytes is cut out. -/
def upToSemicolon (start skip : Nat) (t : Text) : Option (Nat × Nat) := do
  let found := Text.findOutside .semicolon (← drop skip t)
  let _ ← cut t skip (skip + found)
  return (start + skip, start + skip + found)

/-- The statement at the start of a text. An `else` behind an `if` is read in what is strictly less text. -/
def readFirst (start : Nat) (t : Text) : Option (Statement × Nat) := do
  match ← word t with
  | none =>
    let (first, stop) ← upToSemicolon start 0 t
    return (.expression first stop, stop)
  | some name =>
    let size := byteLength name
    if name = "if".toList then readConditional false (start + size) (← drop size t)
    else if name = "while".toList then readConditional true (start + size) (← drop size t)
    else if name = "else".toList then
      let behind ← drop 4 t
      let skip := 4 + Text.leadingBlank behind
      if (← word (← drop skip t)) = some "if".toList then
        let (first, stop) ← readConditional false (start + skip + 2) (← drop (skip + 2) t)
        let skip := stop - start
        let skip := skip + Statement.separators (← drop skip t)
        let rest ← drop skip t
        if (← word rest) = some "else".toList then
          if _ : rest.length < t.length then
            let (alternative, stop) ← readFirst (start + skip) rest
            return (.otherwiseIf start first (some alternative), stop)
          else none
        else return (.otherwiseIf start first none, stop)
      else
        let (body, stop) ← readBody (start + 4) behind
        return (.otherwise start body, stop)
    else if name = "return".toList then
      let (first, stop) ← upToSemicolon start size t
      return (.giveBack first stop, stop)
    else if name = "break".toList ∨ name = "continue".toList then
      let (first, stop) ← upToSemicolon start size t
      return (.jump (name = "break".toList) start first stop, stop)
    else match Statement.assignment? (← drop size t) with
      | some value =>
        let (first, stop) ← upToSemicolon start (size + value) t
        return (.assign name start first stop, stop)
      | none =>
        let (first, stop) ← upToSemicolon start 0 t
        return (.expression first stop, stop)
termination_by t.length

/-- The statements of a text, each of which leaves strictly less of the text behind it. -/
def readAll (start : Nat) (t : Text) : Option (List (Nat × Statement)) := do
  let first := start + Statement.separators t
  let rest ← drop (Statement.separators t) t
  if rest = [] then return []
  else
    let (statement, stop) ← readFirst first rest
    let size := stop - first
    let behind ← drop size rest
    if _ : behind.length < rest.length ∧ rest.length ≤ t.length then
      return (first, statement) :: (← readAll (first + size) behind)
    else none
termination_by t.length

end Checked

def Body.Within (t : Text) : Body → Prop
  | .missing place | .unclosed place => place ≤ byteLength t
  | .braced brace stop => IsCut t (brace + 1) (stop - 1)
  | .bare start stop => 0 < start ∧ IsCut t start stop

def Condition.Within (t : Text) : Condition → Prop
  | .noParenthesis found place => t.At place found
  | .unclosed parenthesis => parenthesis ≤ byteLength t
  | .closed parenthesis stop => IsCut t (parenthesis + 1) (stop - 1)

def Statement.Within (t : Text) : Statement → Prop
  | .expression start stop | .giveBack start stop => IsCut t start stop
  | .jump _ start rest stop | .assign _ start rest stop => start ≤ byteLength t ∧ IsCut t rest stop
  | .conditional _ head code => head.Within t ∧ code.Within t
  | .otherwise start code => start ≤ byteLength t ∧ code.Within t
  | .otherwiseIf start first none => start ≤ byteLength t ∧ first.Within t
  | .otherwiseIf start first (some second) => start ≤ byteLength t ∧ first.Within t ∧ second.Within t

namespace Text

structure Behind (whole : Text) (start : Nat) (t : Text) : Prop where
  boundary : isBoundary start whole
  text : dropBytes start whole = t

/-- A place behind `start`, which is where the text starts, at which it can be cut. -/
def Reaches (start : Nat) (t : Text) (stop : Nat) : Prop := ∃ n, stop = start + n ∧ isBoundary n t

variable {whole t : Text} {start n stop : Nat}

theorem Behind.self (t : Text) : Behind t 0 t := ⟨isBoundary_zero t, by rw [dropBytes]⟩

private theorem Behind.le (h : Behind whole start t) :
    start ≤ byteLength whole := le_byteLength_of_isBoundary h.boundary

theorem Behind.at (h : Behind whole start t) : whole.At start t := by
  obtain ⟨hstart, rfl⟩ := h
  obtain ⟨before, after, rfl, rfl⟩ := exists_of_isBoundary hstart
  rw [dropBytes_byteLength]
  exact ⟨before, [], (List.append_nil _).symm, rfl⟩

theorem Behind.drop (h : Behind whole start t) (hn : isBoundary n t) :
    Behind whole (start + n) (dropBytes n t) := by
  obtain ⟨hstart, rfl⟩ := h
  rw [isBoundary_dropBytes hstart] at hn
  exact ⟨hn, (dropBytes_dropBytes hstart n).symm⟩

private theorem Behind.cut {p q : Nat} (h : Behind whole start t) (hcut : IsCut t p q) :
    IsCut whole (start + p) (start + q) := by
  obtain ⟨hstart, rfl⟩ := h
  have hp := hcut.starts
  have hq := hcut.stops
  rw [isBoundary_dropBytes hstart] at hp hq
  exact .of_boundaries (Nat.add_le_add_left hcut.ordered start) hp hq

theorem Reaches.drop (hn : isBoundary n t) (h : Reaches (start + n) (dropBytes n t) stop) :
    Reaches start t stop ∧ start + n ≤ stop := by
  obtain ⟨m, rfl, hm⟩ := h
  rw [isBoundary_dropBytes hn] at hm
  exact ⟨⟨n + m, Nat.add_assoc _ _ _, hm⟩, Nat.le_add_right _ _⟩

private theorem Reaches.boundary (h : Reaches start t stop) : isBoundary (stop - start) t := by
  obtain ⟨n, rfl, hn⟩ := h
  rwa [Nat.add_sub_cancel_left]

theorem isBoundary_leadingBlank (t : Text) : isBoundary (leadingBlank t) t := isBoundary_takeWhile _ t

private theorem head?_behindBlank (t : Text) : ∀ c ∈ (dropBytes (leadingBlank t) t).head?, isBlank c = false := by
  intro c hc
  rw [leadingBlank, dropBytes_takeWhile] at hc
  have hnot := List.head?_dropWhile_not isBlank t
  rwa [Option.mem_def.mp hc] at hnot

/-- The first word of a text that starts with no blank starts the text. -/
private theorem firstWord_append (h : ∀ c ∈ t.head?, isBlank c = false) : ∃ behind, t = firstWord t ++ behind := by
  refine ⟨t.dropWhile (!isBlank ·), ?_⟩
  have htrimmed : trimStart t = t := by
    cases t with
    | nil => rfl
    | cons c t => rw [trimStart, List.dropWhile_cons_of_neg (by simp [h c rfl])]
  rw [firstWord, htrimmed, List.takeWhile_append_dropWhile]

private theorem isBoundary_separators (t : Text) : isBoundary (Statement.separators t) t := isBoundary_takeWhile _ t

end Text

namespace Statement
open Text (Behind Reaches)

variable {whole t : Text} {start stop : Nat}

/-- A body is read from the text behind its start. -/
theorem readBody_within (h : Behind whole start t) (hstart : 0 < start) :
    (readBody start t).1.Within whole ∧ Reaches start t (readBody start t).2 := by
  have hblank := Text.isBoundary_leadingBlank t
  have hbehind := h.drop hblank
  have hreach {n : Nat} (hn : isBoundary n (dropBytes (Text.leadingBlank t) t)) :
      Reaches start t (start + Text.leadingBlank t + n) :=
    (Reaches.drop hblank ⟨n, rfl, hn⟩).1
  unfold readBody
  simp only
  generalize dropBytes (Text.leadingBlank t) t = u at hbehind hreach
  cases u with
  | nil => exact ⟨hbehind.le, hreach (Text.isBoundary_zero _)⟩
  | cons c u =>
    simp only
    split
    · rename_i hc
      subst hc
      split
      · rename_i stop hgroup
        obtain ⟨hinside, hstop, hpos⟩ := Text.groupEnd_cut rfl hgroup
        have hcut := hbehind.cut hinside
        rw [← Nat.add_sub_assoc hpos] at hcut
        exact ⟨hcut, hreach hstop⟩
      · exact ⟨hbehind.le, hreach (Text.isBoundary_self _)⟩
    · have hfound := Text.findOutside_boundary .semicolon (c :: u)
      have hcut := hbehind.cut (.upTo hfound)
      exact ⟨⟨by omega, hcut⟩, hreach hfound⟩

private theorem readConditional_within (h : Behind whole start t) (loops : Bool) :
    (readConditional loops start t).1.Within whole ∧ Reaches start t (readConditional loops start t).2 := by
  have hblank := Text.isBoundary_leadingBlank t
  have hbehind := h.drop hblank
  have hreach {stop : Nat} (hstop : Reaches (start + Text.leadingBlank t) (dropBytes (Text.leadingBlank t) t) stop) :
      Reaches start t stop := (Reaches.drop hblank hstop).1
  have hhead := Text.head?_behindBlank t
  unfold readConditional
  simp only
  generalize dropBytes (Text.leadingBlank t) t = u at hbehind hreach hhead
  split
  · obtain ⟨behind, hword⟩ := Text.firstWord_append hhead
    have hat := hbehind.at
    rw [hword] at hat
    exact ⟨⟨hat.left, hbehind.le⟩, hreach ⟨_, rfl, Text.isBoundary_self u⟩⟩
  · rename_i hhead
    cases u with
    | nil => exact absurd nofun hhead
    | cons c u =>
      obtain rfl : c = '(' := by simpa using hhead
      split
      · exact ⟨⟨hbehind.le, hbehind.le⟩, hreach ⟨_, rfl, Text.isBoundary_self _⟩⟩
      · rename_i stop hgroup
        obtain ⟨hinside, hstop, hpos⟩ := Text.groupEnd_cut rfl hgroup
        have hcut := hbehind.cut hinside
        rw [← Nat.add_sub_assoc hpos] at hcut
        obtain ⟨hbody, hlast⟩ := readBody_within (hbehind.drop hstop) (by omega)
        exact ⟨⟨hcut, hbody⟩, hreach (Reaches.drop hstop hlast).1⟩

def Ready (t : Text) : Prop := ∀ c ∈ t.head?, Text.isBlank c = false ∧ c ≠ ';'

theorem ready_dropBytes (t : Text) : Ready (dropBytes (separators t) t) := by
  intro c hc
  rw [separators, Text.dropBytes_takeWhile] at hc
  have hnot := List.head?_dropWhile_not (fun c => Text.isBlank c || c == ';') t
  rw [Option.mem_def.mp hc] at hnot
  simpa using hnot

/-- The first lexeme of a text that starts with no blank starts with it. -/
theorem first_of_head {l : Lexeme} {ls : List Lexeme} (ht : ∀ c ∈ t.head?, Text.isBlank c = false)
    (h : Lexeme.lex 10 0 t = l :: ls) :
    ∃ c rest count, t = c :: rest ∧ Lexeme.munch 10 c rest = (some l.token, count) ∧ l.start = 0 ∧
      l.stop = byteLength (c :: rest.take count) := by
  obtain ⟨skipped, c, rest, count, htext, hblank, hm, hstart, hstop, -⟩ := Lexeme.lex_eq_cons h
  cases skipped with
  | nil =>
    rw [hstart] at hstop
    exact ⟨c, rest, count, htext, hm, hstart, by simpa using hstop⟩
  | cons d skipped =>
    have hd := ht d (by rw [htext]; rfl)
    rw [Text.isBlank_of_lexeme (hblank d List.mem_cons_self)] at hd
    exact nomatch hd

/-- The word that a text starts with is a part of it. -/
private theorem word?_boundary {name : Text} (ht : ∀ c ∈ t.head?, Text.isBlank c = false) (h : word? t = some name) :
    isBoundary (byteLength name) t ∧ 0 < byteLength name := by
  unfold word? at h
  split at h
  · rename_i start stop ls hlex
    obtain ⟨c, rest, count, htext, -, hstart, hstop⟩ := first_of_head ht hlex
    simp only at hstart hstop
    have hwhole : t = (c :: rest.take count) ++ rest.drop count := by
      rw [htext, List.cons_append, List.take_append_drop]
    rw [hstart, hstop, hwhole, Text.slice_front] at h
    obtain rfl := Option.some.inj h
    refine ⟨?_, ?_⟩
    · conv => arg 1; arg 2; rw [hwhole]
      exact Text.isBoundary_byteLength _ _
    · rw [Text.byteLength_cons]
      exact Nat.lt_of_lt_of_le c.utf8Size_pos (Nat.le_add_right _ _)
  · exact nomatch h

/-- A statement does not end where it starts. -/
private theorem Ready.findOutside_pos (ht : Ready t) (hne : t ≠ []) : 0 < Text.findOutside .semicolon t := by
  have hlength : 0 < byteLength t := Nat.pos_of_ne_zero fun h => hne (Text.eq_nil_of_byteLength h)
  unfold Text.findOutside
  have hall := Remain.all 10 t
  cases hlex : Lexeme.lex 10 0 t with
  | nil => exact hlength
  | cons l ls =>
    rw [hlex] at hall
    obtain ⟨c, rest, count, rfl, hm, -, -⟩ := first_of_head (fun c hc => (ht c hc).1) hlex
    have hno : l.token ≠ .semicolon := by
      intro hl
      rw [hl] at hm
      obtain ⟨hsingle, -⟩ := Lexeme.munch_mark hm rfl
      exact (ht c rfl).2 (Lexeme.eq_of_single hsingle rfl)
    have hordered := hall.ordered
    have hfind : l.stop ≤ (Nesting.outside.feed l.token).find .semicolon (byteLength (c :: rest)) ls :=
      (Nesting.find_boundary hall.rest).1
    rw [Nesting.find, if_neg (by simp [hno])]
    omega

/-- Behind an `else` and the blanks after it the text can be cut, and so it can behind an `if` there. -/
private theorem elseIf_boundary (hfour : isBoundary 4 t) :
    isBoundary (4 + Text.leadingBlank (dropBytes 4 t)) t ∧
      (word? (dropBytes (4 + Text.leadingBlank (dropBytes 4 t)) t) = some "if".toList →
        isBoundary (4 + Text.leadingBlank (dropBytes 4 t) + 2) t) := by
  have hskip : isBoundary (4 + Text.leadingBlank (dropBytes 4 t)) t := by
    rw [← Text.isBoundary_dropBytes hfour]
    exact Text.isBoundary_leadingBlank _
  refine ⟨hskip, fun hif => ?_⟩
  have hblank : ∀ c ∈ (dropBytes (4 + Text.leadingBlank (dropBytes 4 t)) t).head?, Text.isBlank c = false := by
    rw [← Text.dropBytes_dropBytes hfour]
    exact Text.head?_behindBlank _
  have hlength : byteLength "if".toList = 2 := rfl
  have hword := (word?_boundary hblank hif).1
  rwa [hlength, Text.isBoundary_dropBytes hskip] at hword

/-- Behind a statement and the separators after it the next one may start. -/
private theorem next_ready {n : Nat} (hn : isBoundary n t) :
    isBoundary (n + separators (dropBytes n t)) t ∧ Ready (dropBytes (n + separators (dropBytes n t)) t) := by
  constructor
  · rw [← Text.isBoundary_dropBytes hn]
    exact Text.isBoundary_separators _
  · rw [← Text.dropBytes_dropBytes hn]
    exact ready_dropBytes _

private theorem assignment?_boundary {value : Nat} (h : assignment? t = some value) : isBoundary value t := by
  unfold assignment? at h
  split at h
  · rename_i start stop ls hlex
    have hall := Remain.all 10 t
    rw [hlex] at hall
    exact Option.some.inj h ▸ hall.stops
  · exact nomatch h

/-- Up to the next semicolon all can be cut out behind the first bytes. -/
private theorem upToSemicolon_within (h : Behind whole start t) {skip : Nat} (hskip : isBoundary skip t) :
    IsCut whole (upToSemicolon start skip t).1 (upToSemicolon start skip t).2 ∧
      Reaches start t (upToSemicolon start skip t).2 ∧ start + skip ≤ (upToSemicolon start skip t).2 := by
  have hfound := Text.findOutside_boundary .semicolon (dropBytes skip t)
  have hcut := (h.drop hskip).cut (.upTo hfound)
  exact ⟨hcut, Reaches.drop hskip ⟨_, rfl, hfound⟩⟩

end Statement

namespace Checked
open Text (Behind Reaches)

variable {whole t : Text} {start n skip stop : Nat}

private theorem drop_eq (h : isBoundary n t) : drop n t = some (dropBytes n t) := if_pos h

private theorem cut_eq (h : IsCut t start stop) : cut t start stop = some (slice t start stop) := if_pos h

private theorem word_eq (t : Text) : word t = some (Statement.word? t) := by
  have hall := Remain.all 10 t
  unfold word Statement.word?
  generalize Lexeme.lex 10 0 t = ls at hall
  rcases ls with _ | ⟨⟨token, start, stop⟩, ls⟩
  · rfl
  · have hcut : IsCut t start stop := hall.cut
    cases token with
    | identifier => exact congrArg (some <$> ·) (cut_eq hcut)
    | _ => rfl

private theorem readBody_eq (hstart : 0 < start) (t : Text) : readBody start t = some (Statement.readBody start t) := by
  unfold readBody Statement.readBody
  simp only [drop_eq (Text.isBoundary_leadingBlank t), Option.bind_eq_bind, Option.bind_some]
  generalize dropBytes (Text.leadingBlank t) t = u
  cases u with
  | nil => rfl
  | cons c u =>
    have hbody : 0 < start + Text.leadingBlank t := by omega
    simp only [if_pos hbody]
    split
    · cases Text.groupEnd (c :: u) <;> rfl
    · rfl

private theorem readConditional_eq (loops : Bool) (start : Nat) (t : Text) :
    readConditional loops start t = some (Statement.readConditional loops start t) := by
  unfold readConditional Statement.readConditional
  simp only [drop_eq (Text.isBoundary_leadingBlank t), Option.bind_eq_bind, Option.bind_some]
  generalize dropBytes (Text.leadingBlank t) t = u
  split
  · rfl
  · rename_i hhead
    cases u with
    | nil => exact absurd (Option.some_ne_none '(').symm hhead
    | cons c u =>
      obtain rfl : c = '(' := by simpa using hhead
      cases hgroup : Text.groupEnd ('(' :: u) with
      | none => rfl
      | some stop =>
        obtain ⟨-, hstop, hpos⟩ := Text.groupEnd_cut rfl hgroup
        have hbody : 0 < start + Text.leadingBlank t + stop := by omega
        simp only [drop_eq hstop, readBody_eq hbody, Option.bind_some]
        rfl

private theorem upToSemicolon_eq (hskip : isBoundary skip t) (start : Nat) :
    upToSemicolon start skip t = some (Statement.upToSemicolon start skip t) := by
  have hcut : IsCut t skip (skip + Text.findOutside .semicolon (dropBytes skip t)) :=
    .of_boundaries (Nat.le_add_right _ _) hskip (by
      rw [← Text.isBoundary_dropBytes hskip]
      exact Text.findOutside_boundary .semicolon _)
  unfold upToSemicolon Statement.upToSemicolon
  simp only [drop_eq hskip, cut_eq hcut, Option.bind_eq_bind, Option.bind_some]
  rfl

end Checked

namespace Statement
open Text (Behind Reaches)

/-- The checked reading finds the statement too. It takes up a part of the text, and what it consists of can be
cut out of the whole. -/
structure Checks (whole : Text) (start : Nat) (t : Text) (checked : Option (Statement × Nat))
    (r : Statement × Nat) : Prop where
  same : checked = some r
  within : r.1.Within whole
  reaches : Reaches start t r.2
  forward : start < r.2

section
variable {whole t : Text} {start n skip : Nat}

private theorem Checks.ite {c : Prop} [Decidable c] {checked checked' : Option (Statement × Nat)}
    {r r' : Statement × Nat}
    (h : c → Checks whole start t checked r) (h' : ¬c → Checks whole start t checked' r') :
    Checks whole start t (if c then checked else checked') (if c then r else r') := by
  by_cases hc : c
  · rw [if_pos hc, if_pos hc]
    exact h hc
  · rw [if_neg hc, if_neg hc]
    exact h' hc

/-- A condition and a body behind a word. -/
private theorem conditional_checks (h : Behind whole start t) (loops : Bool) (hn : isBoundary n t) (hpos : 0 < n) :
    Checks whole start t ((Checked.drop n t).bind fun u => Checked.readConditional loops (start + n) u)
      (readConditional loops (start + n) (dropBytes n t)) := by
  obtain ⟨hwithin, hreaches⟩ := readConditional_within (h.drop hn) loops
  obtain ⟨hwhole, hforward⟩ := Reaches.drop hn hreaches
  refine ⟨?_, hwithin, hwhole, by omega⟩
  rw [Checked.drop_eq hn, Option.bind_some, Checked.readConditional_eq]

/-- A statement up to the next semicolon. -/
private theorem upToSemicolon_checks (h : Behind whole start t) (hskip : isBoundary skip t)
    (hforward : start < (upToSemicolon start skip t).2) (make : Nat → Nat → Statement)
    (hmake : ∀ first stop, IsCut whole first stop → (make first stop).Within whole) :
    Checks whole start t ((Checked.upToSemicolon start skip t).bind fun r => pure (make r.1 r.2, r.2))
      (make (upToSemicolon start skip t).1 (upToSemicolon start skip t).2, (upToSemicolon start skip t).2) := by
  obtain ⟨hcut, hreaches, -⟩ := upToSemicolon_within h hskip
  refine ⟨?_, hmake _ _ hcut, hreaches, hforward⟩
  rw [Checked.upToSemicolon_eq hskip, Option.bind_some]
  rfl

end

/-- The statement that a text starts with. -/
theorem readFirst_checks {whole t : Text} {start : Nat} (h : Behind whole start t) (ht : Ready t) (hne : t ≠ []) :
    Checks whole start t (Checked.readFirst start t) (readFirst start t) := by
  have hhead : ∀ c ∈ t.head?, Text.isBlank c = false := fun c hc => (ht c hc).1
  have hfound : 0 < Text.findOutside .semicolon (dropBytes 0 t) := by
    rw [dropBytes]
    exact ht.findOutside_pos hne
  have hexpression := upToSemicolon_checks h (Text.isBoundary_zero t) (Nat.lt_add_of_pos_right hfound) .expression
    fun _ _ hcut => hcut
  -- the cases are those of the word that the text starts with
  rw [Checked.readFirst, readFirst, Checked.word_eq]
  cases hword : word? t with
  | none => exact hexpression
  | some name =>
    obtain ⟨hsize, hpos⟩ := word?_boundary hhead hword
    have hbehind (make : Nat → Nat → Statement)
        (hmake : ∀ first stop, IsCut whole first stop → (make first stop).Within whole) {skip : Nat}
        (hskip : isBoundary skip t) (hle : byteLength name ≤ skip) :=
      upToSemicolon_checks h hskip (Nat.lt_of_lt_of_le (by omega) (upToSemicolon_within h hskip).2.2) make hmake
    simp only [Option.bind_eq_bind, Option.bind_some]
    refine .ite (fun _ => conditional_checks h false hsize hpos) fun _ => ?_
    refine .ite (fun _ => conditional_checks h true hsize hpos) fun _ => ?_
    refine .ite (fun helse => ?_) fun _ => ?_
    · have hfour : isBoundary 4 t := by
        have hlength : byteLength "else".toList = 4 := rfl
        rwa [helse, hlength] at hsize
      obtain ⟨hskip, hcondition⟩ := elseIf_boundary hfour
      rw [Checked.drop_eq hfour, Option.bind_some]
      simp only [Checked.drop_eq hskip, Option.bind_some, Checked.word_eq]
      refine .ite (fun hif => ?_) fun _ => ?_
      · have hleast : 4 ≤ 4 + Text.leadingBlank (dropBytes 4 t) := Nat.le_add_right _ _
        replace hcondition := hcondition hif
        generalize 4 + Text.leadingBlank (dropBytes 4 t) = skip at hskip hcondition hleast
        obtain ⟨hwithin, hreaches⟩ := readConditional_within (h.drop hcondition) false
        obtain ⟨hreaches, hforward⟩ := Reaches.drop hcondition hreaches
        rw [← Nat.add_assoc] at hwithin hreaches hforward
        simp only [Checked.drop_eq hcondition, Option.bind_some, Checked.readConditional_eq]
        generalize readConditional false (start + skip + 2) (dropBytes (skip + 2) t) = r at hwithin hreaches hforward
        have hstop := hreaches.boundary
        obtain ⟨hnext, hready⟩ := next_ready hstop
        -- the conditional ends behind its `if`, so it always takes up more than the `else`
        have hmax : max 4 (r.2 - start) = r.2 - start := by omega
        simp only [hmax, Checked.drop_eq hstop, Checked.drop_eq hnext, Option.bind_some]
        have hlater : 0 < r.2 - start + separators (dropBytes (r.2 - start) t) := by omega
        generalize r.2 - start + separators (dropBytes (r.2 - start) t) = next at hnext hready hlater
        by_cases hagain : word? (dropBytes next t) = some "else".toList
        · have hless := Text.length_dropBytes_lt hlater hne
          have hrest : dropBytes next t ≠ [] := by
            intro hnil
            simp [hnil, word?, Lexeme.lex] at hagain
          have hsecond := readFirst_checks (h.drop hnext) hready hrest
          obtain ⟨hreaches', hforward'⟩ := Reaches.drop hnext hsecond.reaches
          rw [if_pos hagain, dif_pos hless, dif_pos ⟨hne, hlater, hagain⟩, hsecond.same]
          exact ⟨rfl, ⟨h.le, hwithin, hsecond.within⟩, hreaches', by simp only; omega⟩
        · rw [if_neg hagain, dif_neg fun hall => hagain hall.2.2]
          exact ⟨rfl, ⟨h.le, hwithin⟩, hreaches, by simp only; omega⟩
      · obtain ⟨hwithin, hreaches⟩ := readBody_within (h.drop hfour) (by omega)
        obtain ⟨hreaches, hforward⟩ := Reaches.drop hfour hreaches
        rw [Checked.readBody_eq (by omega)]
        exact ⟨rfl, ⟨h.le, hwithin⟩, hreaches, by simp only; omega⟩
    refine .ite (fun _ => hbehind .giveBack (fun _ _ hcut => hcut) hsize (Nat.le_refl _)) fun _ => ?_
    refine .ite (fun _ => hbehind (.jump _ start) (fun _ _ hcut => ⟨h.le, hcut⟩) hsize (Nat.le_refl _)) fun _ => ?_
    rw [Checked.drop_eq hsize, Option.bind_some]
    cases hvalue : assignment? (dropBytes (byteLength name) t) with
    | none => exact hexpression
    | some value =>
      have hassign := assignment?_boundary hvalue
      rw [Text.isBoundary_dropBytes hsize] at hassign
      exact hbehind (.assign name start) (fun _ _ hcut => ⟨h.le, hcut⟩) hassign (Nat.le_add_right _ _)
termination_by t.length

/-- All statements of a text. -/
theorem readAll_checks {whole t : Text} {start : Nat} (h : Behind whole start t) :
    Checked.readAll start t = some (readAll start t) ∧
      ∀ s ∈ readAll start t, s.1 ≤ byteLength whole ∧ s.2.Within whole := by
  have hseparators := Text.isBoundary_separators t
  have hless := Text.length_dropBytes_le (separators t) t
  have hready := ready_dropBytes t
  have hrest := h.drop hseparators
  rw [Checked.readAll, readAll, Checked.drop_eq hseparators]
  simp only [Option.bind_eq_bind, Option.bind_some]
  generalize dropBytes (separators t) t = rest at hless hready hrest
  by_cases hne : rest = []
  · rw [if_pos hne, dif_pos hne]
    exact ⟨rfl, nofun⟩
  · have hfirst := readFirst_checks hrest hready hne
    have hstop := hfirst.reaches.boundary
    have hforward := hfirst.forward
    have hshorter := Text.length_dropBytes_lt (Nat.sub_pos_of_lt hforward) hne
    -- each statement takes up at least a byte by itself
    have hmax : max 1 ((readFirst (start + separators t) rest).2 - (start + separators t)) =
        (readFirst (start + separators t) rest).2 - (start + separators t) := by omega
    obtain ⟨hothers, hwithin⟩ := readAll_checks (hrest.drop hstop)
    rw [if_neg hne, dif_neg hne, hfirst.same, hmax]
    simp only [Option.bind_some, Checked.drop_eq hstop]
    rw [dif_pos ⟨hshorter, hless⟩, hothers]
    exact ⟨rfl, List.forall_mem_cons.mpr ⟨⟨hrest.le, hfirst.within⟩, hwithin⟩⟩
termination_by t.length

end Statement
end Reckoner
