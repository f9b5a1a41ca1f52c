import Reckoner.Proofs.Cutting.Boundary
import Reckoner.Proofs.Registry.Edits

/-! Comments in scripts. A comment does nothing when it is executed, but a brace that it leaves open joins the
lines behind it to the comment, and a script is executed as if they were not there. -/
namespace Reckoner

namespace Text

private theorem trimStart_append {t : Text} (h : trimStart t ≠ []) (u : Text) :
    trimStart (t ++ u) = trimStart t ++ u := by
  unfold trimStart at h ⊢
  rw [List.dropWhile_append, if_neg (by simpa using h)]

/-- Trimming the end leaves a first character that is not blank. -/
private theorem trimEnd_cons {c : Char} (hc : isBlank c = false) (t : Text) : ∃ u, trimEnd (c :: t) = c :: u := by
  unfold trimEnd
  rw [List.reverse_cons, List.dropWhile_append]
  split
  · exact ⟨[], by rw [List.dropWhile_cons_of_neg (by simp [hc])]; rfl⟩
  · exact ⟨_, by rw [List.reverse_append]; rfl⟩

end Text

/-- A brace of the lexemes stands in the text. -/
private theorem Lexeme.mem_of_leftBrace {base offset : Nat} {t : Text} {l : Lexeme} (h : l ∈ lex base offset t)
    (hl : l.token = .leftBrace) : '\x7b' ∈ t := by
  fun_induction lex base offset t with
  | case1 => cases h
  | case2 offset c rest count stop others hm ih => exact .tail _ (List.mem_of_mem_drop (ih h))
  | case3 offset c rest count stop others token hm ih =>
    obtain rfl | hothers := List.mem_cons.mp h
    · obtain rfl : token = .leftBrace := hl
      obtain rfl : c = '\x7b' := eq_of_single (munch_mark hm rfl).1 rfl
      exact .head _
    · exact .tail _ (List.mem_of_mem_drop (ih hothers))

namespace Session

/-- The first character of the line that is not blank is a `#`. -/
def IsComment (line : Text) : Prop := (Text.trimStart line).head? = some '#'

instance (line : Text) : Decidable (IsComment line) := inferInstanceAs (Decidable (_ = _))

/-- The lines with those in front of them that are joined so far. -/
def extend (pending line : Text) : Text := if pending.isEmpty then line else pending ++ '\n' :: line

def unfinished (pending : Text) : List Text → Text
  | [] => pending
  | line :: rest =>
    if 0 < openBraces (extend pending line) then unfinished (extend pending line) rest else unfinished [] rest

def behind (pending : Text) : List Text → List Text
  | [] => []
  | line :: rest => if 0 < openBraces (extend pending line) then behind (extend pending line) rest else rest

variable {pending line comment : Text} {before after : List Text} {hand : Value → Session → Session} {s : Session}

private theorem join_cons (pending line : Text) (rest : List Text) :
    join pending (line :: rest) =
      if 0 < openBraces (extend pending line) then join (extend pending line) rest
      else extend pending line :: join [] rest := rfl

/-- Lines behind which no brace is open are joined by themselves. -/
private theorem join_append (h : unfinished pending before = []) (after : List Text) :
    join pending (before ++ after) = join pending before ++ join [] after := by
  induction before generalizing pending with
  | nil =>
    obtain rfl : pending = [] := h
    rfl
  | cons line rest ih =>
    rw [unfinished] at h
    rw [List.cons_append, join_cons, join_cons]
    split at h
    · rename_i ho
      rw [if_pos ho, if_pos ho]
      exact ih h
    · rename_i ho
      rw [if_neg ho, if_neg ho, ih h, List.cons_append]

private theorem IsComment.ne_nil (h : IsComment comment) : Text.trimStart comment ≠ [] := by
  intro hnil
  rw [IsComment, hnil] at h
  cases h

/-- A comment stays one when lines are joined to it. -/
private theorem IsComment.extend (h : IsComment comment) (line : Text) : IsComment (extend comment line) := by
  unfold Session.extend
  split
  · rename_i hempty
    obtain rfl := List.isEmpty_iff.mp hempty
    exact absurd rfl h.ne_nil
  · rw [IsComment, Text.trimStart_append h.ne_nil, List.head?_append, h]
    rfl

private theorem IsComment.trim (h : IsComment comment) : ∃ text, Text.trim comment = '#' :: text := by
  obtain ⟨text, htext⟩ := List.head?_eq_some_iff.mp h
  rw [Text.trim, htext]
  exact Text.trimEnd_cons (by decide) text

/-- The logical line that a comment starts is a comment, and the lines behind it are joined by themselves. -/
private theorem join_comment (h : IsComment comment) (after : List Text) :
    ∃ logical, IsComment logical ∧ join comment after = logical :: join [] (behind comment after) := by
  induction after generalizing comment with
  | nil =>
    obtain ⟨text, htrim⟩ := h.trim
    exact ⟨comment, h, by rw [join, htrim]; rfl⟩
  | cons line rest ih =>
    rw [join_cons, behind]
    split
    · exact ih (h.extend line)
    · exact ⟨_, h.extend line, rfl⟩

private theorem execute_comment (h : IsComment comment) : execute comment = pure none := by
  obtain ⟨text, htrim⟩ := h.trim
  unfold execute
  rw [htrim]
  rfl

private theorem executeLines_comment (h : IsComment comment) (hand : Value → Session → Session)
    (before after : List Text) (s : Session) :
    executeLines hand (before ++ comment :: after) s = executeLines hand (before ++ after) s := by
  induction before generalizing s with
  | nil =>
    rw [List.nil_append, List.nil_append, executeLines, execute_comment h]
    rfl
  | cons line rest ih => simp only [List.cons_append, executeLines, ih]

/-- A script in which a comment starts a logical line is executed as if the lines of that logical line were not
there: it gives the same values, fails alike and leaves the same session. -/
theorem executeLines_join_comment (h : IsComment comment) (hclosed : unfinished [] before = [])
    (hand : Value → Session → Session) (after : List Text) (s : Session) :
    executeLines hand (join [] (before ++ comment :: after)) s =
      executeLines hand (join [] (before ++ behind [] (comment :: after))) s := by
  have hlogical : ∃ logical, IsComment logical ∧
      join [] (comment :: after) = logical :: join [] (behind [] (comment :: after)) := by
    rw [join_cons, behind]
    split
    · exact join_comment h after
    · exact ⟨comment, h, rfl⟩
  obtain ⟨logical, hcomment, hjoin⟩ := hlogical
  rw [join_append hclosed, join_append hclosed, hjoin]
  exact executeLines_comment hcomment hand _ _ s

/-- A comment that leaves no brace open can be removed. -/
private theorem executeLines_without_comment (h : IsComment comment) (hopen : openBraces comment ≤ 0)
    (hclosed : unfinished [] before = []) (hand : Value → Session → Session) (after : List Text) (s : Session) :
    executeLines hand (join [] (before ++ comment :: after)) s = executeLines hand (join [] (before ++ after)) s := by
  have hbehind : behind [] (comment :: after) = after := if_neg (Int.not_lt.mpr hopen)
  rw [executeLines_join_comment h hclosed, hbehind]

/-- A line without opening braces leaves none open. -/
private theorem openBraces_le_zero (h : '\x7b' ∉ line) : openBraces line ≤ 0 := by
  unfold openBraces
  refine List.foldlRecOn (motive := (· ≤ 0)) _ _ (Int.le_refl 0) ?_
  intro depth hdepth l hl
  split
  · rename_i hbrace
    exact absurd (Lexeme.mem_of_leftBrace hl hbrace) h
  · omega
  · exact hdepth

/-- A script gives the same result, or the same failure, without a comment in which no brace is opened. -/
theorem executeScript_without_comment {source shorter : Text} (h : IsComment comment) (hbrace : '\x7b' ∉ comment)
    (hclosed : unfinished [] before = []) (hsource : lines source = before ++ comment :: after)
    (hshorter : lines shorter = before ++ after) (s : Session) :
    (executeScript source).run.run s = (executeScript shorter).run.run s := by
  rw [run_executeScript, run_executeScript, logicalLines, logicalLines, hsource, hshorter,
    executeLines_without_comment h (openBraces_le_zero hbrace) hclosed]

/-- The braces of a comment count: here the second line is joined to the first one and is never executed, while
it fails by itself. -/
theorem comment_joins_lines :
    executeLines hand (logicalLines "# \x7b\ndelete a".toList) {} = (([], none), {}) ∧
      executeLines hand (logicalLines "delete a".toList) {} =
        (([], some (.runtime (.unknownVariable "a".toList))), {}) := by
  have hjoined : logicalLines "# \x7b\ndelete a".toList = ["# \x7b\ndelete a".toList] := by with_unfolding_all rfl
  have halone : logicalLines "delete a".toList = ["delete a".toList] := by with_unfolding_all rfl
  rw [hjoined, halone]
  exact ⟨rfl, rfl⟩

end Session
end Reckoner
