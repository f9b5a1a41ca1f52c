import Reckoner.Proofs.Positions

/-! Where the errors of a line point. A line is cut at its first `=` outside of brackets, and only what stands behind it
is parsed: the errors point into that, and in the line they stand as much further on as it does. -/
namespace Reckoner

open Lexeme (Remain)
open Text (IsCut isBoundary byteLength dropBytes findOutside leadingBlank slice trim trimEnd)

/-- The separator is not found, or the text can be cut behind it too. -/
private theorem Nesting.find_behind {n : Nesting} {separator : Token} {base place : Nat} {t : Text} {ls : List Lexeme}
    (hmark : separator.isMark) (h : Remain base t place ls) :
    n.find separator (byteLength t) ls = byteLength t ∨ isBoundary (n.find separator (byteLength t) ls + 1) t := by
  induction ls generalizing n place with
  | nil => exact .inl rfl
  | cons l ls ih =>
    rw [find]
    split
    · rename_i hfound
      have hstops := h.stops
      rw [h.mark (hfound.2 ▸ hmark)] at hstops
      exact .inr hstops
    · exact ih h.rest

namespace Text
variable {t line : Text} {n : Nat}

/-- Where the text can be cut, what is left stands there. -/
private theorem at_dropBytes (h : isBoundary n t) : t.At n (dropBytes n t) := by
  obtain ⟨s, u, rfl, rfl⟩ := exists_of_isBoundary h
  rw [dropBytes_byteLength]
  exact ⟨s, [], by simp, rfl⟩

/-- How far into a trimmed line its code starts: behind the first `=` outside of brackets, if there is one. -/
def codeStart (line : Text) : Nat :=
  let equals := findOutside .assign line
  if equals = byteLength line then 0 else equals + 1

private theorem codeStart_of_whole (h : findOutside .assign line = byteLength line) : codeStart line = 0 := if_pos h

private theorem codeStart_of_cut (h : findOutside .assign line ≠ byteLength line) :
    codeStart line = findOutside .assign line + 1 := if_neg h

def code (line : Text) : Text := dropBytes line.codeStart line

private theorem at_code (line : Text) : line.At line.codeStart line.code := by
  refine at_dropBytes ?_
  by_cases h : findOutside .assign line = byteLength line
  · rw [codeStart_of_whole h]
    exact isBoundary_zero line
  · rw [codeStart_of_cut h]
    exact (Nesting.find_behind rfl (Remain.all 10 line)).resolve_left h

end Text

/-- Wherever a code block stands in the input, the errors of its parse point into the input. -/
private theorem parseBlock_points {input t : Text} {place : Nat} (h : input.At place t) (env : Environment)
    (scope : Scope) :
    Pointing input (parseBlock env t place scope) := by
  have ht : (ParseError.emptyExpression 0).PointsInto input := .of_le (Nat.zero_le _) rfl
  rw [← (Checked.never_torn (.emptyExpression 0) env t place scope).2]
  exact Checked.parseBlock_points ht env _ h scope

namespace Session
variable {input : Text}

abbrev Points {α : Type} (input : Text) (x : Operation α) : Prop :=
  Always (fun failure => ∀ e, failure = .parse e → e.PointsInto input) x fun _ => True

/-- The body of a function is parsed with errors that point into it. -/
private theorem parseBody_points (env : Environment) (scope : Scope) (body : Text) :
    Pointing body (parseBody env scope body) := by
  have htrimmed : body.At 0 (trimEnd body) := by
    obtain ⟨behind, hbehind⟩ := Text.isPrefix_trimEnd body
    exact ⟨[], behind, hbehind.symm, rfl⟩
  unfold parseBody
  simp only
  generalize htext : trimEnd body = t at htrimmed
  refine .ite (fun hbraced => Keeps.map ?_) fun _ => Keeps.map (parseExpression_points htrimmed env scope {})
  obtain ⟨hbrace, hgroup⟩ := hbraced
  have hblank := Text.isBoundary_leadingBlank t
  have hlength : byteLength (dropBytes (leadingBlank t) t) = byteLength t - leadingBlank t := by
    have hwhole : IsCut t (leadingBlank t) (byteLength t) :=
      .of_boundaries (Text.le_byteLength_of_isBoundary hblank) hblank (Text.isBoundary_self t)
    rw [← hwhole.byteLength_slice, Text.slice_to_end]
  obtain ⟨inside, hinside⟩ := List.head?_eq_some_iff.mp hbrace
  rw [hinside] at hgroup
  obtain ⟨hinner, -, -⟩ := Text.groupEnd_cut rfl hgroup
  rw [← hinside, hlength] at hinner
  -- what can be cut out behind the blanks can be cut out of the whole body
  have hordered := hinner.ordered
  have hcut : IsCut t (leadingBlank t + 1) (byteLength t - 1) := by
    have hstarts := hinner.starts
    have hstops := hinner.stops
    rw [Text.isBoundary_dropBytes hblank] at hstarts hstops
    have hstop : leadingBlank t + (byteLength t - leadingBlank t - 1) = byteLength t - 1 := by omega
    exact .of_boundaries (by omega) hstarts (hstop ▸ hstops)
  have hplace := htrimmed.inner hcut.at
  rw [Nat.zero_add] at hplace
  exact (parseBlock_points hplace env scope).mono fun _ _ => trivial

section
variable {α : Type}

private theorem parsing_points {p : Environment → Parse α} (h : ∀ env, Pointing input (p env)) :
    Points input (parsing p) := by
  intro s _
  rw [run_parsing]
  refine ⟨trivial, ends_mapError (h s.env s.supply trivial).2 fun e he e' heq => ?_⟩
  exact Failure.parse.inj heq ▸ he

private theorem evaluating_points (e : Environment → Eval α) : Points input (evaluating e) := by
  intro s _
  rw [run_evaluating]
  cases ((e s.env).run.run s.supply.output).1 with
  | ok a => exact ⟨trivial, trivial⟩
  | error failure => exact ⟨trivial, fun e he => nomatch he⟩

private theorem environment_points : Points input environment := fun _ _ => ⟨trivial, trivial⟩

private theorem update_points (f : Environment → Environment) : Points input (update f) := fun _ _ => ⟨trivial, trivial⟩

/-- An error of an operation that parses nothing. -/
private theorem runtime_points (e : RuntimeError) : Points input (throw (.runtime e) : Operation α) := .throw nofun

private theorem liftParse_points {r : Except ParseError α} (h : Ends (ParseError.PointsInto input) r fun _ => True) :
    Points input (liftParse r) :=
  .lift (ends_mapError h fun _ he _ heq => Failure.parse.inj heq ▸ he)

end

private theorem checkDefinable_points (input name : Text) :
    Ends (ParseError.PointsInto input) (checkDefinable name) fun _ => True :=
  .ite (fun _ => .of_le (Nat.zero_le _) rfl) fun _ => .ite (fun _ => .of_le (Nat.zero_le _) rfl) fun _ => trivial

private theorem checkParams_points (input : Text) (seen params : List Text) :
    Ends (ParseError.PointsInto input) (checkParams seen params) fun _ => True := by
  induction params generalizing seen with
  | nil => trivial
  | cons param params ih =>
    refine .ite (fun _ => .of_le (Nat.zero_le _) rfl) fun _ => ?_
    exact .ite (fun _ => .of_le (Nat.zero_le _) rfl) fun _ => ih _

private theorem evaluateText_points (text : Text) : Points text (evaluateText text) := by
  unfold evaluateText
  have hparse : Points text (parse text) :=
    parsing_points fun env => parseExpression_points (Text.at_self text) env .top {}
  exact hparse.bind fun t _ => evaluating_points _

private theorem defineFunction_points (name : Text) (params : List Text) (body : Text) :
    Points body (defineFunction name params body) := by
  unfold defineFunction
  refine (liftParse_points (checkDefinable_points body name)).bind fun _ _ => ?_
  refine (liftParse_points (checkParams_points body [] params)).bind fun _ _ => ?_
  refine environment_points.bind fun env _ => ?_
  refine (parsing_points fun env => parseBody_points env _ body).bind fun code _ => ?_
  exact (update_points _).bind fun _ _ => .pure trivial

private theorem setVariable_points (name : Text) (v : Value) : Points input (setVariable name v) := by
  unfold setVariable
  refine (liftParse_points (checkDefinable_points input name)).bind fun _ _ => ?_
  exact environment_points.bind fun env _ => (update_points _).bind fun _ _ => .pure trivial

private theorem deleteFunction_points (name : Text) : Points input (deleteFunction name) := by
  unfold deleteFunction
  refine environment_points.bind fun env _ => (update_points _).bind fun _ _ => ?_
  exact .ite (fun _ => runtime_points _) fun _ => .pure trivial

private theorem deleteVariable_points (name : Text) : Points input (deleteVariable name) := by
  unfold deleteVariable
  refine environment_points.bind fun env _ => (update_points _).bind fun _ _ => ?_
  split
  · exact .pure trivial
  · exact runtime_points _

private theorem execute_points (line : Text) : Points (trim line).code (execute line) := by
  have hanswer (shown : Option Value) : Points (trim line).code (pure shown : Operation (Option Value)) := .pure trivial
  unfold execute
  refine .ite (fun _ => hanswer none) fun _ => ?_
  simp only
  split
  · rename_i name _
    refine environment_points.bind fun env _ => .ite (fun _ => ?_) fun _ => ?_
    · exact (deleteFunction_points name).bind fun _ _ => hanswer none
    · exact (deleteVariable_points name).bind fun _ _ => hanswer none
  by_cases hwhole : findOutside .assign (trim line) = byteLength (trim line)
  · rw [if_pos hwhole, Text.code, Text.codeStart_of_whole hwhole, dropBytes]
    exact (evaluateText_points _).bind fun v _ => hanswer (some v)
  · rw [if_neg hwhole, Text.code, Text.codeStart_of_cut hwhole]
    split
    · exact (defineFunction_points _ _ _).bind fun _ _ => hanswer none
    · refine .ite (fun _ => ?_) fun _ => .throw fun e he => Failure.parse.inj he ▸ .of_le (Nat.zero_le _) rfl
      exact (evaluateText_points _).bind fun v _ => (setVariable_points _ v).bind fun _ _ => hanswer (some v)

/-- When a line is refused for a parse error, in any session, the error points into the code of the line, and the text
that it is about stands in the line that much further on: behind the blanks and the `=` that stand in front. -/
theorem execute_failure_points {s after : Session} {line : Text} {e : ParseError}
    (h : (execute line).run.run s = (.error (.parse e), after)) :
    e.PointsInto (trim line).code ∧
      ∀ w ∈ e.culprit?, line.At (leadingBlank line + ((trim line).codeStart + e.position)) w := by
  have hends := (execute_points line s trivial).2
  rw [h] at hends
  have hpoints := hends e rfl
  have htrimmed : line.At (leadingBlank line) (trim line) := by
    have hwhole := (Text.at_self line).trim
    rwa [Nat.zero_add] at hwhole
  exact ⟨hpoints, fun w hw => htrimmed.inner ((trim line).at_code.inner (hpoints.culprit w hw))⟩

/-- The unknown name stands at the fourth byte of the line, and at the first one behind the `=`. -/
example : (execute "x = foo".toList).run.run {} = (.error (.parse (.unknownName "foo".toList 1)), {}) ∧
    Text.codeStart "x = foo".toList + 1 = 4 := by
  refine ⟨?_, by with_unfolding_all rfl⟩
  unfold execute evaluateText parse parseExpression
  with_unfolding_all rfl

end Session
end Reckoner
