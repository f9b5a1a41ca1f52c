import Reckoner.Proofs.Cutting.Parser
import Reckoner.Proofs.Folding
import Reckoner.Proofs.Scoping.Session

/-! Where parse errors point. Each piece is parsed with its place in the input, however deep it stands, so an error
is at a byte of the input, and the text that it is about stands there. -/
namespace Reckoner

open Text (IsCut byteLength slice)

/-- The text of the input that the error is about. A reserved name does not count: among parameters it is reported
where the function starts. -/
def ParseError.culprit? : ParseError → Option Text
  | unexpectedToken w _ | invalidOperator w _ | invalidNumber w _ | unknownName w _ | unknownUnit w _
  | unknownFunction w _ | arityMismatch w _ _ _ => some w
  | _ => none

/-- The error is at a byte of the input or at its end, and the text that it is about stands there. -/
structure ParseError.PointsInto (input : Text) (e : ParseError) : Prop where
  within : e.position ≤ byteLength input
  culprit : ∀ w ∈ e.culprit?, input.At e.position w

namespace ParseError.PointsInto
variable {input : Text} {e : ParseError}

private theorem of_at {w : Text} (h : input.At e.position w) (hw : e.culprit? = some w) : e.PointsInto input :=
  ⟨Nat.le_of_add_right_le h.le, fun _ hv => Option.some.inj (hw.symm.trans hv) ▸ h⟩

theorem of_le (h : e.position ≤ byteLength input) (hw : e.culprit? = none) : e.PointsInto input :=
  ⟨h, fun _ hv => nomatch hw.symm.trans hv⟩

end ParseError.PointsInto

section
variable {input : Text} {position : Nat}

abbrev Pointing {α : Type} (input : Text) (x : Parse α) : Prop :=
  Always (ParseError.PointsInto input) x fun _ => True

namespace Scope
variable {s : Scope} {env : Environment} {name : Text}

private theorem resolve_points (h : input.At position name) (ambient : Ambient) :
    Ends (ParseError.PointsInto input) (s.resolve env ambient name position) fun _ => True := by
  unfold resolve
  simp only
  split
  · exact trivial
  · split
    · exact .of_at h rfl
    · exact .of_at h rfl

private theorem callee_points (h : input.At position name) (count : Nat) :
    Ends (ParseError.PointsInto input) (s.callee env name count position) fun _ => True := by
  unfold callee
  split
  · exact trivial
  · exact .ite (fun _ => trivial) fun _ => .of_at h rfl
  · exact .ite (fun _ => trivial) fun _ => .of_at h rfl
  · exact .of_at h rfl

end Scope

private theorem Parse.evaluateBase_points (h : position ≤ byteLength input) (env : Environment) (t : Tree) :
    Pointing input (evaluateBase env position t) := by
  have hattempt : Pointing input (attempt (env.evaluate .empty t)) := fun _ _ => ⟨trivial, trivial⟩
  unfold evaluateBase
  refine .ite (fun _ => .throw (.of_le h rfl)) fun _ => hattempt.bind fun result _ => ?_
  split
  · exact .throw (.of_le h rfl)
  · split
    · exact .pure trivial
    · exact .throw (.of_le h rfl)

structure Parse.Progress.Placed (input : Text) (progress : Progress) : Prop where
  items : ∀ item ∈ progress.items, item.Has (fun _ => True) (· ≤ byteLength input)
  leading : ∀ place ∈ progress.leading, place ≤ byteLength input

private theorem Parse.operators_points {c : Context} {progress : Progress} {s : Section} (hi : progress.Placed input)
    (h : input.At (c.offset + s.start) (slice c.text s.start s.stop)) :
    Ends (ParseError.PointsInto input) (operators c progress s) (Progress.Placed input) := by
  have hplace : c.offset + s.start ≤ byteLength input := Nat.le_of_add_right_le h.le
  unfold operators
  simp only
  split
  · exact .of_at h rfl
  · refine .ite (fun _ => .ite (fun _ => .of_le hplace rfl) fun _ => ?_) fun _ => ?_
    · exact ⟨hi.items, fun place hmem => Option.some.inj hmem ▸ hplace⟩
    · exact ⟨List.forall_mem_cons.mpr ⟨hplace, hi.items⟩, hi.leading⟩

end

namespace Parse
variable {input : Text} {c : BlockContext} {scope : Scope}

structure BlockContext.Placed (input : Text) (c : BlockContext) : Prop where
  text : input.At c.offset c.text
  expression (start stop : Nat) (scope : Scope) : Pointing input (c.expression start stop scope)
  block (before stop : Nat) (scope : Scope) : Pointing input (c.block before stop scope)

private theorem BlockContext.Placed.le (h : c.Placed input) {place : Nat} (hplace : place ≤ byteLength c.text) :
    c.offset + place ≤ byteLength input :=
  Nat.le_trans (Nat.add_le_add_left hplace _) h.text.le

private theorem body_points (h : c.Placed input) {code : Body} (hcode : code.Within c.text) :
    Pointing input (body c scope code) := by
  cases code with
  | missing place => exact .throw (.of_le (h.le hcode) rfl)
  | unclosed brace => exact .throw (.of_le (h.le hcode) rfl)
  | braced brace stop => exact h.block _ _ _
  | bare start stop => exact h.block _ _ _

private theorem condition_points (h : c.Placed input) {head : Condition} (hhead : head.Within c.text) :
    Pointing input (condition c scope head) := by
  cases head with
  | noParenthesis found place => exact .throw (.of_at (h.text.inner hhead) rfl)
  | unclosed parenthesis => exact .throw (.of_le (h.le hhead) rfl)
  | closed parenthesis stop => exact h.expression _ _ _

/-- What follows a `break` or `continue` is shown where it stands, behind the blanks. -/
private theorem jump_points (h : c.Placed input) (leaves : Bool) {start rest stop : Nat}
    (hstart : start ≤ byteLength c.text) (hrest : IsCut c.text rest stop) :
    Ends (ParseError.PointsInto input) (jump c scope leaves start rest stop) fun _ => True := by
  have hword := h.le hstart
  unfold jump
  refine .ite (fun _ => ?_) fun _ => .ite (fun _ => trivial) fun _ => .of_at (h.text.inner hrest.at).trim rfl
  cases leaves with
  | true => exact .of_le hword rfl
  | false => exact .of_le hword rfl

private theorem assign_points (h : c.Placed input) (name : Text) {start : Nat} (hstart : start ≤ byteLength c.text)
    (value stop : Nat) : Pointing input (assign c scope name start value stop) := by
  unfold assign
  refine .ite (fun _ => .throw (.of_le (h.le hstart) rfl)) fun _ => (h.expression _ _ _).bind fun t _ => ?_
  split
  · exact .pure trivial
  · exact .pure trivial
  · exact .pure trivial

private theorem statement_points (h : c.Placed input) (scope : Scope) (previous : Option Action) {s : Statement}
    (hs : s.Within c.text) : Pointing input (statement c scope previous s) := by
  cases s with
  | expression start stop => exact (h.expression _ _ _).bind fun t _ => .pure trivial
  | giveBack start stop => exact (h.expression _ _ _).bind fun t _ => .pure trivial
  | jump leaves start rest stop => exact (Keeps.lift (jump_points h leaves hs.1 hs.2)).bind fun _ _ => .pure trivial
  | assign name start value stop => exact assign_points h name hs.1 _ _
  | conditional loops head code =>
    refine (condition_points h hs.1).bind fun t _ => (body_points h hs.2).bind fun r _ => ?_
    exact .pure trivial
  | otherwise start code =>
    refine .ite (fun _ => .throw (.of_le (h.le hs.1) rfl)) fun _ => (body_points h hs.2).bind fun r _ => ?_
    exact .pure trivial
  | otherwiseIf start first alternative =>
    unfold statement
    refine .ite (fun _ => .throw (.of_le (h.le ?_) rfl)) fun _ => ?_
    · cases alternative <;> exact hs.1
    · cases alternative with
      | none =>
        refine (statement_points h scope none hs.2).bind fun r _ => ?_
        exact .pure trivial
      | some second =>
        refine (statement_points h scope none hs.2.1).bind fun r _ => ?_
        obtain ⟨action, inner⟩ := r
        refine (statement_points h inner _ hs.2.2).bind fun r _ => ?_
        exact .pure trivial

private theorem statements_points (h : c.Placed input) {read : List (Nat × Statement)}
    (hread : ∀ s ∈ read, s.1 ≤ byteLength c.text ∧ s.2.Within c.text) (done : List Action) :
    Pointing input (statements c scope done read) := by
  induction read generalizing scope done with
  | nil => exact .pure trivial
  | cons s read ih =>
    obtain ⟨⟨hplace, hs⟩, hread⟩ := List.forall_mem_cons.mp hread
    refine .ite (fun _ => .throw (.of_le (h.le hplace) rfl)) fun _ => ?_
    exact (statement_points h scope _ hs).bind fun r _ => ih hread _

end Parse

namespace Checked
open Parse (Context BlockContext Progress evaluateBase freshLabel)

section
variable {input : Text} {torn : ParseError} {c : Context} {parse : TextParser} {parseBlock : BlockParser}

def Points (input : Text) (parse : TextParser) : Prop :=
  ∀ {t : Text} {place : Nat} (scope : Scope) (ambient : Ambient), input.At place t →
    Pointing input (parse t place scope ambient)

def BlockPoints (input : Text) (parseBlock : BlockParser) : Prop :=
  ∀ {t : Text} {place : Nat} (scope : Scope), input.At place t → Pointing input (parseBlock t place scope)

private theorem cutOut_always {E : ParseError → Prop} (ht : E torn) (t : Text) (start stop : Nat) :
    Always E (cutOut torn t start stop) fun u => IsCut t start stop ∧ u = slice t start stop :=
  .ite (fun h => .pure ⟨h, rfl⟩) fun _ => .throw ht

variable (ht : torn.PointsInto input)
include ht

/-- What is cut out of a text of the input stands in the input. -/
private theorem cutOut_points {t : Text} {place start stop : Nat} (h : input.At place t) :
    Always (ParseError.PointsInto input) (cutOut torn t start stop) (input.At (place + start)) :=
  (cutOut_always ht t start stop).mono fun _ ⟨hcut, hu⟩ => hu ▸ h.inner hcut.at

variable (hp : Points input parse)
include hp

private theorem call_points (hc : input.At c.offset c.text) (start opening stop : Nat) :
    Pointing input (call torn c parse start opening stop) := by
  unfold call
  refine (cutOut_points ht hc).bind fun name hname => (cutOut_points ht hc).bind fun inner hinner => ?_
  refine (Keeps.lift (Scope.callee_points hname _)).bind fun callee _ => ?_
  refine (Keeps.mapM (Q := fun _ => True) fun p _ => ?_).bind fun args _ => .pure trivial
  exact (cutOut_points ht hinner).bind fun u hu => hp _ _ hu

private theorem cell_points {inner : Text} {place : Nat} (hi : input.At place inner) :
    (cell? : Option (Nat × Nat)) → Pointing input (cell torn c parse inner place cell?)
  | none => .pure trivial
  | some _ => (cutOut_points ht hi).bind fun _ hu => .ite (fun _ => .pure trivial) fun _ => hp _ _ hu

private theorem vector_points {inner : Text} {place : Nat} (hi : input.At place inner) :
    Pointing input (vector torn c parse inner place) := by
  unfold vector
  have hrow (p : Nat × Nat) : Pointing input (row torn c inner p) :=
    (cutOut_points ht hi).bind fun _ _ => .pure trivial
  refine (Keeps.mapM fun p _ => hrow p).bind fun rows _ => ?_
  have hcells (cells : List (Nat × Nat)) (x : Nat) : Pointing input (cell torn c parse inner place cells[x]?) :=
    cell_points ht hp hi _
  exact (Keeps.mapM fun cells _ => Keeps.mapM fun x _ => hcells cells x).bind fun _ _ => .pure trivial

private theorem square_points (hc : input.At c.offset c.text) (start closing : Nat) (base : Option Nat) (stop : Nat) :
    Pointing input (square torn c parse start closing base stop) := by
  unfold square
  have hgroup (base : Nat) : Pointing input (do
      let inner ← cutOut torn c.text (start + 1) closing
      parse inner (c.offset + start + 1) c.scope { units := true, base }) :=
    (cutOut_points ht hc).bind fun inner hinner => hp _ _ hinner
  cases base with
  | none => exact hgroup 10
  | some first =>
    refine (cutOut_points ht hc).bind fun written hwritten => (hp _ _ hwritten).bind fun t _ => ?_
    have hbase := Parse.evaluateBase_points (Nat.le_of_add_right_le hwritten.le) c.env t
    exact hbase.bind fun base _ => hgroup base

variable (hb : BlockPoints input parseBlock)
include hb

private theorem lambda_points (hc : input.At c.offset c.text) (start arrow : Nat) (braced : Bool) (stop : Nat) :
    Pointing input (lambda torn c parse parseBlock start arrow braced stop) := by
  unfold lambda
  refine (cutOut_points ht hc).bind fun head hhead => (cutOut_points ht hc).bind fun written hwritten => ?_
  have hstart : c.offset + start ≤ byteLength input := Nat.le_of_add_right_le hhead.le
  have hparams : Ends (ParseError.PointsInto input) (readParams (c.offset + start) head) List.Nodup :=
    Parse.readParams_nodup (.of_le hstart rfl) (fun _ => .of_le hstart rfl) head
  refine (Keeps.lift hparams).bind fun params _ => ?_
  have hfunction (body : Block) :
      Pointing input (do return Tree.function { label := ← freshLabel, params, body } c.scope.captureWidth) :=
    fun _ _ => ⟨trivial, trivial⟩
  cases braced with
  | true =>
    refine (cutOut_points ht hwritten).bind fun inside hinside => ?_
    -- the place of the brace is a sum in the text, and that of the block one in the input
    rw [← Nat.add_assoc, Nat.add_assoc c.offset] at hinside
    exact Keeps.bind (Keeps.map (R := fun _ => True) (hb _ hinside)) fun body _ => hfunction body
  | false => exact Keeps.bind (Keeps.map (R := fun _ => True) (hp _ _ hwritten)) fun body _ => hfunction body

private theorem operand_points (hc : input.At c.offset c.text) (s : Section) :
    Pointing input (operand torn c parse parseBlock s) := by
  unfold operand
  refine (cutOut_points ht hc).bind fun written hwritten => ?_
  cases s.kind with
  | number =>
    simp only [number_bind]
    split
    · exact .pure trivial
    · exact .throw (.of_at hwritten rfl)
  | «variable» => exact .lift (Scope.resolve_points hwritten _)
  | call opening => exact call_points ht hp hc _ _ _
  | parenthesis => exact (cutOut_points ht hwritten).bind fun inner hinner => hp _ _ hinner
  | square closing base => exact square_points ht hp hc _ _ _ _
  | vector => exact (cutOut_points ht hwritten).bind fun inner hinner => vector_points ht hp hinner
  | operators => exact .throw (.of_le (Nat.le_of_add_right_le hwritten.le) rfl)
  | function arrow braced => exact lambda_points ht hp hb hc _ _ _ _
  | string => exact (cutOut_points ht hwritten).bind fun inner _ => .pure trivial
  | undefined => exact .throw (.of_at hwritten rfl)

private theorem step_points (hc : input.At c.offset c.text) {progress : Progress} (hi : progress.Placed input)
    {s : Section} (hs : s.start ≤ byteLength c.text) :
    Always (ParseError.PointsInto input) (step torn c parse parseBlock progress s) (Progress.Placed input) := by
  have hplace : c.offset + s.start ≤ byteLength input := Nat.le_trans (Nat.add_le_add_left hs _) hc.le
  unfold step
  refine .ite (fun _ => .throw (.of_le hplace rfl)) fun _ => .ite (fun _ => ?_) fun _ => ?_
  · exact (cutOut_always ht _ _ _).bind fun _ ⟨hcut, _⟩ => .lift (Parse.operators_points hi (hc.inner hcut.at))
  · refine (operand_points ht hp hb hc s).bind fun t _ => .pure ⟨?_, hi.leading⟩
    exact List.forall_mem_cons.mpr ⟨trivial, hi.items⟩

/-- The errors of an expression point into the input when those of its pieces do. -/
private theorem expression_points (hc : input.At c.offset c.text) :
    Pointing input (expression torn c parse parseBlock) := by
  have hstart : c.offset ≤ byteLength input := Nat.le_of_add_right_le hc.le
  unfold expression
  rw [sections_eq (Text.isBoundary_zero c.text)]
  simp only
  have hnone : Progress.Placed input {} := ⟨nofun, nofun⟩
  refine (Keeps.foldlM hnone fun progress hi s hmem => ?_).bind fun progress hi => ?_
  · exact step_points ht hp hb hc hi (Section.ofText_starts s hmem)
  · split
    · exact .throw (.of_le hstart rfl)
    · rename_i place _ hleading
      exact .throw (.of_le (hi.leading place hleading) rfl)
    · have hleading : progress.leading.getD 0 ≤ byteLength input := by
        cases hplace : progress.leading with
        | none => exact Nat.zero_le _
        | some place => exact hi.leading place hplace
      have htrue : Tree.Operates fun _ => True := ⟨fun _ => trivial, fun _ => trivial, fun _ _ _ => trivial⟩
      refine .lift (Flat.fold_has htrue (fun _ hplace => .of_le hplace rfl) hleading fun item hitem => ?_)
      exact hi.items item (List.mem_reverse.mp hitem)

end

/-- The errors of a block point into the input when those of its parts do. -/
private theorem block_points {input : Text} (torn : ParseError) {c : BlockContext} (h : c.Placed input)
    (scope : Scope) :
    Pointing input (block torn c scope) := by
  obtain ⟨hall, hwithin⟩ := Statement.readAll_checks (Text.Behind.self c.text)
  unfold block
  rw [hall]
  exact (Parse.statements_points h hwithin []).bind fun r _ => .pure trivial

mutual

private theorem parseExpression_points {input : Text} {torn : ParseError} (ht : torn.PointsInto input)
    (env : Environment)
    (around : Around) {t : Text} {place : Nat} (h : input.At place t) (scope : Scope) (ambient : Ambient) :
    Pointing input (parseExpression torn env around t place scope ambient) := by
  rw [parseExpression]
  refine expression_points ht (fun scope ambient hu => ?_) (fun scope hu => ?_) h
  · split
    · exact parseExpression_points ht env _ hu scope ambient
    · exact .throw ht
  · split
    · exact parseBlock_points ht env _ hu scope
    · exact .throw ht
termination_by (t.length, 0)

theorem parseBlock_points {input : Text} {torn : ParseError} (ht : torn.PointsInto input) (env : Environment)
    (around : Around) {t : Text} {place : Nat} (h : input.At place t) (scope : Scope) :
    Pointing input (parseBlock torn env around t place scope) := by
  rw [parseBlock]
  refine block_points torn ⟨h, fun start stop scope => ?_, fun before stop scope => ?_⟩ scope
  · refine (cutOut_points ht h).bind fun u hu => ?_
    split
    · exact parseExpression_points ht env _ hu scope _
    · exact .throw ht
  · refine (cutOut_points ht h).bind fun u hu => ?_
    split
    · exact parseBlock_points ht env _ hu scope
    · exact .throw ht
termination_by (t.length, 1)
decreasing_by
  · rename_i hle
    rcases Nat.lt_or_eq_of_le hle.1 with h | h
    · exact Prod.Lex.left _ _ h
    · rw [h]
      exact Prod.Lex.right _ (by decide)
  · exact Prod.Lex.left _ _ ‹_›

end

end Checked

/-- Wherever an expression stands in the input, the errors of its parse point into the input. -/
theorem parseExpression_points {input t : Text} {place : Nat} (h : input.At place t) (env : Environment)
    (scope : Scope) (ambient : Ambient) : Pointing input (parseExpression env t place scope ambient) := by
  -- the error of a failed check is one that points into every input, so it makes no case of its own
  have ht : (ParseError.emptyExpression 0).PointsInto input := .of_le (Nat.zero_le _) rfl
  rw [← (Checked.never_torn (.emptyExpression 0) env t place scope).1 ambient]
  exact Checked.parseExpression_points ht env _ h scope ambient

namespace Session

/-- A text that is refused is refused for an error that points into it, whatever is defined in the session. -/
theorem parse_failure_points {s after : Session} {text : Text} {failure : Failure}
    (h : (parse text).run.run s = (.error failure, after)) :
    ∃ e, failure = .parse e ∧ e.PointsInto text := by
  have hends := (parseExpression_points (Text.at_self text) s.env .top {} s.supply trivial).2
  unfold parse at h
  rw [run_parsing] at h
  cases hr : ((parseExpression s.env text 0 .top {}).run.run s.supply).1 with
  | ok t =>
    rw [hr] at h
    exact nomatch congrArg Prod.fst h
  | error e =>
    rw [hr] at h hends
    exact ⟨e, (Except.error.inj (congrArg Prod.fst h)).symm, hends⟩

/-- The name is unknown in a parenthesis in the code block of a function in a vector, behind a string whose one
character takes up two bytes. -/
theorem parse_failure_points_of_nesting :
    (parse "<\"é\",x=>\x7breturn(no)\x7d>".toList).run.run {} =
        (.error (.parse (.unknownName "no".toList 17)), {}) ∧
      Text.At "<\"é\",x=>\x7breturn(no)\x7d>".toList 17 "no".toList := by
  have hparse : (parse "<\"é\",x=>\x7breturn(no)\x7d>".toList).run.run {} =
      (.error (.parse (.unknownName "no".toList 17)), {}) := by
    unfold parse parseExpression parseExpression parseBlock parseExpression parseExpression
    with_unfolding_all rfl
  obtain ⟨e, he, hpoints⟩ := parse_failure_points hparse
  obtain rfl := Failure.parse.inj he
  exact ⟨hparse, hpoints.culprit _ rfl⟩

end Session
end Reckoner
