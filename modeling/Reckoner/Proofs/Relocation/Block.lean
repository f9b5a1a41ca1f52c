import Reckoner.Parse
import Reckoner.Proofs.Joining
import Reckoner.Proofs.Relocation.Expression

/-! An expression is parsed to the same tree wherever it stands in the input, and so it is behind a blank; and a
block to the same block. -/
namespace Reckoner

namespace Parse

structure BlockContext.Same (c c' : BlockContext) : Prop where
  text : c.text = c'.text
  expression (start stop : Nat) (scope : Scope) :
    Parse.Same (c.expression start stop scope) (c'.expression start stop scope)
  block (before stop : Nat) (scope : Scope) : Parse.Same (c.block before stop scope) (c'.block before stop scope)

section
variable {c c' : BlockContext}

private theorem body_same (h : c.Same c') (scope : Scope) :
    (code : Body) → Same (body c scope code) (body c' scope code)
  | .missing _ | .unclosed _ => .throw trivial
  | .braced _ _ | .bare _ _ => h.block _ _ _

private theorem condition_same (h : c.Same c') (scope : Scope) :
    (head : Condition) → Same (condition c scope head) (condition c' scope head)
  | .noParenthesis _ _ | .unclosed _ => .throw trivial
  | .closed _ _ => h.expression _ _ _

private theorem jump_same (h : c.Same c') (scope : Scope) (leaves : Bool) (start rest stop : Nat) :
    Coincide (fun _ _ => True) Eq (jump c scope leaves start rest stop) (jump c' scope leaves start rest stop) := by
  unfold jump
  simp only [h.text]
  refine .ite (fun _ => ?_) fun _ => .ite (fun _ => rfl) fun _ => trivial
  cases leaves <;> trivial

private theorem assign_same (h : c.Same c') (scope : Scope) (name : Text) (start value stop : Nat) :
    Same (assign c scope name start value stop) (assign c' scope name start value stop) := by
  unfold assign
  refine .ite (fun _ => .throw trivial) fun _ => ?_
  refine Agree.bind (h.expression _ _ _) fun t _ ht => ?_
  subst ht
  exact Agree.self (fun _ => trivial) _

private theorem statement_same (h : c.Same c') (scope : Scope) (previous : Option Action) (s : Statement) :
    Same (statement c scope previous s) (statement c' scope previous s) := by
  cases s with
  | expression start stop =>
    unfold statement
    exact Agree.bind (h.expression _ _ _) fun t _ ht => ht ▸ .pure rfl
  | giveBack start stop =>
    unfold statement
    exact Agree.bind (h.expression _ _ _) fun t _ ht => ht ▸ .pure rfl
  | jump leaves start rest stop =>
    unfold statement
    exact Agree.bind (Agree.lift (jump_same h _ _ _ _ _)) fun a _ ha => ha ▸ .pure rfl
  | assign name start value stop => exact assign_same h _ _ _ _ _
  | conditional loops head code =>
    unfold statement
    refine Agree.bind (condition_same h _ _) fun t _ ht => ?_
    subst ht
    exact Agree.bind (body_same h _ _) fun r _ hr => hr ▸ .pure rfl
  | otherwise start code =>
    unfold statement
    refine .ite (fun _ => .throw trivial) fun _ => ?_
    exact Agree.bind (body_same h _ _) fun r _ hr => hr ▸ .pure rfl
  | otherwiseIf start first alternative =>
    unfold statement
    refine .ite (fun _ => .throw trivial) fun _ => ?_
    refine Agree.bind (statement_same h _ _ first) fun r _ hr => ?_
    subst hr
    cases alternative with
    | none => exact .pure rfl
    | some second => exact Agree.bind (statement_same h _ _ second) fun r _ hr => hr ▸ .pure rfl

private theorem statements_same (h : c.Same c') (scope : Scope) (done : List Action) (rest : List (Nat × Statement)) :
    Same (statements c scope done rest) (statements c' scope done rest) := by
  induction rest generalizing scope done with
  | nil => exact .pure rfl
  | cons s rest ih =>
    unfold statements
    refine .ite (fun _ => .throw trivial) fun _ => ?_
    refine Agree.bind (statement_same h scope _ _) fun r _ hr => ?_
    subst hr
    exact ih _ _

private theorem block_same (h : c.Same c') (scope : Scope) : Same (block c scope) (block c' scope) := by
  unfold block
  rw [h.text]
  refine Agree.bind (statements_same h scope _ _) fun r _ hr => ?_
  exact hr ▸ .pure rfl

end
end Parse

mutual

/-- The place of an expression and the room for local variables around it change nothing. -/
theorem parseExpression_same (env : Environment) (t : Text) (offset offset' : Nat) {scope scope' : Scope}
    (hs : scope.SameSight scope') (ambient : Ambient) :
    Parse.Same (parseExpression env t offset scope ambient) (parseExpression env t offset' scope' ambient) := by
  unfold parseExpression
  by_cases ht : t = []
  · rw [dif_pos ht, dif_pos ht]
    exact .throw trivial
  · rw [dif_neg ht, dif_neg ht]
    refine Parse.expression_moved (n := 0) ⟨rfl, hs, rfl, [], rfl, rfl⟩ (fun before stop s s' ambient h => ?_)
      (fun before stop s => ?_) ?_
    · exact parseExpression_same env _ _ _ h ambient
    · exact parseBlock_same env _ _ _ s
    · exact (List.map_id _).symm
termination_by (t.length, 0)
decreasing_by all_goals exact Prod.Lex.left _ _ (Text.length_slice_lt _ (Nat.succ_pos _) ‹_›)

theorem parseBlock_same (env : Environment) (t : Text) (offset offset' : Nat) (scope : Scope) :
    Parse.Same (parseBlock env t offset scope) (parseBlock env t offset' scope) := by
  unfold parseBlock
  by_cases ht : t = []
  · rw [dif_pos ht, dif_pos ht]
    exact .pure rfl
  · rw [dif_neg ht, dif_neg ht]
    apply Parse.block_same
    refine ⟨rfl, fun start stop scope => ?_, fun before stop scope => ?_⟩
    · exact parseExpression_same env _ _ _ ⟨rfl, rfl, rfl⟩ _
    · exact parseBlock_same env _ _ _ scope
termination_by (t.length, 1)
decreasing_by
  · have := Text.length_slice_le t start stop
    rcases Nat.lt_or_eq_of_le this with h | h
    · exact Prod.Lex.left _ _ h
    · rw [h]
      exact Prod.Lex.right _ (by decide)
  · exact Prod.Lex.left _ _ (Text.length_slice_lt _ (Nat.succ_pos _) ‹_›)

end

/-- A blank in front of an expression changes nothing. -/
theorem parseExpression_space (env : Environment) {t : Text} (ht : t ≠ []) (offset offset' : Nat)
    {scope scope' : Scope} (hs : scope.SameSight scope') (ambient : Ambient) :
    Parse.Same (parseExpression env (' ' :: t) offset scope ambient)
      (parseExpression env t offset' scope' ambient) := by
  have hslice (start stop : Nat) : Text.slice (' ' :: t) (start + 1) (stop + 1) = Text.slice t start stop := by
    have hmiddle := Text.slice_append_left [' '] t start stop
    rwa [Nat.add_comm _ start, Nat.add_comm _ stop] at hmiddle
  unfold parseExpression
  rw [dif_neg (List.cons_ne_nil _ _), dif_neg ht]
  refine Parse.expression_moved (n := 1) ⟨rfl, hs, rfl, [' '], rfl, rfl⟩ (fun before stop s s' ambient h => ?_)
    (fun before stop s => ?_) ?_
  · rw [hslice]
    exact parseExpression_same env _ _ _ h ambient
  · rw [hslice]
    exact parseBlock_same env _ _ _ s
  · rw [Lexeme.lex_space, ← Lexeme.lex_shift]

end Reckoner
