import Reckoner.Proofs.Scoping.Statement

/-! The parser with a check of every scope that it goes on in: its local variables must differ. From a scope of
this kind the check never fails, so all scopes that a parse comes to are of this kind. -/
namespace Reckoner

private theorem Scope.Assigns.nodup {s s' : Scope} {name : Text} {target : Target} (h : s.Assigns name target s')
    (hs : s.locals.Nodup) : s'.locals.Nodup := by
  cases h with
  | argument | localVariable => exact hs
  | declared ha hl =>
    have hfresh : name ∉ s.locals.reverse := List.idxOf?_eq_none_iff.mp (Option.map_eq_none_iff.mp hl)
    rw [List.mem_reverse] at hfresh
    have hconcat := List.Nodup.concat hfresh hs
    rwa [List.concat_eq_append] at hconcat

/-- A statement declares a name only where it is not in sight. -/
private theorem Action.Scoped.nodup {s s' : Scope} {previous : Option Action} {a : Action} (h : a.Scoped s previous s')
    (hs : s.locals.Nodup) : s'.locals.Nodup := by
  cases a with
  | compute t => exact h.2 ▸ hs
  | giveBack t => exact h.2 ▸ hs
  | assign target t =>
    obtain ⟨-, name, -, -, hassigns⟩ := h
    exact hassigns.nodup hs
  | «when» condition body => exact h.2.locals_eq ▸ hs
  | otherwise body => exact h.2.locals_eq ▸ hs
  | loop condition body =>
    obtain ⟨-, inner, hbody, rfl⟩ := h
    have hlocals := hbody.locals_eq
    exact hlocals ▸ hs
  | leaveLoop => exact h.2 ▸ hs
  | nextRound => exact h.2 ▸ hs

namespace Watched
open Parse (Context BlockContext)

mutual

/-- Parses an expression, unless two local variables in sight have one name. -/
def parseExpression (alike : ParseError) (env : Environment) (t : Text) (offset : Nat) (scope : Scope)
    (ambient : Ambient) : Parse Tree :=
  if ¬scope.locals.Nodup then throw alike
  else if _ : t = [] then throw (.emptyExpression offset)
  else
    Parse.expression { env, scope, ambient, text := t, offset }
      (fun before stop scope ambient =>
        parseExpression alike env (Text.slice t (before + 1) stop) (offset + before + 1) scope ambient)
      (fun before stop scope =>
        parseBlock alike env (Text.slice t (before + 1) stop) (offset + before + 1) scope)
termination_by (t.length, 0)
decreasing_by all_goals exact Prod.Lex.left _ _ (Text.length_slice_lt _ (Nat.succ_pos _) ‹_›)

/-- Parses the inside of a code block, unless two local variables in sight have one name. -/
def parseBlock (alike : ParseError) (env : Environment) (t : Text) (offset : Nat) (scope : Scope) :
    Parse (Block × Scope) :=
  if ¬scope.locals.Nodup then throw alike
  else if _ : t = [] then return (⟨[], [], scope.locals.length, scope.frameSize⟩, scope)
  else
    Parse.block
      { text := t
        offset
        expression := fun start stop scope =>
          parseExpression alike env (Text.slice t start stop) (offset + start) scope {}
        block := fun before stop scope =>
          parseBlock alike env (Text.slice t (before + 1) stop) (offset + before + 1) scope } scope
termination_by (t.length, 1)
decreasing_by
  · have := Text.length_slice_le t start stop
    rcases Nat.lt_or_eq_of_le this with h | h
    · exact Prod.Lex.left _ _ h
    · rw [h]
      exact Prod.Lex.right _ (by decide)
  · exact Prod.Lex.left _ _ (Text.length_slice_lt _ (Nat.succ_pos _) ‹_›)

end

section
variable {c : Context} {piece piece' : PieceParser} {blockPiece blockPiece' : BlockPieceParser}

structure Agrees (piece : PieceParser) (blockPiece : BlockPieceParser) (piece' : PieceParser)
    (blockPiece' : BlockPieceParser) : Prop where
  expression (before stop : Nat) {scope : Scope} (ambient : Ambient) : scope.locals.Nodup →
    piece before stop scope ambient = piece' before stop scope ambient
  block (before stop : Nat) {scope : Scope} : scope.locals.Nodup →
    blockPiece before stop scope = blockPiece' before stop scope

/-- The parameters and what a function captures are all arguments, so its body starts without local variables. -/
private theorem lambda_eq (h : Agrees piece blockPiece piece' blockPiece') (start arrow : Nat) (braced : Bool)
    (stop : Nat) :
    Parse.lambda c piece blockPiece start arrow braced stop =
      Parse.lambda c piece' blockPiece' start arrow braced stop := by
  unfold Parse.lambda
  refine bind_congr fun params => ?_
  have hinner : (Scope.lambda params c.scope).locals.Nodup := List.nodup_nil
  simp only [h.expression _ _ _ hinner, h.block _ _ hinner]

private theorem operand_eq (h : Agrees piece blockPiece piece' blockPiece') (hc : c.scope.locals.Nodup) (s : Section) :
    Parse.operand c piece blockPiece s = Parse.operand c piece' blockPiece' s := by
  have hpiece (before stop : Nat) (ambient : Ambient) := h.expression before stop ambient hc
  have hcell : Parse.cell c piece = Parse.cell c piece' := by
    funext place
    cases place with
    | none => rfl
    | some p => simp only [Parse.cell, hpiece]
  unfold Parse.operand
  simp only
  split
  · rfl
  · rfl
  · simp only [Parse.call, hpiece]
  · exact hpiece _ _ _
  · simp only [Parse.square, hpiece]
  · simp only [Parse.vector, hcell]
  · rfl
  · exact lambda_eq h _ _ _ _
  · rfl
  · rfl

private theorem expression_eq (h : Agrees piece blockPiece piece' blockPiece') (hc : c.scope.locals.Nodup) :
    Parse.expression c piece blockPiece = Parse.expression c piece' blockPiece' := by
  have hstep : Parse.step c piece blockPiece = Parse.step c piece' blockPiece' := by
    funext progress s
    simp only [Parse.step, operand_eq h hc]
  simp only [Parse.expression, hstep]

end

section
variable {env : Environment} {E : ParseError → Prop} {c c' : BlockContext}

structure Coincides (c c' : BlockContext) : Prop where
  text : c.text = c'.text
  offset : c.offset = c'.offset
  expression (start stop : Nat) {scope : Scope} : scope.locals.Nodup →
    c.expression start stop scope = c'.expression start stop scope
  block (before stop : Nat) {scope : Scope} : scope.locals.Nodup →
    c.block before stop scope = c'.block before stop scope

private theorem condition_eq (h : Coincides c c') {scope : Scope} (hscope : scope.locals.Nodup) (head : Condition) :
    Parse.condition c scope head = Parse.condition c' scope head := by
  cases head with
  | noParenthesis found place => simp only [Parse.condition, h.offset]
  | unclosed parenthesis => simp only [Parse.condition, h.offset]
  | closed parenthesis stop => exact h.expression _ _ hscope

private theorem body_eq (h : Coincides c c') {scope : Scope} (hscope : scope.locals.Nodup) (code : Body) :
    Parse.body c scope code = Parse.body c' scope code := by
  cases code with
  | missing place => simp only [Parse.body, h.offset]
  | unclosed brace => simp only [Parse.body, h.offset]
  | braced brace stop => exact h.block _ _ hscope
  | bare start stop => exact h.block _ _ hscope

private theorem statement_eq (h : Coincides c c') (hE : Parse.Admits env E) (hc : c'.Scoped E) {scope : Scope}
    (hscope : scope.locals.Nodup) (previous : Option Action) {s : Statement} (hs : s.AsRead) :
    Parse.statement c scope previous s = Parse.statement c' scope previous s := by
  have hsame (start stop : Nat) := h.expression start stop hscope
  cases s with
  | expression start stop => simp only [Parse.statement, hsame]
  | giveBack start stop => simp only [Parse.statement, hsame]
  | jump leaves start rest stop => simp only [Parse.statement, Parse.jump, h.text, h.offset]
  | assign name start value stop => simp only [Parse.statement, Parse.assign, h.offset, hsame]
  | conditional loops head code =>
    have hinner : { scope with inLoop := scope.inLoop || loops }.locals.Nodup := hscope
    simp only [Parse.statement, condition_eq h hscope, body_eq h hinner]
  | otherwise start code => simp only [Parse.statement, h.offset, body_eq h hscope]
  | otherwiseIf start first alternative =>
    unfold Parse.statement
    rw [h.offset]
    cases alternative with
    | none =>
      obtain ⟨head, code, rfl⟩ := Statement.eq_conditional hs
      rw [statement_eq h hE hc hscope none (s := .conditional false head code) trivial]
    | some second =>
      obtain ⟨hfirst, -, hsecond⟩ := hs
      obtain ⟨head, code, rfl⟩ := Statement.eq_conditional hfirst
      rw [statement_eq h hE hc hscope none (s := .conditional false head code) trivial]
      cases hwhen : Parse.isWhen previous with
      | false => rfl
      | true =>
        have hbecomes := Parse.conditional_becomes hE hc scope none false head code
        refine hbecomes.bind_congr fun r hr => ?_
        have hnext := hr.inScope.nodup hscope
        simp only [statement_eq h hE hc hnext _ hsecond]

private theorem statements_eq (h : Coincides c c') (hE : Parse.Admits env E) (hc : c'.Scoped E) {scope : Scope}
    (hscope : scope.locals.Nodup) (done : List Action) {read : List (Nat × Statement)}
    (hread : ∀ s ∈ read, s.2.AsRead) :
    Parse.statements c scope done read = Parse.statements c' scope done read := by
  induction read generalizing scope done with
  | nil => rfl
  | cons s read ih =>
    obtain ⟨hs, hread⟩ := List.forall_mem_cons.mp hread
    unfold Parse.statements
    rw [h.offset, statement_eq h hE hc hscope done.head? hs]
    cases hgives : Parse.isGiveBack done.head? with
    | true => rfl
    | false =>
      have hbecomes := Parse.statement_becomes hE hc scope done.head? s.2 hs
      refine hbecomes.bind_congr fun r hr => ?_
      exact ih (hr.inScope.nodup hscope) (r.1 :: done) hread

private theorem block_eq (h : Coincides c c') (hE : Parse.Admits env E) (hc : c'.Scoped E) {scope : Scope}
    (hscope : scope.locals.Nodup) : Parse.block c scope = Parse.block c' scope := by
  unfold Parse.block
  rw [h.text, statements_eq h hE hc hscope [] (Statement.readAll_asRead 0 c'.text)]

end

mutual

theorem parseExpression_eq (alike : ParseError) (env : Environment) (t : Text) (offset : Nat) {scope : Scope}
    (hscope : scope.locals.Nodup) (ambient : Ambient) :
    parseExpression alike env t offset scope ambient = Reckoner.parseExpression env t offset scope ambient := by
  unfold parseExpression Reckoner.parseExpression
  rw [if_neg (not_not_intro hscope)]
  by_cases ht : t = []
  · rw [dif_pos ht, dif_pos ht]
  · rw [dif_neg ht, dif_neg ht]
    refine expression_eq ⟨fun before stop scope ambient hscope => ?_, fun before stop scope hscope => ?_⟩ hscope
    · exact parseExpression_eq alike env _ _ hscope ambient
    · exact parseBlock_eq alike env _ _ hscope
termination_by (t.length, 0)
decreasing_by all_goals exact Prod.Lex.left _ _ (Text.length_slice_lt _ (Nat.succ_pos _) ‹_›)

theorem parseBlock_eq (alike : ParseError) (env : Environment) (t : Text) (offset : Nat) {scope : Scope}
    (hscope : scope.locals.Nodup) :
    parseBlock alike env t offset scope = Reckoner.parseBlock env t offset scope := by
  have hall : Parse.Admits env fun _ => True := .of_forall fun _ => trivial
  unfold parseBlock Reckoner.parseBlock
  rw [if_neg (not_not_intro hscope)]
  by_cases ht : t = []
  · rw [dif_pos ht, dif_pos ht]
  · rw [dif_neg ht, dif_neg ht]
    refine block_eq ⟨by rfl, by rfl, fun start stop scope hscope => ?_, fun before stop scope hscope => ?_⟩ hall
      ⟨fun start stop scope => ?_, fun before stop scope => ?_⟩ hscope
    · exact parseExpression_eq alike env _ _ hscope {}
    · exact parseBlock_eq alike env _ _ hscope
    · exact parseExpression_scoped hall _ _ scope {}
    · exact parseBlock_scoped hall _ _ scope
termination_by (t.length, 1)
decreasing_by
  · have := Text.length_slice_le t start stop
    rcases Nat.lt_or_eq_of_le this with h | h
    · exact Prod.Lex.left _ _ h
    · rw [h]
      exact Prod.Lex.right _ (by decide)
  · exact Prod.Lex.left _ _ (Text.length_slice_lt _ (Nat.succ_pos _) ‹_›)

end

end Watched
end Reckoner
