import Reckoner.Proofs.Scoping.Expression

/-! The parser builds scoped blocks: statement by statement, and from there the whole text. -/
namespace Reckoner

namespace Statement

def isIf : Statement → Bool
  | .conditional false .. => true
  | _ => false

def isElse : Statement → Bool
  | .otherwise .. | .otherwiseIf .. => true
  | _ => false

/-- What holds of statements as they are read: a name that is assigned to is an identifier, and directly
behind an `else` stand an `if` and perhaps an `else` of its own. -/
def AsRead : Statement → Prop
  | .assign name .. => name.IsName
  | .otherwiseIf _ first none => first.isIf
  | .otherwiseIf _ first (some second) => first.isIf ∧ second.isElse ∧ second.AsRead
  | _ => True

theorem readConditional_eq (loops : Bool) (start : Nat) (t : Text) :
    ∃ condition body, (readConditional loops start t).1 = .conditional loops condition body := by
  simp only [readConditional]
  split
  · exact ⟨_, _, rfl⟩
  · split <;> exact ⟨_, _, rfl⟩

theorem eq_conditional {s : Statement} (h : s.isIf) :
    ∃ condition body, s = .conditional false condition body := by
  unfold isIf at h
  split at h
  · exact ⟨_, _, rfl⟩
  · exact nomatch h

theorem readConditional_isIf (start : Nat) (t : Text) : (readConditional false start t).1.isIf := by
  obtain ⟨condition, body, h⟩ := readConditional_eq false start t
  rw [h]
  rfl

private theorem readFirst_isElse {t : Text} (start : Nat) (h : word? t = some "else".toList) :
    (readFirst start t).1.isElse := by
  fun_cases readFirst start t
  case case4 | case5 | case6 => rfl
  all_goals simp_all

private theorem readFirst_asRead (start : Nat) (t : Text) : (readFirst start t).1.AsRead := by
  fun_induction readFirst start t with
  | case1 | case6 | case7 | case8 | case10 => trivial
  | case2 | case3 =>
    obtain ⟨condition, body, h⟩ := readConditional_eq _ _ _
    rw [h]
    trivial
  | case4 start t skip _ first _ hfirst after next h second _ hsecond _ _ _ ih =>
    rw [hsecond] at ih
    have hif := readConditional_isIf (start + skip + 2) (Text.dropBytes (skip + 2) t)
    have helse := readFirst_isElse (start + next) h.2.2
    rw [hfirst] at hif
    rw [hsecond] at helse
    exact ⟨hif, helse, ih⟩
  | case5 start t skip _ first _ hfirst =>
    have hif := readConditional_isIf (start + skip + 2) (Text.dropBytes (skip + 2) t)
    rw [hfirst] at hif
    exact hif
  | case9 start t word hword => exact word?_isName hword

theorem readAll_asRead (start : Nat) (t : Text) : ∀ s ∈ readAll start t, s.2.AsRead := by
  fun_induction readAll start t with
  | case1 => exact nofun
  | case2 start t first rest h statement _ hs _ _ ih =>
    have hfirst := readFirst_asRead first rest
    rw [hs] at hfirst
    exact List.forall_mem_cons.mpr ⟨hfirst, ih⟩

end Statement

namespace Parse
variable {env : Environment} {E : ParseError → Prop} {c : BlockContext}

structure BlockContext.Scoped (E : ParseError → Prop) (c : BlockContext) : Prop where
  expression (start stop : Nat) (scope : Scope) :
    Always E (c.expression start stop scope) (Tree.Scoped scope)
  block : ScopedBlocks E c.block

private theorem body_scoped (h : Admits env E) (hc : c.Scoped E) (scope : Scope) :
    (code : Body) → Always E (body c scope code) fun r => r.1.Scoped scope r.2
  | .missing _ | .unclosed _ => .throw (h.other _ rfl)
  | .braced _ _ | .bare _ _ => hc.block _ _ _

private theorem condition_scoped (h : Admits env E) (hc : c.Scoped E) (scope : Scope) :
    (head : Condition) → Always E (condition c scope head) (Tree.Scoped scope)
  | .noParenthesis _ _ | .unclosed _ => .throw (h.other _ rfl)
  | .closed _ _ => hc.expression _ _ _

private theorem jump_scoped (h : Admits env E) (scope : Scope) (previous : Option Action) (leaves : Bool)
    (start rest stop : Nat) :
    Ends E (jump c scope leaves start rest stop) fun a => a.Scoped scope previous scope := by
  unfold jump
  refine .ite (fun _ => ?_) fun hl => .ite (fun _ => ?_) fun _ => h.other _ rfl
  · cases leaves <;> exact h.other _ rfl
  · have hloop : scope.inLoop := by simpa using hl
    cases leaves <;> exact ⟨hloop, rfl⟩

private theorem assign_scoped (h : Admits env E) (hc : c.Scoped E) (scope : Scope) (previous : Option Action)
    {name : Text} (hn : name.IsName) (start value stop : Nat) :
    Always E (assign c scope name start value stop) fun r => r.1.Scoped scope previous r.2 := by
  unfold assign
  refine .ite (fun _ => .throw (h.other _ rfl)) fun hk => (hc.expression _ _ _).bind fun t ht => ?_
  rw [Bool.not_eq_true] at hk
  split
  · exact .pure ⟨ht, name, hn, hk, .argument ‹_›⟩
  · exact .pure ⟨ht, name, hn, hk, .localVariable ‹_› ‹_›⟩
  · exact .pure ⟨ht, name, hn, hk, .declared ‹_› ‹_›⟩

/-- What a statement becomes behind `previous` in a scope. -/
structure Becomes (scope : Scope) (previous : Option Action) (s : Statement) (r : Action × Scope) :
    Prop where
  inScope : r.1.Scoped scope previous r.2
  isIf : s.isIf → ∃ condition code, r.1 = .when condition code
  isElse : s.isElse → ∃ code, r.1 = .otherwise code

theorem conditional_becomes (h : Admits env E) (hc : c.Scoped E) (scope : Scope)
    (previous : Option Action) (loops : Bool) (head : Condition) (code : Body) :
    Always E (statement c scope previous (.conditional loops head code))
      (Becomes scope previous (.conditional loops head code)) := by
  unfold statement
  refine (condition_scoped h hc _ _).bind fun t ht => (body_scoped h hc _ _).bind fun r hr => .pure ?_
  obtain ⟨block, inner⟩ := r
  cases loops with
  | true =>
    rw [Bool.or_true] at hr
    exact ⟨⟨ht, inner, hr, rfl⟩, nofun, nofun⟩
  | false =>
    rw [Bool.or_false] at hr
    have hin : inner.inLoop = scope.inLoop := hr.extends.inLoop
    refine ⟨⟨ht, ?_⟩, fun _ => ⟨t, block, rfl⟩, nofun⟩
    rwa [← hin]

/-- One or two statements that stand behind an `else` without braces. -/
private theorem otherwise_scoped {scope last : Scope} {previous : Option Action} {actions : List Action}
    (hp : isWhen previous) (ha : Action.AllScoped scope none actions last)
    (hl : last.locals = scope.locals) :
    (Action.otherwise ⟨actions, [], scope.locals.length, last.frameSize⟩).Scoped scope previous last :=
  ⟨hp, last, ha, rfl, by rw [hl, List.drop_length], rfl, by rw [← hl, List.take_length]⟩

theorem statement_becomes (h : Admits env E) (hc : c.Scoped E) (scope : Scope) (previous : Option Action)
    (s : Statement) (hs : s.AsRead) :
    Always E (statement c scope previous s) (Becomes scope previous s) := by
  induction s using Statement.AsRead.induct generalizing scope previous with
  | case1 name start value stop =>
    unfold statement
    exact (assign_scoped h hc scope previous hs _ _ _).mono fun r hr => ⟨hr, nofun, nofun⟩
  | case2 start first =>
    obtain ⟨head, code, rfl⟩ := Statement.eq_conditional hs
    unfold statement
    refine .ite (fun _ => .throw (h.other _ rfl)) fun hp => ?_
    refine (conditional_becomes h hc scope none _ _ _).bind fun r hr => .pure ?_
    obtain ⟨condition, block, hif⟩ := hr.isIf rfl
    have ha := hr.inScope
    refine ⟨otherwise_scoped (by simpa using hp) ⟨rfl, _, ha, rfl⟩ ?_, nofun, fun _ => ⟨_, rfl⟩⟩
    rw [hif] at ha
    exact ha.2.locals_eq
  | case3 start first second ih =>
    obtain ⟨hfirst, hsecond, hs⟩ := hs
    obtain ⟨head, code, rfl⟩ := Statement.eq_conditional hfirst
    unfold statement
    refine .ite (fun _ => .throw (h.other _ rfl)) fun hp => ?_
    refine (conditional_becomes h hc scope none _ _ _).bind fun r hr => ?_
    obtain ⟨action, next⟩ := r
    obtain ⟨condition, block, rfl⟩ := hr.isIf rfl
    refine (ih next (some (.when condition block)) hs).bind fun r hr' => .pure ?_
    obtain ⟨other, last⟩ := r
    obtain ⟨alternative, rfl⟩ := hr'.isElse hsecond
    have ha := hr.inScope
    have hb := hr'.inScope
    refine ⟨otherwise_scoped (by simpa using hp) ⟨rfl, _, ha, rfl, _, hb, rfl⟩ ?_, nofun, fun _ => ⟨_, rfl⟩⟩
    exact hb.2.locals_eq.trans ha.2.locals_eq
  | case4 s hassign hnone hsome =>
    cases s with
    | expression | giveBack =>
      unfold statement
      exact (hc.expression _ _ _).bind fun t ht => .pure ⟨⟨ht, rfl⟩, nofun, nofun⟩
    | jump =>
      unfold statement
      exact (Keeps.lift (jump_scoped h scope previous _ _ _ _)).bind fun a ha =>
        .pure ⟨ha, nofun, nofun⟩
    | assign name start value stop => exact (hassign name start value stop rfl).elim
    | conditional => exact conditional_becomes h hc _ _ _ _ _
    | otherwise =>
      unfold statement
      refine .ite (fun _ => .throw (h.other _ rfl)) fun hp => ?_
      refine (body_scoped h hc _ _).bind fun r hr => .pure ⟨⟨by simpa using hp, hr⟩, nofun, fun _ => ⟨_, rfl⟩⟩
    | otherwiseIf start first alternative =>
      cases alternative with
      | none => exact (hnone start first rfl).elim
      | some second => exact (hsome start first second rfl).elim

private theorem statements_scoped (h : Admits env E) (hc : c.Scoped E) (scope : Scope) (done : List Action)
    (rest : List (Nat × Statement)) (hr : ∀ s ∈ rest, s.2.AsRead) :
    Always E (statements c scope done rest) fun r =>
      ∃ list, r.1 = done.reverse ++ list ∧ Action.AllScoped scope done.head? list r.2 := by
  induction rest generalizing scope done with
  | nil => exact .pure ⟨[], (List.append_nil _).symm, rfl⟩
  | cons s rest ih =>
    obtain ⟨hs, hrest⟩ := List.forall_mem_cons.mp hr
    unfold statements
    refine .ite (fun _ => .throw (h.other _ rfl)) fun hg => ?_
    refine (statement_becomes h hc scope _ _ hs).bind fun r hbecomes => ?_
    obtain ⟨action, next⟩ := r
    refine (ih next (action :: done) hrest).mono fun r hlist => ?_
    obtain ⟨list, hr, hlist⟩ := hlist
    refine ⟨action :: list, by simp [hr], by simpa using hg, next, hbecomes.inScope, hlist⟩

private theorem block_scoped (h : Admits env E) (hc : c.Scoped E) (scope : Scope) :
    Always E (block c scope) fun r => r.1.Scoped scope r.2 := by
  unfold block
  have hread := Statement.readAll_asRead 0 c.text
  refine (statements_scoped h hc scope [] _ hread).bind fun r hlist => .pure ?_
  obtain ⟨list, hr, hlist⟩ := hlist
  rw [hr]
  exact ⟨r.2, hlist, rfl, rfl, rfl, rfl⟩

end Parse

open Parse
variable {env : Environment} {E : ParseError → Prop}

mutual

/-- What the parser accepts as an expression in a scope is a scoped tree. -/
theorem parseExpression_scoped (h : Admits env E) (t : Text) (offset : Nat) (scope : Scope)
    (ambient : Ambient) :
    Always E (parseExpression env t offset scope ambient) (Tree.Scoped scope) := by
  unfold parseExpression
  by_cases ht : t = []
  · rw [dif_pos ht]
    exact .throw (h.other _ rfl)
  · rw [dif_neg ht]
    refine expression_scoped h (fun before stop scope ambient => ?_) fun before stop scope => ?_
    · exact parseExpression_scoped h _ _ scope ambient
    · exact parseBlock_scoped h _ _ scope
termination_by (t.length, 0)
decreasing_by all_goals exact Prod.Lex.left _ _ (Text.length_slice_lt _ (Nat.succ_pos _) ‹_›)

/-- What the parser accepts as a block in a scope is a scoped block. -/
theorem parseBlock_scoped (h : Admits env E) (t : Text) (offset : Nat) (scope : Scope) :
    Always E (parseBlock env t offset scope) fun r => r.1.Scoped scope r.2 := by
  unfold parseBlock
  by_cases ht : t = []
  · rw [dif_pos ht]
    exact .pure ⟨scope, rfl, rfl, List.drop_length.symm, rfl, by rw [List.take_length]⟩
  · rw [dif_neg ht]
    refine block_scoped h ⟨fun start stop scope => ?_, fun before stop scope => ?_⟩ scope
    · exact parseExpression_scoped h _ _ scope _
    · exact parseBlock_scoped h _ _ scope
termination_by (t.length, 1)
decreasing_by
  · have := Text.length_slice_le t start stop
    rcases Nat.lt_or_eq_of_le this with h | h
    · exact Prod.Lex.left _ _ h
    · rw [h]
      exact Prod.Lex.right _ (by decide)
  · exact Prod.Lex.left _ _ (Text.length_slice_lt _ (Nat.succ_pos _) ‹_›)

end

end Reckoner
