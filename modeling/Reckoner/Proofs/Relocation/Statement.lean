import Reckoner.Proofs.Braces.Reading
import Reckoner.Proofs.Pieces
import Reckoner.Proofs.Relocation.Block

/-! Statements that are read further back. They are the same but for their places, and where more text stands around
them they are parsed to the same actions. -/
namespace Reckoner

open Text (IsCut byteLength dropBytes slice)

def Body.shift (n : Nat) : Body → Body
  | .missing place => .missing (n + place)
  | .unclosed brace => .unclosed (n + brace)
  | .braced brace stop => .braced (n + brace) (n + stop)
  | .bare start stop => .bare (n + start) (n + stop)

def Condition.shift (n : Nat) : Condition → Condition
  | .noParenthesis found place => .noParenthesis found (n + place)
  | .unclosed parenthesis => .unclosed (n + parenthesis)
  | .closed parenthesis stop => .closed (n + parenthesis) (n + stop)

namespace Statement

def shift (n : Nat) : Statement → Statement
  | .expression start stop => .expression (n + start) (n + stop)
  | .giveBack start stop => .giveBack (n + start) (n + stop)
  | .jump leaves start rest stop => .jump leaves (n + start) (n + rest) (n + stop)
  | .assign name start value stop => .assign name (n + start) (n + value) (n + stop)
  | .conditional loops head code => .conditional loops (head.shift n) (code.shift n)
  | .otherwise start code => .otherwise (n + start) (code.shift n)
  | .otherwiseIf start first none => .otherwiseIf (n + start) (first.shift n) none
  | .otherwiseIf start first (some second) => .otherwiseIf (n + start) (first.shift n) (some (second.shift n))

variable {n start : Nat} {t : Text}

private theorem readBody_shift (n start : Nat) (t : Text) :
    readBody (n + start) t = ((readBody start t).1.shift n, n + (readBody start t).2) := by
  unfold readBody
  simp only [Nat.add_assoc]
  split
  · rfl
  · split
    · split <;> rfl
    · rfl

private theorem readConditional_shift (loops : Bool) (n start : Nat) (t : Text) :
    readConditional loops (n + start) t =
      ((readConditional loops start t).1.shift n, n + (readConditional loops start t).2) := by
  unfold readConditional
  simp only [Nat.add_assoc]
  split
  · rfl
  · split
    · rfl
    · simp only [readBody_shift, shift, Condition.shift]

private theorem upToSemicolon_shift (n start skip : Nat) (t : Text) :
    upToSemicolon (n + start) skip t = (n + (upToSemicolon start skip t).1, n + (upToSemicolon start skip t).2) := by
  simp only [upToSemicolon, Nat.add_assoc]

private theorem innerIf_shift (n start : Nat) (t : Text) :
    innerIf (n + start) t = ((innerIf start t).1.shift n, n + (innerIf start t).2) := by
  simp only [innerIf, Nat.add_assoc, readConditional_shift]

private theorem behindInnerIf_shift (n start : Nat) (t : Text) :
    behindInnerIf (n + start) t = behindInnerIf start t := by
  simp only [behindInnerIf, innerIf_shift, Nat.add_sub_add_left]

theorem readFirst_shift (n start : Nat) (t : Text) :
    readFirst (n + start) t = ((readFirst start t).1.shift n, n + (readFirst start t).2) := by
  refine Reads.eq ?_
  have hreads := reads_readFirst start t
  generalize readFirst start t = r at hreads
  cases hreads with
  | expression hword hr =>
    subst hr
    exact .expression hword (by rw [upToSemicolon_shift]; rfl)
  | giveBack hword hr =>
    subst hr
    exact .giveBack hword (by rw [upToSemicolon_shift]; rfl)
  | jump leaves hword hr =>
    subst hr
    exact .jump leaves hword (by rw [upToSemicolon_shift]; rfl)
  | assign name value hword hname hvalue hr =>
    subst hr
    exact .assign name value hword hname hvalue (by rw [upToSemicolon_shift]; rfl)
  | conditional loops hword hr =>
    subst hr
    exact .conditional loops hword (by rw [Nat.add_assoc, readConditional_shift loops n])
  | otherwise hword hif hr =>
    subst hr
    exact .otherwise hword hif (by rw [Nat.add_assoc, readBody_shift n]; rfl)
  | elseIf hword hif hnone hr =>
    subst hr
    refine .elseIf hword hif ?_ ?_
    · rwa [behindInnerIf_shift]
    · rw [innerIf_shift]
      rfl
  | elseIfElse hword hif hagain hr =>
    subst hr
    refine .elseIfElse hword hif ?_ ?_
    · rwa [behindInnerIf_shift]
    · have hlater : 0 < behindInnerIf start t := by
        unfold behindInnerIf
        omega
      have hless := Text.length_dropBytes_lt hlater (ne_nil_of_word? hword)
      rw [behindInnerIf_shift, innerIf_shift, Nat.add_assoc, readFirst_shift n _ (dropBytes (behindInnerIf start t) t)]
      rfl
termination_by t.length

private theorem readAll_shift (n start : Nat) (t : Text) :
    readAll (n + start) t = (readAll start t).map fun s => (n + s.1, s.2.shift n) := by
  fun_induction readAll start t with
  | case1 start t rest h =>
    rw [readAll]
    exact dif_pos h
  | case2 start t first rest h first' stop hfirst size _ ih =>
    have hsize : max 1 (n + stop - (n + first)) = size := by rw [Nat.add_sub_add_left]
    have hread := readFirst_shift n first rest
    rw [hfirst] at hread
    rw [readAll]
    simp only [Nat.add_assoc n, List.map_cons]
    rw [dif_neg h]
    simp only [first, rest] at hread hsize ih
    simp only [hread, hsize, ih]
    rfl

end Statement

namespace Parse

section
variable {α : Type} {x y z : Parse α}

theorem Same.symm (h : Same x y) : Same y x := by
  rintro s _ rfl
  obtain ⟨hstate, hresult⟩ := h s s rfl
  refine ⟨hstate.symm, ?_⟩
  cases hx : (x.run.run s).1 <;> cases hy : (y.run.run s).1 <;> rw [hx, hy] at hresult
  · trivial
  · exact hresult.elim
  · exact hresult.elim
  · exact Eq.symm hresult

theorem Same.trans (h : Same x y) (h' : Same y z) : Same x z := by
  rintro s _ rfl
  obtain ⟨hstate, hresult⟩ := h s s rfl
  obtain ⟨hstate', hresult'⟩ := h' s s rfl
  refine ⟨hstate.trans hstate', ?_⟩
  cases hx : (x.run.run s).1 <;> cases hy : (y.run.run s).1 <;> cases hz : (z.run.run s).1 <;>
    rw [hx, hy] at hresult <;> rw [hy, hz] at hresult'
  · trivial
  · exact hresult'.elim
  · exact hresult.elim
  · exact hresult.elim
  · exact hresult.elim
  · exact hresult.elim
  · exact hresult'.elim
  · exact Eq.trans hresult hresult'

/-- What holds of all values of one computation holds of those of both. -/
theorem Same.and {Q : α → Prop} (h : Same x y) (hy : Always (fun _ => True) y Q) :
    Agree Eq (fun _ _ => True) x y fun a b => a = b ∧ Q b := by
  rintro s _ rfl
  obtain ⟨hstate, hresult⟩ := h s s rfl
  have hvalue := (hy s trivial).2
  refine ⟨hstate, ?_⟩
  cases hx : (x.run.run s).1 <;> cases hy : (y.run.run s).1 <;> rw [hx, hy] at hresult <;> rw [hy] at hvalue
  · trivial
  · exact hresult.elim
  · exact hresult.elim
  · exact ⟨hresult, hvalue⟩

end

def finish (scope : Scope) (r : List Action × Scope) : Block × Scope :=
  (⟨r.1, r.2.locals.drop scope.locals.length, scope.locals.length, r.2.frameSize⟩,
    { r.2 with locals := r.2.locals.take scope.locals.length })

theorem parseBlock_finish (env : Environment) (t : Text) (o : Nat) (scope : Scope) :
    parseBlock env t o scope = finish scope <$> statements (blockContext env t o) scope [] (Statement.readAll 0 t) := by
  rw [parseBlock_eq, map_eq_pure_bind]
  rfl

variable {env : Environment} {x m y : Text} {o o' : Nat} {scope : Scope} {done : List Action}

/-- What is cut out of a text in which another one stands. -/
private theorem slice_inside {start stop : Nat} (h : IsCut m start stop) (x y : Text) :
    slice (x ++ m ++ y) (byteLength x + start) (byteLength x + stop) = slice m start stop := by
  have hmiddle := IsCut.middle x m y
  have hslice := Text.slice_append x m y
  rw [← hslice] at h
  rw [← (hmiddle.outer h).2, hslice]

/-- An expression between other texts. -/
private theorem expression_inside {start stop : Nat} (h : IsCut m start stop) (scope : Scope) :
    Same ((blockContext env (x ++ m ++ y) o).expression (byteLength x + start) (byteLength x + stop) scope)
      ((blockContext env m o').expression start stop scope) := by
  unfold blockContext
  simp only
  rw [slice_inside h]
  exact parseExpression_same env _ _ _ ⟨rfl, rfl, rfl⟩ _

private theorem body_inside {code : Body} (h : code.Within m) (scope : Scope) :
    Same (body (blockContext env (x ++ m ++ y) o) scope (code.shift (byteLength x)))
      (body (blockContext env m o') scope code) := by
  cases code with
  | missing place => exact .throw trivial
  | unclosed brace => exact .throw trivial
  | braced brace stop =>
    have hcut : IsCut m (brace + 1) (stop - 1) := h
    have hordered := hcut.ordered
    have hstop : byteLength x + stop - 1 = byteLength x + (stop - 1) := by omega
    simp only [body, Body.shift, blockContext]
    rw [hstop, Nat.add_assoc (byteLength x), slice_inside hcut]
    exact parseBlock_same env _ _ _ scope
  | bare start stop =>
    obtain ⟨hpos, hcut⟩ : 0 < start ∧ IsCut m start stop := h
    have hstart : byteLength x + start - 1 + 1 = byteLength x + start := by omega
    have hstart' : start - 1 + 1 = start := by omega
    simp only [body, Body.shift, blockContext]
    rw [hstart, hstart', slice_inside hcut]
    exact parseBlock_same env _ _ _ scope

private theorem condition_inside {head : Condition} (h : head.Within m) (scope : Scope) :
    Same (condition (blockContext env (x ++ m ++ y) o) scope (head.shift (byteLength x)))
      (condition (blockContext env m o') scope head) := by
  cases head with
  | noParenthesis found place => exact .throw trivial
  | unclosed parenthesis => exact .throw trivial
  | closed parenthesis stop =>
    have hcut : IsCut m (parenthesis + 1) (stop - 1) := h
    have hordered := hcut.ordered
    have hstop : byteLength x + stop - 1 = byteLength x + (stop - 1) := by omega
    simp only [condition, Condition.shift]
    rw [hstop, Nat.add_assoc]
    exact expression_inside hcut scope

private theorem jump_inside {rest stop : Nat} (h : IsCut m rest stop) (scope : Scope) (leaves : Bool) (start : Nat) :
    Coincide (fun _ _ => True) Eq
      (jump (blockContext env (x ++ m ++ y) o) scope leaves (byteLength x + start) (byteLength x + rest)
        (byteLength x + stop))
      (jump (blockContext env m o') scope leaves start rest stop) := by
  unfold jump
  simp only [blockContext, slice_inside h]
  refine .ite (fun _ => ?_) fun _ => .ite (fun _ => rfl) fun _ => trivial
  cases leaves <;> trivial

/-- A statement of the text between other texts. -/
theorem statement_inside {s : Statement} (h : s.Within m) (scope : Scope) (previous : Option Action) :
    Same (statement (blockContext env (x ++ m ++ y) o) scope previous (s.shift (byteLength x)))
      (statement (blockContext env m o') scope previous s) := by
  cases s with
  | expression start stop =>
    unfold statement
    exact Agree.bind (expression_inside h _) fun t _ ht => ht ▸ .pure rfl
  | giveBack start stop =>
    unfold statement
    exact Agree.bind (expression_inside h _) fun t _ ht => ht ▸ .pure rfl
  | jump leaves start rest stop =>
    obtain ⟨-, hcut⟩ : start ≤ byteLength m ∧ IsCut m rest stop := h
    simp only [Statement.shift, statement]
    exact Agree.bind (Agree.lift (jump_inside hcut _ _ _)) fun a _ ha => ha ▸ .pure rfl
  | assign name start value stop =>
    obtain ⟨-, hcut⟩ : start ≤ byteLength m ∧ IsCut m value stop := h
    simp only [Statement.shift, statement]
    unfold assign
    refine .ite (fun _ => .throw trivial) fun _ => ?_
    refine Agree.bind (expression_inside hcut _) fun t _ ht => ?_
    subst ht
    exact Agree.self (fun _ => trivial) _
  | conditional loops head code =>
    obtain ⟨hhead, hcode⟩ : head.Within m ∧ code.Within m := h
    simp only [Statement.shift, statement]
    refine Agree.bind (condition_inside hhead _) fun t _ ht => ?_
    subst ht
    exact Agree.bind (body_inside hcode _) fun r _ hr => hr ▸ .pure rfl
  | otherwise start code =>
    obtain ⟨-, hcode⟩ : start ≤ byteLength m ∧ code.Within m := h
    simp only [Statement.shift, statement]
    refine .ite (fun _ => .throw trivial) fun _ => ?_
    exact Agree.bind (body_inside hcode _) fun r _ hr => hr ▸ .pure rfl
  | otherwiseIf start first alternative =>
    cases alternative with
    | none =>
      obtain ⟨-, hfirst⟩ : start ≤ byteLength m ∧ first.Within m := h
      simp only [Statement.shift, statement]
      refine .ite (fun _ => .throw trivial) fun _ => ?_
      exact Agree.bind (statement_inside hfirst _ _) fun r _ hr => hr ▸ .pure rfl
    | some second =>
      obtain ⟨-, hfirst, hsecond⟩ : start ≤ byteLength m ∧ first.Within m ∧ second.Within m := h
      simp only [Statement.shift, statement]
      refine .ite (fun _ => .throw trivial) fun _ => ?_
      refine Agree.bind (statement_inside hfirst _ _) fun r _ hr => ?_
      subst hr
      exact Agree.bind (statement_inside hsecond _ _) fun r _ hr => hr ▸ .pure rfl

/-- All statements of the text between other texts. -/
theorem statements_inside {list : List (Nat × Statement)} (h : ∀ s ∈ list, s.2.Within m) (scope : Scope)
    (done : List Action) :
    Same (statements (blockContext env (x ++ m ++ y) o) scope done
        (list.map fun s => (byteLength x + s.1, s.2.shift (byteLength x))))
      (statements (blockContext env m o') scope done list) := by
  induction list generalizing scope done with
  | nil => exact .pure rfl
  | cons s list ih =>
    obtain ⟨hs, hlist⟩ := List.forall_mem_cons.mp h
    rw [List.map_cons]
    unfold statements
    refine .ite (fun _ => .throw trivial) fun _ => ?_
    refine Agree.bind (statement_inside hs scope _) fun r _ hr => ?_
    subst hr
    exact ih hlist _ _

/-- The statements behind a text are parsed as those of a text of their own. -/
theorem statements_behind (front r : Text) :
    Same (statements (blockContext env (front ++ r) o) scope done (Statement.readAll (byteLength front) r))
      (statements (blockContext env r 0) scope done (Statement.readAll 0 r)) := by
  have hshift := Statement.readAll_shift (byteLength front) 0 r
  rw [Nat.add_zero] at hshift
  rw [hshift]
  have hwithin (s : Nat × Statement) (hs : s ∈ Statement.readAll 0 r) : s.2.Within r :=
    ((Statement.readAll_checks (.self r)).2 s hs).2
  rw [← List.append_nil (front ++ r)]
  exact statements_inside hwithin scope done

end Parse
end Reckoner
