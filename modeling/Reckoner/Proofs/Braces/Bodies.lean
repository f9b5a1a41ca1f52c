import Reckoner.Proofs.Braces.Sole
import Reckoner.Proofs.Relocation.Statement

/-! Bodies behind a condition or an `else`. A statement as a body is parsed as the text of the statement is parsed by
itself, in braces as well as without them. -/
namespace Reckoner

open Parse (Same blockContext)
open Render (parenthesized braced)
open Statement (Separates readAll readBody word? conditionalWord)
open Text (byteLength dropBytes)

/-- What stands between two brackets. -/
private theorem Text.slice_group {p q : Char} (hp : Partners p q) (front c u : Text) :
    slice (front ++ (p :: c ++ [q]) ++ u) (byteLength front + 1) (byteLength (front ++ (p :: c ++ [q])) - 1) = c := by
  have hopen : p.utf8Size = 1 := by cases hp <;> rfl
  have hclose : q.utf8Size = 1 := by cases hp <;> rfl
  have htext : front ++ (p :: c ++ [q]) ++ u = front ++ [p] ++ c ++ q :: u := by simp
  have hstart : byteLength front + 1 = byteLength (front ++ [p]) := by simp [hopen]
  have hstop : byteLength (front ++ (p :: c ++ [q])) - 1 = byteLength (front ++ [p]) + byteLength c := by
    simp only [List.cons_append, byteLength_append, byteLength_cons, byteLength_nil, hopen, hclose]
    omega
  rw [htext, hstart, hstop, slice_append]

namespace Parse
variable {env : Environment} {o : Nat} {scope : Scope} {done : List Action}

/-- The statements behind those that are read already, and behind separators. -/
theorem statements_rest {m : Text} (hm : Separates m) (front r : Text) :
    Same (statements (blockContext env (front ++ (m ++ r)) o) scope done (readAll (byteLength front) (m ++ r)))
      (statements (blockContext env r 0) scope done (readAll 0 r)) := by
  rw [Statement.readAll_separators hm, ← Text.byteLength_append, ← List.append_assoc]
  exact statements_behind (front ++ m) r

end Parse

namespace Statement.Sole
variable {env : Environment} {scope : Scope} {o o' : Nat} {k x b z u : Text} {f : Nat → Statement}

theorem start_ready (h : Sole k x b z f) (u : Text) : Ready (x ++ u) := by
  have hready := h.ready
  cases x with
  | nil => exact absurd rfl h.bare.ne_nil
  | cons c x => exact hready

/-- The statement is the first one, wherever the text stands. -/
theorem readAll_eq (h : Sole k x b z f) (hu : u.Follows) (start : Nat) :
    readAll start (x ++ (b ++ u)) = (start, f start) :: readAll (start + byteLength (x ++ b)) u := by
  have hb : Separates b := fun d hd => .inl (h.behind d hd)
  rw [readAll_cons (h.start_ready _) h.bare.ne_nil (h.reads start hu), readAll_separators hb, Text.byteLength_append,
    Nat.add_assoc]

theorem place_eq (h : Sole k x b z f) (n : Nat) : f n = (f 0).shift n := by
  have hshift := readFirst_shift n 0 (x ++ (b ++ z))
  rw [Nat.add_zero, h.reads n h.follows, h.reads 0 h.follows] at hshift
  exact congrArg Prod.fst hshift

/-- What stands around the statement and the blanks behind it does not matter. -/
theorem parseBlock_same (h : Sole k x b z f) :
    Same (parseBlock env (x ++ b) o scope) (parseBlock env (k ++ (x ++ (b ++ z))) o' scope) := by
  have hk : Separates k := fun d hd => .inl (h.front d hd)
  have hshort := h.readAll_eq (.inl rfl) 0
  have hlong := h.readAll_eq h.follows (byteLength k)
  rw [List.append_nil, readAll_nil] at hshort
  rw [readAll_nil_of_separates h.separates, h.place_eq] at hlong
  have hwithin (s : Nat × Statement) (hs : s ∈ [(0, f 0)]) : s.2.Within (x ++ b) :=
    ((readAll_checks (.self (x ++ b))).2 s (hshort ▸ hs)).2
  have hinside : Same
      (Parse.statements (blockContext env (k ++ (x ++ b) ++ z) o') scope []
        [(byteLength k + 0, (f 0).shift (byteLength k))])
      (Parse.statements (blockContext env (x ++ b) o) scope [] [(0, f 0)]) :=
    Parse.statements_inside hwithin scope []
  rw [Parse.parseBlock_finish, Parse.parseBlock_finish, readAll_separators hk, Nat.zero_add, hshort, hlong]
  refine Agree.map (Same.symm ?_ |>.mono fun r _ hr => congrArg _ hr)
  simpa using hinside

theorem follows_append {r : Text} (h : Sole k x b z f) (hr : r.Follows) : (z ++ r).Follows := by
  rcases h.follows with rfl | ⟨next, rfl⟩
  · exact hr
  · exact .inr ⟨next ++ r, rfl⟩

/-- The whole text closes its brackets. -/
theorem steady (h : Sole k x b z f) : (k ++ (x ++ (b ++ z))).Steady false := by
  obtain ⟨a, hfront, ha⟩ := Text.Crosses.blanks h.front false (x ++ (b ++ z))
  obtain rfl : a = false := ha.elim id id
  obtain ⟨c, hstatement⟩ := Text.Crosses.closed h.closed h.follows.breaks
  obtain ⟨d, hbehind, -⟩ := Text.Passes.separators h.separates c []
  rw [List.append_nil] at hbehind
  rw [List.append_assoc] at hstatement
  exact ((hfront.passes.trans hstatement.passes).trans hbehind).steady

end Statement.Sole

namespace Parse
variable {env : Environment} {o : Nat} {scope : Scope} {front v s w r u written rest : Text} {code : Body}

/-- Behind the text `front` a body is written, which is parsed as the block `s`. -/
structure BodyStands (env : Environment) (front v s : Text) (code : Body) (written rest : Text) : Prop where
  text : v = written ++ rest
  read : readBody (byteLength front) v = (code, byteLength front + byteLength written)
  parse (o : Nat) (scope : Scope) : Same (body (blockContext env (front ++ v) o) scope code) (parseBlock env s 0 scope)

theorem stands_braced (env : Environment) (front r : Text) (hs : s.Steady false) :
    ∃ code, BodyStands env front (braced s ++ r) s code (braced s) r := by
  have hread := Statement.reads_braced (List.forall_mem_nil _) hs (byteLength front) r
  refine ⟨_, rfl, hread, fun o scope => ?_⟩
  have hslice : Text.slice (front ++ braced s ++ r) (byteLength front + 1) (byteLength (front ++ braced s) - 1) = s :=
    Text.slice_group .braces front s r
  simp only [body, blockContext]
  rw [List.nil_append, Text.byteLength_nil, Nat.add_zero, ← Text.byteLength_append, ← List.append_assoc, hslice]
  exact parseBlock_same env s _ _ scope

theorem stands_bare (env : Environment) (front : Text) {k : Text} (hk : ∀ d ∈ k, Text.isBlank d) (hne : k ≠ [])
    (hw : Statement.Bare w) (hclosed : w.Closed) (hu : u.Follows) :
    ∃ code, BodyStands env front (k ++ w ++ u) w code (k ++ w) u := by
  have hread := Statement.reads_bare hk hw hclosed hu (byteLength front)
  refine ⟨_, rfl, hread, fun o scope => ?_⟩
  have hpos : 0 < byteLength k := Nat.pos_of_ne_zero fun hz => hne (Text.eq_nil_of_byteLength hz)
  have hslice := Text.slice_append (front ++ k) w u
  have htext : front ++ k ++ w ++ u = front ++ (k ++ w ++ u) := by simp
  have hstart : byteLength (front ++ k) = byteLength front + byteLength k - 1 + 1 := by
    rw [Text.byteLength_append]
    omega
  have hstop : byteLength front + byteLength k - 1 + 1 + byteLength w = byteLength front + byteLength (k ++ w) := by
    rw [Text.byteLength_append]
    omega
  rw [htext, hstart, hstop] at hslice
  simp only [body, blockContext]
  rw [hslice]
  exact parseBlock_same env w _ _ scope

def conditional (env : Environment) (loops : Bool) (c s : Text) (scope : Scope) : Parse (Action × Scope) := do
  let t ← parseExpression env c 0 scope {}
  let (b, inner) ← parseBlock env s 0 { scope with inLoop := scope.inLoop || loops }
  return (if loops then .loop t b else .when t b, { inner with inLoop := scope.inLoop })

def alternative (env : Environment) (s : Text) (scope : Scope) (previous : Option Action) : Parse (Action × Scope) := do
  if !isWhen previous then throw (.danglingElse 0)
  let (b, last) ← parseBlock env s 0 scope
  return (.otherwise b, last)

/-- What is read for a condition with a body behind it, and how it is parsed. -/
theorem conditional_stands (o : Nat) (scope : Scope) (loops : Bool) {c : Text} (hc : c.Steady false)
    (h : BodyStands env (conditionalWord loops ++ parenthesized c) v s code written rest) :
    ∃ first, readAll 0 (conditionalWord loops ++ parenthesized c ++ v) =
        (0, first) :: readAll (byteLength (conditionalWord loops ++ parenthesized c ++ written)) rest ∧
      ∀ previous, Same
        (statement (blockContext env (conditionalWord loops ++ parenthesized c ++ v) o) scope previous first)
        (conditional env loops c s scope) := by
  obtain ⟨hbare, hready⟩ := Statement.bare_of_isName (Statement.conditionalWord_isName loops) (parenthesized c ++ v)
  have hread := Statement.reads_conditional loops (List.forall_mem_nil _) hc 0 v
  have hplace : Statement.behindCondition 0 loops [] c = byteLength (conditionalWord loops ++ parenthesized c) := by
    simp [Statement.behindCondition]
  rw [hplace, h.read, List.nil_append, Text.byteLength_nil, Nat.add_zero, Nat.zero_add] at hread
  have hsplit : conditionalWord loops ++ parenthesized c ++ v =
      conditionalWord loops ++ parenthesized c ++ written ++ rest := by rw [h.text]; simp
  have hstop : byteLength (conditionalWord loops ++ parenthesized c) + byteLength written =
      0 + byteLength (conditionalWord loops ++ parenthesized c ++ written) := by
    rw [Nat.zero_add, ← Text.byteLength_append]
  refine ⟨.conditional loops (.closed (byteLength (conditionalWord loops))
    (byteLength (conditionalWord loops ++ parenthesized c))) code, ?_, fun previous => ?_⟩
  · have hne : conditionalWord loops ++ parenthesized c ++ written ≠ [] := by
      cases loops <;> exact List.cons_ne_nil _ _
    rw [hstop, ← List.append_assoc, hsplit] at hread
    rw [← List.append_assoc, hsplit] at hready
    rw [hsplit, Statement.readAll_cons hready hne hread, Nat.zero_add]
  · have hslice : Text.slice (conditionalWord loops ++ parenthesized c ++ v) (byteLength (conditionalWord loops) + 1)
        (byteLength (conditionalWord loops ++ parenthesized c) - 1) = c :=
      Text.slice_group .parentheses (conditionalWord loops) c v
    have hcondition : Same (condition (blockContext env (conditionalWord loops ++ parenthesized c ++ v) o) scope
        (.closed (byteLength (conditionalWord loops)) (byteLength (conditionalWord loops ++ parenthesized c))))
        (parseExpression env c 0 scope {}) := by
      simp only [condition, blockContext]
      rw [hslice]
      exact parseExpression_same env _ _ _ ⟨rfl, rfl, rfl⟩ _
    unfold statement conditional
    refine Agree.bind hcondition fun t _ ht => ?_
    subst ht
    exact Agree.bind (h.parse o _) fun r _ hr => hr ▸ .pure rfl

structure ElseStands (env : Environment) (front v s : Text) (written rest : Text) (next : Statement) : Prop where
  text : v = written ++ rest
  read : readAll (byteLength front) ("else".toList ++ v) =
    (byteLength front, next) :: readAll (byteLength (front ++ "else".toList ++ written)) rest
  parse (o : Nat) (scope : Scope) (previous : Option Action) :
    Same (statement (blockContext env (front ++ ("else".toList ++ v)) o) scope previous next)
      (alternative env s scope previous)

/-- What is read for an `else` with a body behind it, and how it is parsed. -/
theorem alternative_stands (front : Text) (hv : ∀ d ∈ v.head?, Lexeme.isNameChar d = false)
    (hif : word? (Text.trimStart v) ≠ some "if".toList)
    (h : BodyStands env (front ++ "else".toList) v s code written rest) :
    ∃ next, ElseStands env front v s written rest next := by
  have hname : Text.IsName "else".toList := by decide
  have hfour : (4 : Nat) = byteLength "else".toList := rfl
  have hdrop : dropBytes 4 ("else".toList ++ v) = v := Text.dropBytes_byteLength "else".toList v
  have hbehind : dropBytes (Statement.behindElse ("else".toList ++ v)) ("else".toList ++ v) = Text.trimStart v := by
    rw [Statement.behindElse, hdrop, hfour, Text.dropBytes_append]
    exact Text.dropBytes_takeWhile Text.isBlank v
  have hplace : byteLength front + 4 = byteLength (front ++ "else".toList) :=
    (Text.byteLength_append front "else".toList).symm
  have hread : Statement.readFirst (byteLength front) ("else".toList ++ v) = _ :=
    Statement.Reads.eq (.otherwise (Statement.word?_name hname hv) (hbehind ▸ hif) rfl)
  rw [hdrop, hplace, h.read] at hread
  have hsplit : "else".toList ++ v = "else".toList ++ written ++ rest := by rw [h.text, List.append_assoc]
  have hstop : byteLength (front ++ "else".toList) + byteLength written =
      byteLength front + byteLength ("else".toList ++ written) := by
    simp only [Text.byteLength_append, Nat.add_assoc]
  refine ⟨.otherwise (byteLength front) code, h.text, ?_, fun o scope previous => ?_⟩
  · obtain ⟨-, hready⟩ := Statement.bare_of_isName hname v
    have hne : "else".toList ++ written ≠ [] := List.cons_ne_nil _ _
    rw [hstop, hsplit] at hread
    rw [hsplit] at hready
    rw [hsplit, Statement.readAll_cons hready hne hread, ← Text.byteLength_append, List.append_assoc]
  · have hparse := h.parse o scope
    rw [List.append_assoc] at hparse
    unfold statement alternative
    refine .ite (fun _ => .throw trivial) fun _ => ?_
    exact Agree.bind hparse fun r _ hr => hr ▸ .pure rfl

end Parse

namespace Statement.Sole
variable {env : Environment} {k x b z : Text} {f : Nat → Statement} {r : Text}

/-- The statement as a body without braces. -/
theorem stands_bare (h : Sole k x b z f) (env : Environment) (front : Text) (hr : r.Follows) :
    ∃ code, Parse.BodyStands env front (' ' :: (k ++ (x ++ (b ++ z)) ++ r)) (k ++ (x ++ (b ++ z))) code
      (' ' :: k ++ (x ++ b)) (z ++ r) := by
  have hblank : ∀ d ∈ ' ' :: k, Text.isBlank d := List.forall_mem_cons.mpr ⟨by decide, h.front⟩
  obtain ⟨code, htext, hread, hparse⟩ := Parse.stands_bare env front hblank (List.cons_ne_nil _ _) (h.bare.append b)
    h.closed (h.follows_append hr)
  have hjoin : ' ' :: k ++ (x ++ b) ++ (z ++ r) = ' ' :: (k ++ (x ++ (b ++ z)) ++ r) := by simp
  rw [hjoin] at hread hparse
  exact ⟨code, hjoin.symm, hread, fun o scope => (hparse o scope).trans h.parseBlock_same⟩

end Statement.Sole
end Reckoner
