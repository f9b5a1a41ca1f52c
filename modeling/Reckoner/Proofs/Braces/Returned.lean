import Reckoner.Proofs.Accepted
import Reckoner.Proofs.Cutting.Statements
import Reckoner.Proofs.Pieces
import Reckoner.Proofs.Scoping.Statement
import Mathlib.Data.List.TakeWhile

/-! What a block that the parser accepts is made of: expressions that it accepts, and bodies that are blocks it
accepts. -/
namespace Reckoner

open Text (slice)

namespace Parse

def Returns {α : Type} (x : Parse α) (a : α) : Prop := ∃ s, (x.run.run s).1 = .ok a

section
variable {α β : Type} {x : Parse α} {f : α → Parse β} {a : α} {b : β}

theorem Returns.bind (h : Returns (x >>= f) b) : ∃ a, Returns x a ∧ Returns (f a) b := by
  obtain ⟨s, hs⟩ := h
  rw [run_bind] at hs
  cases hx : (x.run.run s).1 with
  | error e =>
    rw [hx] at hs
    cases hs
  | ok a =>
    rw [hx] at hs
    exact ⟨a, ⟨s, hx⟩, _, hs⟩

theorem not_returns_throw {e : ParseError} : ¬Returns (throw e : Parse α) a := by
  rintro ⟨s, hs⟩
  cases hs

private theorem Returns.ofExcept {r : Except ParseError α} (h : Returns (Parse.ofExcept r) a) : r = .ok a := by
  obtain ⟨s, hs⟩ := h
  exact hs

/-- What holds of all values holds of this one. -/
private theorem Returns.always {Q : α → Prop} (h : Returns x a) (hx : Always (fun _ => True) x Q) : Q a := by
  obtain ⟨s, hs⟩ := h
  have hend := (hx s trivial).2
  rwa [hs] at hend

end

end Parse

open Parse (Returns)

def Text.Accepted (t : Text) : Prop := ∃ env offset scope r, Returns (parseBlock env t offset scope) r

def Statement.Accepted (t : Text) (s : Statement) : Prop :=
  ∃ env offset scope previous r, Returns (Parse.statement (Parse.blockContext env t offset) scope previous s) r

structure Text.Sound (t : Text) : Prop where
  closed : t.Closed
  ne_nil : t ≠ []
  unbraced : t.tokens.head? ≠ some .leftBrace

private theorem Parse.Returns.sound {env : Environment} {t : Text} {offset : Nat} {scope : Scope} {tree : Tree}
    (h : Returns (parseExpression env t offset scope {}) tree) : t.Sound := by
  have hacceptable := h.always (parseExpression_acceptable env t offset scope {})
  have hunbraced := h.always (parseExpression_unbraced env t offset scope {})
  exact ⟨hacceptable.closed .semicolon rfl, hacceptable.ne_nil, hunbraced⟩

/-- A text of which nothing is left when it is trimmed. -/
private theorem Text.isBlank_of_trim {t : Text} (h : Text.trim t = []) : ∀ d ∈ t, Text.isBlank d := by
  have hall : ∀ d ∈ Text.trimStart t, Text.isBlank d := by
    rw [Text.trim, Text.trimEnd, List.reverse_eq_nil_iff, List.dropWhile_eq_nil_iff] at h
    exact fun d hd => h d (List.mem_reverse.mpr hd)
  intro d hd
  rw [← Text.takeWhile_append_trimStart t] at hd
  rcases List.mem_append.mp hd with hd | hd
  · exact List.all_eq_true.mp List.all_takeWhile d hd
  · exact hall d hd

namespace Statement
variable {t : Text} {start stop place rest value : Nat} {name : Text} {leaves loops : Bool} {head : Condition}
  {code : Body} {first second : Statement}

theorem Accepted.expression (h : Accepted t (.expression start stop)) : (slice t start stop).Sound := by
  obtain ⟨env, offset, scope, previous, r, h⟩ := h
  obtain ⟨tree, htree, -⟩ := h.bind
  exact htree.sound

theorem Accepted.giveBack (h : Accepted t (.giveBack start stop)) : (slice t start stop).Sound := by
  obtain ⟨env, offset, scope, previous, r, h⟩ := h
  obtain ⟨tree, htree, -⟩ := h.bind
  exact htree.sound

theorem Accepted.assign (h : Accepted t (.assign name place start stop)) : (slice t start stop).Sound := by
  obtain ⟨env, offset, scope, previous, r, h⟩ := h
  rw [Parse.statement, Parse.assign] at h
  split at h
  · exact (Parse.not_returns_throw h).elim
  · obtain ⟨tree, htree, -⟩ := h.bind
    exact htree.sound

theorem Accepted.jump (h : Accepted t (.jump leaves start rest stop)) : ∀ d ∈ slice t rest stop, Text.isBlank d := by
  obtain ⟨env, offset, scope, previous, r, h⟩ := h
  obtain ⟨action, haction, -⟩ := h.bind
  have haction := haction.ofExcept
  unfold Parse.jump at haction
  split at haction
  · cases haction
  simp only at haction
  split at haction
  · rename_i hempty
    exact Text.isBlank_of_trim (List.isEmpty_iff.mp hempty)
  · cases haction

theorem Accepted.bare (h : Accepted t (.conditional loops head (.bare start stop))) (hs : 0 < start) :
    (slice t start stop).Accepted := by
  obtain ⟨env, offset, scope, previous, r, h⟩ := h
  obtain ⟨tree, -, h⟩ := h.bind
  obtain ⟨block, hblock, -⟩ := h.bind
  have hstart : start - 1 + 1 = start := by omega
  rw [Parse.body, Parse.blockContext] at hblock
  simp only [hstart] at hblock
  exact ⟨_, _, _, _, hblock⟩

theorem Accepted.otherwise (h : Accepted t (.otherwise place (.bare start stop))) (hs : 0 < start) :
    (slice t start stop).Accepted := by
  obtain ⟨env, offset, scope, previous, r, h⟩ := h
  rw [Parse.statement] at h
  split at h
  · exact (Parse.not_returns_throw h).elim
  obtain ⟨block, hblock, -⟩ := h.bind
  have hstart : start - 1 + 1 = start := by omega
  rw [Parse.body, Parse.blockContext] at hblock
  simp only [hstart] at hblock
  exact ⟨_, _, _, _, hblock⟩

theorem Accepted.elseIf {alternative : Option Statement} (h : Accepted t (.otherwiseIf place first alternative)) :
    Accepted t first ∧ ∀ second ∈ alternative, Accepted t second := by
  obtain ⟨env, offset, scope, previous, r, h⟩ := h
  rw [Parse.statement] at h
  split at h
  · exact (Parse.not_returns_throw h).elim
  obtain ⟨next, hfirst, h⟩ := h.bind
  refine ⟨⟨_, _, _, _, _, hfirst⟩, fun second hsecond => ?_⟩
  obtain rfl := Option.mem_def.mp hsecond
  obtain ⟨last, hsecond, -⟩ := h.bind
  exact ⟨_, _, _, _, _, hsecond⟩

end Statement

namespace Parse
variable {c : BlockContext} {scope : Scope} {done : List Action} {l : List (Nat × Statement)} {r : List Action × Scope}

theorem Returns.statements {place : Nat} {s : Statement}
    (h : Returns (statements c scope done ((place, s) :: l)) r) :
    ∃ next, Returns (statement c scope done.head? s) next ∧
      Returns (Parse.statements c next.2 (next.1 :: done) l) r := by
  rw [Parse.statements] at h
  split at h
  · exact (not_returns_throw h).elim
  exact h.bind

/-- Each statement becomes an action. -/
private theorem Returns.length_eq (h : Returns (Parse.statements c scope done l) r) :
    r.1.length = done.length + l.length := by
  induction l generalizing scope done with
  | nil =>
    obtain ⟨s, hs⟩ := h
    obtain rfl := Except.ok.inj hs
    exact List.length_reverse
  | cons s l ih =>
    obtain ⟨next, -, hrest⟩ := h.statements
    rw [ih hrest, List.length_cons, List.length_cons]
    omega

section
variable {env : Environment} {t : Text} {offset : Nat} {scope : Scope} {r : Block × Scope}

/-- The actions of a block are those of its statements. -/
theorem Returns.actions (h : Returns (parseBlock env t offset scope) r) :
    ∃ list, Returns (Parse.statements (blockContext env t offset) scope [] (Statement.readAll 0 t)) list ∧
      list.1 = r.1.actions := by
  rw [parseBlock_eq] at h
  obtain ⟨list, hall, hblock⟩ := h.bind
  obtain ⟨_, hs⟩ := hblock
  obtain rfl := Except.ok.inj hs
  exact ⟨list, hall, rfl⟩

/-- A block has as many actions as its text has statements. -/
theorem Returns.length_actions (h : Returns (parseBlock env t offset scope) r) :
    r.1.actions.length = (Statement.readAll 0 t).length := by
  obtain ⟨list, hall, hactions⟩ := h.actions
  rw [← hactions, hall.length_eq, List.length_nil, Nat.zero_add]

end

end Parse

/-- The statements of a block that is accepted. -/
theorem Text.Accepted.statements {t : Text} (h : t.Accepted) : ∀ s ∈ Statement.readAll 0 t, s.2.Accepted t := by
  obtain ⟨env, offset, scope, r, h⟩ := h
  obtain ⟨list, hall, -⟩ := h.actions
  have hlist (l : List (Nat × Statement)) (scope : Scope) (done : List Action) {r : List Action × Scope}
      (h : Returns (Parse.statements (Parse.blockContext env t offset) scope done l) r) :
      ∀ s ∈ l, s.2.Accepted t := by
    induction l generalizing scope done with
    | nil => nofun
    | cons s l ih =>
      obtain ⟨next, hfirst, hrest⟩ := h.statements
      exact List.forall_mem_cons.mpr ⟨⟨_, _, _, _, _, hfirst⟩, ih _ _ hrest⟩
  exact hlist _ _ _ hall

/-- The statement of a block that is accepted as one action. -/
theorem Parse.Returns.single {env : Environment} {t : Text} {offset : Nat} {scope : Scope} {r : Block × Scope}
    (h : Returns (parseBlock env t offset scope) r) (hone : r.1.actions.length = 1) :
    ∃ place s, Statement.readAll 0 t = [(place, s)] ∧
      ∃ next, Returns (Parse.statement (Parse.blockContext env t offset) scope none s) next := by
  obtain ⟨list, hall, -⟩ := h.actions
  obtain ⟨⟨place, s⟩, hlist⟩ := List.length_eq_one_iff.mp (h.length_actions.symm.trans hone)
  rw [hlist] at hall
  obtain ⟨next, hfirst, -⟩ := hall.statements
  exact ⟨place, s, hlist, next, hfirst⟩

/-- No `else` stands first. -/
theorem Parse.Returns.not_isElse {c : Parse.BlockContext} {scope : Scope} {s : Statement} {r : Action × Scope}
    (h : Returns (Parse.statement c scope none s) r) : s.isElse = false := by
  rw [← Bool.not_eq_true]
  intro helse
  unfold Statement.isElse at helse
  split at helse
  · exact not_returns_throw h
  · rw [Parse.statement] at h
    exact not_returns_throw h
  · cases helse

end Reckoner
