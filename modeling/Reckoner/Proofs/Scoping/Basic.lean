import Reckoner.Parse.Statement
import Reckoner.Proofs.Lexing

/-! What the parser promises about the slots of a tree or a block: the scope in which each part stands is
read off the syntax alone, statement by statement. -/
namespace Reckoner

/-- What an assignment to a name writes to and the scope behind it; a name that is not in sight is
declared. -/
inductive Scope.Assigns (s : Scope) (name : Text) : Target → Scope → Prop
  | argument {index : Nat} (h : s.argument? name = some index) : Assigns s name (.argument index) s
  | localVariable {slot : Nat} (ha : s.argument? name = none) (h : s.local? name = some slot) :
    Assigns s name (.localVariable slot) s
  | declared (ha : s.argument? name = none) (h : s.local? name = none) :
    Assigns s name (.localVariable s.locals.length) (s.declare name).2

mutual

/-- Every slot of the tree exists in the scope, every builtin has an accepted number of arguments, every
vector has the cells of its shape, and every anonymous function captures all that is in sight. -/
def Tree.Scoped (s : Scope) : Tree → Prop
  | .literal v => v.kind ≠ .function
  | .builtin op args => op.arity.accepts args.length ∧ Tree.AllScoped s args
  | .call _ args => Tree.AllScoped s args
  | .argument index => index < s.params.length
  | .localVariable slot => slot < s.locals.length
  | .globalVariable _ => True
  | .vector width height cells => cells.length = width * height ∧ Tree.AllScoped s cells
  | .function ⟨_, params, body⟩ width =>
    width = s.captureWidth ∧
      ∃ pending last, Block.Scoped (.function (params ++ s.params ++ s.locals) pending) body last

def Tree.AllScoped (s : Scope) : List Tree → Prop
  | [] => True
  | t :: ts => Tree.Scoped s t ∧ Tree.AllScoped s ts

/-- The statement may stand behind `previous` in the scope, and leaves the scope `s'` to the next one. -/
def Action.Scoped (s : Scope) (previous : Option Action) : Action → Scope → Prop
  | .compute t, s' => Tree.Scoped s t ∧ s' = s
  | .giveBack t, s' => Tree.Scoped s t ∧ s' = s
  | .assign target t, s' => Tree.Scoped s t ∧
    ∃ name : Text, name.IsName ∧ isKeyword name = false ∧ s.Assigns name target s'
  | .when condition body, s' => Tree.Scoped s condition ∧ Block.Scoped s body s'
  | .otherwise body, s' => Parse.isWhen previous ∧ Block.Scoped s body s'
  | .loop condition body, s' => Tree.Scoped s condition ∧
    ∃ inner, Block.Scoped { s with inLoop := true } body inner ∧ s' = { inner with inLoop := s.inLoop }
  | .leaveLoop, s' => s.inLoop ∧ s' = s
  | .nextRound, s' => s.inLoop ∧ s' = s

def Action.AllScoped (s : Scope) (previous : Option Action) : List Action → Scope → Prop
  | [], s' => s' = s
  | a :: rest, s' => Parse.isGiveBack previous = false ∧
    ∃ next, Action.Scoped s previous a next ∧ Action.AllScoped next (some a) rest s'

/-- The block declares the local variables that its statements leave behind, and releases them at its
end. -/
def Block.Scoped (s : Scope) : Block → Scope → Prop
  | ⟨actions, locals, firstSlot, frameSize⟩, s' =>
    ∃ last, Action.AllScoped s none actions last ∧ firstSlot = s.locals.length ∧
      locals = last.locals.drop firstSlot ∧ frameSize = last.frameSize ∧
      s' = { last with locals := last.locals.take firstSlot }

end

namespace Scope
variable {s : Scope} {name : Text}

theorem argument?_lt {index : Nat} (h : s.argument? name = some index) : index < s.params.length :=
  (List.findIdx?_eq_some_iff_getElem.mp h).1

theorem local?_lt {slot : Nat} (h : s.local? name = some slot) : slot < s.locals.length := by
  obtain ⟨k, hk, rfl⟩ := Option.map_eq_some_iff.mp h
  have hlt := (List.findIdx?_eq_some_iff_getElem.mp hk).1
  rw [List.length_reverse] at hlt
  omega

end Scope

def Block.IsBody (names : List Text) (body : Block) : Prop :=
  ∃ pending last, body.Scoped (.function names pending) last

theorem Tree.allScoped_iff {s : Scope} {ts : List Tree} : Tree.AllScoped s ts ↔ ∀ t ∈ ts, t.Scoped s := by
  induction ts with
  | nil => simp [Tree.AllScoped]
  | cons t ts ih => simp [Tree.AllScoped, ih]

mutual

/-- What a tree needs of its scope are the names in sight. -/
theorem Tree.Scoped.congr {s s' : Scope} (hp : s'.params = s.params) (hl : s'.locals = s.locals) :
    {t : Tree} → t.Scoped s → t.Scoped s'
  | .literal _, h => h
  | .builtin _ _, h => ⟨h.1, Tree.AllScoped.congr hp hl h.2⟩
  | .call _ _, h => Tree.AllScoped.congr hp hl h
  | .argument _, h => by rwa [Tree.Scoped, hp]
  | .localVariable _, h => by rwa [Tree.Scoped, hl]
  | .globalVariable _, h => h
  | .vector _ _ _, h => ⟨h.1, Tree.AllScoped.congr hp hl h.2⟩
  | .function ⟨_, _, _⟩ _, h => by
    rw [Tree.Scoped, Scope.captureWidth, hp, hl]
    rwa [Tree.Scoped, Scope.captureWidth] at h

theorem Tree.AllScoped.congr {s s' : Scope} (hp : s'.params = s.params) (hl : s'.locals = s.locals) :
    {ts : List Tree} → Tree.AllScoped s ts → Tree.AllScoped s' ts
  | [], h => h
  | _ :: _, h => ⟨Tree.Scoped.congr hp hl h.1, Tree.AllScoped.congr hp hl h.2⟩

end

/-- A body that only gives back an expression declares no local variables for it. -/
theorem Block.IsBody.singleReturn {names : List Text} {body : Block} {t : Tree} (hb : body.IsBody names)
    (ht : body.singleReturn? = some t) : t.Scoped (.function names none) := by
  obtain ⟨actions, locals, firstSlot, frameSize⟩ := body
  obtain ⟨pending, last, _, ha, -, -, -, -⟩ := hb
  unfold Block.singleReturn? at ht
  split at ht
  · rename_i u hu _
    obtain rfl := Option.some.inj ht
    obtain rfl : actions = [.giveBack u] := hu
    obtain ⟨-, _, hu, -⟩ := ha
    exact Tree.Scoped.congr (s := .function names pending) (by rfl) (by rfl) hu.1
  · exact nomatch ht

/-- The body that gives back the value of a tree. -/
theorem Block.returning_isBody {names : List Text} {t : Tree} (h : t.Scoped (.function names none)) :
    (Block.returning t).IsBody names :=
  ⟨none, .function names none, .function names none, ⟨rfl, _, ⟨h, rfl⟩, rfl⟩, rfl, rfl, rfl, rfl⟩

/-- A later scope of the same function body: nothing is renamed, and the room for local variables only
grows. -/
structure Scope.Extends (s s' : Scope) : Prop where
  params : s'.params = s.params
  inLoop : s'.inLoop = s.inLoop
  pending : s'.pending = s.pending
  locals : s.locals <+: s'.locals
  frameSize : s.frameSize ≤ s'.frameSize
  room : s.locals.length ≤ s.frameSize → s'.locals.length ≤ s'.frameSize

namespace Scope.Extends
variable {s s' s'' : Scope}

theorem refl (s : Scope) : s.Extends s := ⟨rfl, rfl, rfl, List.prefix_refl _, Nat.le_refl _, id⟩

private theorem trans (h : s.Extends s') (h' : s'.Extends s'') : s.Extends s'' where
  params := h'.params.trans h.params
  inLoop := h'.inLoop.trans h.inLoop
  pending := h'.pending.trans h.pending
  locals := h.locals.trans h'.locals
  frameSize := Nat.le_trans h.frameSize h'.frameSize
  room hs := h'.room (h.room hs)

theorem declare (s : Scope) (name : Text) : s.Extends (s.declare name).2 where
  params := rfl
  inLoop := rfl
  pending := rfl
  locals := List.prefix_append _ _
  frameSize := Nat.le_max_left _ _
  room _ := Nat.le_max_right _ _

end Scope.Extends

theorem Scope.Assigns.extends {s s' : Scope} {name : Text} {target : Target}
    (h : s.Assigns name target s') : s.Extends s' := by
  cases h with
  | argument | localVariable => exact .refl s
  | declared => exact .declare s name

mutual

theorem Action.Scoped.extends {s s' : Scope} {previous : Option Action} :
    {a : Action} → a.Scoped s previous s' → s.Extends s'
  | .compute _, h => h.2 ▸ .refl s
  | .giveBack _, h => h.2 ▸ .refl s
  | .assign .., h => by
    obtain ⟨_, name, _, _, h⟩ := h
    exact h.extends
  | .when _ _, h => Block.Scoped.extends h.2
  | .otherwise _, h => Block.Scoped.extends h.2
  | .loop _ _, h => by
    obtain ⟨_, inner, h, rfl⟩ := h
    have he := Block.Scoped.extends h
    exact ⟨he.params, rfl, he.pending, he.locals, he.frameSize, he.room⟩
  | .leaveLoop, h => h.2 ▸ .refl s
  | .nextRound, h => h.2 ▸ .refl s

theorem Action.AllScoped.extends {s s' : Scope} {previous : Option Action} :
    {list : List Action} → Action.AllScoped s previous list s' → s.Extends s'
  | [], h => h ▸ .refl s
  | _ :: _, h => by
    obtain ⟨_, next, ha, hr⟩ := h
    exact ha.extends.trans (Action.AllScoped.extends hr)

theorem Block.Scoped.extends {s s' : Scope} : {b : Block} → b.Scoped s s' → s.Extends s'
  | ⟨_, _, _, _⟩, h => by
    obtain ⟨last, ha, rfl, -, -, rfl⟩ := h
    have he := Action.AllScoped.extends ha
    refine ⟨he.params, he.inLoop, he.pending, ?_, he.frameSize, ?_⟩
    · exact List.prefix_take_iff.mpr ⟨he.locals, Nat.le_refl _⟩
    · intro hs
      exact Nat.le_trans (List.length_take_le _ _) (Nat.le_trans hs he.frameSize)

end

/-- A block releases what it declares. -/
theorem Block.Scoped.locals_eq {s s' : Scope} {b : Block} (h : b.Scoped s s') : s'.locals = s.locals := by
  obtain ⟨actions, locals, firstSlot, frameSize⟩ := b
  obtain ⟨last, ha, rfl, -, -, rfl⟩ := h
  exact (List.prefix_iff_eq_take.mp ha.extends.locals).symm

/-- A block needs the room of the scope that it leaves behind. -/
theorem Block.Scoped.frameSize_eq {s s' : Scope} {b : Block} (h : b.Scoped s s') :
    s'.frameSize = b.frameSize := by
  obtain ⟨actions, locals, firstSlot, frameSize⟩ := b
  obtain ⟨last, -, -, -, rfl, rfl⟩ := h
  rfl

end Reckoner
