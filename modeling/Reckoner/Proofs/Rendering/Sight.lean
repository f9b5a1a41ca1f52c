import Reckoner.Proofs.Scoping.Basic
import Reckoner.Render

/-! The renderer and the parser agree on the names of slots: what the renderer has at a point of a block are the
names in sight there, and perhaps those of local variables that the block declares further on. -/
namespace Reckoner

open Render (Names)

mutual

/-- The tree as it is written, without the labels of its anonymous functions. -/
def Tree.unlabelled : Tree → Tree
  | .builtin op args => .builtin op (Tree.allUnlabelled args)
  | .call id args => .call id (Tree.allUnlabelled args)
  | .vector width height cells => .vector width height (Tree.allUnlabelled cells)
  | .function ⟨_, params, body⟩ width => .function ⟨0, params, body.unlabelled⟩ width
  | .literal v => .literal v
  | .argument index => .argument index
  | .localVariable slot => .localVariable slot
  | .globalVariable slot => .globalVariable slot

def Tree.allUnlabelled : List Tree → List Tree
  | [] => []
  | t :: ts => t.unlabelled :: Tree.allUnlabelled ts

def Action.unlabelled : Action → Action
  | .compute t => .compute t.unlabelled
  | .giveBack t => .giveBack t.unlabelled
  | .assign target t => .assign target t.unlabelled
  | .when condition body => .when condition.unlabelled body.unlabelled
  | .otherwise body => .otherwise body.unlabelled
  | .loop condition body => .loop condition.unlabelled body.unlabelled
  | .leaveLoop => .leaveLoop
  | .nextRound => .nextRound

def Action.allUnlabelled : List Action → List Action
  | [] => []
  | a :: rest => a.unlabelled :: Action.allUnlabelled rest

def Block.unlabelled : Block → Block
  | ⟨actions, locals, firstSlot, frameSize⟩ => ⟨Action.allUnlabelled actions, locals, firstSlot, frameSize⟩

end

/-- The number of local variables in sight behind a statement that stands where `visible` are. -/
def Action.visible (visible : Nat) : Action → Nat
  | .assign (.localVariable slot) _ => max visible (slot + 1)
  | _ => visible

def Render.Names.upTo (names : Names) (visible : Nat) : Names :=
  { names with locals := names.locals.take visible }

mutual

def Block.Every (P : Names → Action → Prop) (names : Names) : Block → Prop
  | ⟨actions, locals, firstSlot, _⟩ => Action.EveryOf P (names.block firstSlot locals) firstSlot actions

def Action.EveryOf (P : Names → Action → Prop) (names : Names) (visible : Nat) : List Action → Prop
  | [] => True
  | a :: rest => Action.Every P names visible a ∧ Action.EveryOf P names (a.visible visible) rest

def Action.Every (P : Names → Action → Prop) (names : Names) (visible : Nat) : Action → Prop
  | .when condition body => P (names.upTo visible) (.when condition body) ∧ Block.Every P names body
  | .otherwise body => P (names.upTo visible) (.otherwise body) ∧ Block.Every P names body
  | .loop condition body => P (names.upTo visible) (.loop condition body) ∧ Block.Every P names body
  | a => P (names.upTo visible) a

end

def Scope.names (s : Scope) : Names := ⟨s.params, s.locals⟩

/-- The renderer has the names of the scope, and perhaps those of local variables declared further on. -/
structure Render.Names.Cover (names : Names) (s : Scope) : Prop where
  arguments : names.arguments = s.params
  locals : s.locals <+: names.locals

namespace Render.Names.Cover
variable {names : Names} {s s' : Scope}

theorem self (s : Scope) : s.names.Cover s := ⟨rfl, List.prefix_refl _⟩

theorem of_extends (h : names.Cover s') (he : s.Extends s') : names.Cover s :=
  ⟨h.arguments.trans he.params, he.locals.trans h.locals⟩

theorem upTo (h : names.Cover s) : names.upTo s.locals.length = s.names := by
  rw [Names.upTo, ← List.prefix_iff_eq_take.mp h.locals, h.arguments]
  rfl

/-- Inside of a block the renderer has the names that are in sight at its end. -/
theorem block (h : names.Cover s) (he : s.Extends s') :
    names.block s.locals.length (s'.locals.drop s.locals.length) = s'.names := by
  rw [Names.block, ← List.prefix_iff_eq_take.mp h.locals, h.arguments, ← he.params]
  obtain ⟨rest, hrest⟩ := he.locals
  rw [← hrest, List.drop_left, hrest]
  rfl

private theorem localVariable (h : names.Cover s) {slot : Nat} (hs : slot < s.locals.length) :
    names.localVariable slot = s.names.localVariable slot := by
  obtain ⟨rest, hrest⟩ := h.locals
  rw [Names.localVariable, named, ← hrest, List.getElem?_append_left hs]
  rfl

private theorem lambda (h : names.Cover s) (params : List Text) :
    names.lambda params s.captureWidth = s.names.lambda params s.captureWidth := by
  obtain ⟨rest, hrest⟩ := h.locals
  simp only [Names.lambda, Scope.names, h.arguments, ← hrest, ← List.append_assoc]
  rw [List.take_append_of_le_length (by simp [Scope.captureWidth])]

end Render.Names.Cover

def Action.body? : Action → Option Block
  | .when _ body | .otherwise body | .loop _ body => some body
  | .compute _ | .giveBack _ | .assign _ _ | .leaveLoop | .nextRound => none

theorem Action.every_iff {P : Names → Action → Prop} (a : Action) (names : Names) (visible : Nat) :
    a.Every P names visible ↔ P (names.upTo visible) a ∧ ∀ b ∈ a.body?, b.Every P names := by
  cases a with
  | when | otherwise | loop => simp [Every, body?]
  | compute | giveBack | assign | leaveLoop | nextRound => simp [Every, body?]

theorem Action.everyOf_cons {P : Names → Action → Prop} (a : Action) (rest : List Action) (names : Names)
    (visible : Nat) : Action.EveryOf P names visible (a :: rest) ↔
      a.Every P names visible ∧ Action.EveryOf P names (a.visible visible) rest := Iff.rfl

theorem Block.every_iff {P : Names → Action → Prop} (actions : List Action) (locals : List Text)
    (firstSlot frameSize : Nat) (names : Names) :
    Block.Every P names ⟨actions, locals, firstSlot, frameSize⟩ ↔
      Action.EveryOf P (names.block firstSlot locals) firstSlot actions := Iff.rfl

/-- What holds of every statement holds of the first one, where the names of the scope are in sight. -/
theorem Action.Every.here {P : Names → Action → Prop} {a : Action} {names : Names} {s : Scope}
    (h : a.Every P names s.locals.length) (hn : names.Cover s) : P s.names a := by
  rw [← hn.upTo]
  exact ((Action.every_iff a names _).mp h).1

namespace Scope
variable {s s' : Scope} {name : Text}

theorem getElem?_argument {index : Nat} (h : s.argument? name = some index) : s.params[index]? = some name := by
  obtain ⟨hlt, hname, -⟩ := List.findIdx?_eq_some_iff_getElem.mp h
  rw [List.getElem?_eq_getElem hlt, eq_of_beq hname]

theorem getElem?_local {slot : Nat} (h : s.local? name = some slot) : s.locals[slot]? = some name := by
  obtain ⟨k, hk, rfl⟩ := Option.map_eq_some_iff.mp h
  obtain ⟨hlt, hname, -⟩ := List.findIdx?_eq_some_iff_getElem.mp hk
  rw [List.length_reverse] at hlt
  rw [List.getElem_reverse] at hname
  rw [List.getElem?_eq_getElem (by omega), eq_of_beq hname]

/-- The renderer writes an assignment with the name that the parser resolved. -/
theorem Assigns.target {target : Target} {names : Names} (h : s.Assigns name target s') (hn : names.Cover s') :
    names.target target = name := by
  cases h with
  | argument h =>
    rw [Names.target, Names.argument, Render.named, hn.arguments, getElem?_argument h]
    rfl
  | localVariable ha h =>
    rw [Names.target, hn.localVariable (local?_lt h), Names.localVariable, Render.named, Scope.names,
      getElem?_local h]
    rfl
  | declared ha h =>
    have hslot : s.locals.length < (s.declare name).2.locals.length := by simp [declare]
    rw [Names.target, hn.localVariable hslot]
    simp [Names.localVariable, Render.named, Scope.names, declare]

private theorem Assigns.visible {target : Target} {t : Tree} (h : s.Assigns name target s') :
    (Action.assign target t).visible s.locals.length = s'.locals.length := by
  cases h with
  | argument h => rfl
  | localVariable ha h =>
    have hslot := local?_lt h
    simp only [Action.visible]
    omega
  | declared ha h => simp [Action.visible, declare]

end Scope

/-- As many local variables are in sight behind a statement as the parser has there. -/
theorem Action.Scoped.visible {s s' : Scope} {previous : Option Action} :
    {a : Action} → a.Scoped s previous s' → a.visible s.locals.length = s'.locals.length
  | .compute _, h => by
    obtain ⟨-, rfl⟩ := h
    rfl
  | .giveBack _, h => by
    obtain ⟨-, rfl⟩ := h
    rfl
  | .assign _ _, ⟨_, _, _, _, h⟩ => h.visible
  | .when _ _, h => congrArg List.length h.2.locals_eq.symm
  | .otherwise _, h => congrArg List.length h.2.locals_eq.symm
  | .loop _ _, h => by
    obtain ⟨_, inner, h, rfl⟩ := h
    exact congrArg List.length h.locals_eq.symm
  | .leaveLoop, h => by
    obtain ⟨-, rfl⟩ := h
    rfl
  | .nextRound, h => by
    obtain ⟨-, rfl⟩ := h
    rfl

namespace Render

section
variable (env : Environment) (names : Names) (t : Tree) (b : Block)

theorem action_compute : action env names (.compute t) = tree env names t := rfl

theorem action_giveBack : action env names (.giveBack t) = "return ".toList ++ tree env names t := rfl

theorem action_assign (target : Target) :
    action env names (.assign target t) = names.target target ++ '=' :: tree env names t := rfl

theorem action_when :
    action env names (.when t b) = "if".toList ++ parenthesized (tree env names t) ++ block env names b := rfl

theorem action_loop :
    action env names (.loop t b) = "while".toList ++ parenthesized (tree env names t) ++ block env names b := rfl

def inside : Text := Text.join [';'] (actions env (names.block b.firstSlot b.locals) b.actions)

theorem block_eq : block env names b = braced (inside env names b) := by
  obtain ⟨list, locals, firstSlot, frameSize⟩ := b
  rw [block]
  rfl

theorem action_otherwise :
    action env names (.otherwise b) =
      if isChain b then "else ".toList ++ Text.join [';'] (actions env names b.actions)
      else "else".toList ++ braced (inside env names b) := by
  obtain ⟨list, locals, firstSlot, frameSize⟩ := b
  rfl

theorem actions_nil : actions env names [] = [] := rfl

theorem actions_cons (a : Action) (rest : List Action) :
    actions env names (a :: rest) = action env names a :: actions env names rest := rfl

end

variable {env : Environment} {names : Names} {s : Scope}

mutual

/-- The text of a tree shows only names in sight. -/
theorem tree_sight (h : names.Cover s) : (t : Tree) → t.Scoped s → tree env names t = tree env s.names t
  | .literal _, _ => rfl
  | .argument index, _ => by rw [tree, tree, Names.argument, h.arguments, Names.argument, Scope.names]
  | .localVariable slot, ht => by rw [tree, tree, h.localVariable ht]
  | .globalVariable _, _ => rfl
  | .call _ args, ht => by rw [tree, tree, trees_sight h args ht]
  | .vector _ _ cells, ht => by rw [tree, tree, operands_sight h cells ht.2]
  | .function ⟨_, params, body⟩ width, ht => by
    obtain ⟨rfl, -⟩ := ht
    rw [tree, tree, h.lambda]
  | .builtin op [], ht => rfl
  | .builtin op [t], ht => by rw [tree, tree, tree_sight h t ht.2.1]
  | .builtin op [t, u], ht => by rw [tree, tree, tree_sight h t ht.2.1, tree_sight h u ht.2.2.1]
  | .builtin op (t :: u :: v :: rest), ht => by
    rw [tree, tree, trees_sight h (t :: u :: v :: rest) ht.2]
    all_goals nofun

theorem trees_sight (h : names.Cover s) : (ts : List Tree) → Tree.AllScoped s ts →
    trees env names ts = trees env s.names ts
  | [], _ => rfl
  | t :: ts, ht => by rw [trees, trees, tree_sight h t ht.1, trees_sight h ts ht.2]

theorem operands_sight (h : names.Cover s) : (ts : List Tree) → Tree.AllScoped s ts →
    operands env names ts = operands env s.names ts
  | [], _ => rfl
  | t :: ts, ht => by rw [operands, operands, tree_sight h t ht.1, operands_sight h ts ht.2]

end

/-- What stands in a block is written with the names at its end. -/
theorem inside_eq {s' : Scope} (h : names.Cover s) (he : s.Extends s') (list : List Action) (frameSize : Nat) :
    inside env names ⟨list, s'.locals.drop s.locals.length, s.locals.length, frameSize⟩ =
      Text.join [';'] (actions env s'.names list) := by
  rw [← h.block he]
  rfl

end Render
end Reckoner
