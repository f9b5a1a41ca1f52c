import Reckoner.Proofs.Nodes

/-! The slots that trees and blocks refer to. Whatever the parser accepts refers to slots that the names in the
text have at that moment, in the bodies of anonymous functions too. -/
namespace Reckoner

section
variable (calls : Nat → Nat → Prop) (globals : Nat → Prop)

mutual

/-- Each call in the tree, however deep, is of a function and with a number of arguments in `calls`, and each
global variable is in `globals`. -/
def Tree.Refers : Tree → Prop
  | .literal v => v.kind ≠ .function
  | .builtin _ args => Tree.AllRefers args
  | .call id args => calls id args.length ∧ Tree.AllRefers args
  | .argument _ | .localVariable _ => True
  | .globalVariable slot => globals slot
  | .vector _ _ cells => Tree.AllRefers cells
  | .function ⟨_, _, body⟩ _ => Block.Refers body

def Tree.AllRefers : List Tree → Prop
  | [] => True
  | t :: ts => Tree.Refers t ∧ Tree.AllRefers ts

def Action.Refers : Action → Prop
  | .compute t | .giveBack t | .assign _ t => Tree.Refers t
  | .when condition body | .loop condition body => Tree.Refers condition ∧ Block.Refers body
  | .otherwise body => Block.Refers body
  | .leaveLoop | .nextRound => True

def Action.AllRefer : List Action → Prop
  | [] => True
  | a :: rest => Action.Refers a ∧ Action.AllRefer rest

def Block.Refers : Block → Prop
  | ⟨actions, _, _, _⟩ => Action.AllRefer actions

end

end

section
variable {calls calls' : Nat → Nat → Prop} {globals globals' : Nat → Prop}

private theorem Tree.allRefers_iff {ts : List Tree} :
    Tree.AllRefers calls globals ts ↔ ∀ t ∈ ts, t.Refers calls globals := by
  induction ts with
  | nil => simp [Tree.AllRefers]
  | cons t ts ih => simp [Tree.AllRefers, ih]

mutual

theorem Tree.Refers.mono (hc : ∀ id count, calls id count → calls' id count)
    (hg : ∀ slot, globals slot → globals' slot) : {t : Tree} → t.Refers calls globals → t.Refers calls' globals'
  | .literal _, h => h
  | .builtin _ _, h => Tree.AllRefers.mono hc hg h
  | .call id args, h => ⟨hc id args.length h.1, Tree.AllRefers.mono hc hg h.2⟩
  | .argument _, h | .localVariable _, h => h
  | .globalVariable slot, h => hg slot h
  | .vector _ _ _, h => Tree.AllRefers.mono hc hg h
  | .function ⟨_, _, _⟩ _, h => Block.Refers.mono hc hg h

theorem Tree.AllRefers.mono (hc : ∀ id count, calls id count → calls' id count)
    (hg : ∀ slot, globals slot → globals' slot) :
    {ts : List Tree} → Tree.AllRefers calls globals ts → Tree.AllRefers calls' globals' ts
  | [], h => h
  | _ :: _, h => ⟨Tree.Refers.mono hc hg h.1, Tree.AllRefers.mono hc hg h.2⟩

theorem Action.Refers.mono (hc : ∀ id count, calls id count → calls' id count)
    (hg : ∀ slot, globals slot → globals' slot) :
    {a : Action} → a.Refers calls globals → a.Refers calls' globals'
  | .compute _, h | .giveBack _, h | .assign _ _, h => Tree.Refers.mono hc hg h
  | .when _ _, h | .loop _ _, h => ⟨Tree.Refers.mono hc hg h.1, Block.Refers.mono hc hg h.2⟩
  | .otherwise _, h => Block.Refers.mono hc hg h
  | .leaveLoop, h | .nextRound, h => h

theorem Action.AllRefer.mono (hc : ∀ id count, calls id count → calls' id count)
    (hg : ∀ slot, globals slot → globals' slot) :
    {list : List Action} → Action.AllRefer calls globals list → Action.AllRefer calls' globals' list
  | [], h => h
  | _ :: _, h => ⟨Action.Refers.mono hc hg h.1, Action.AllRefer.mono hc hg h.2⟩

theorem Block.Refers.mono (hc : ∀ id count, calls id count → calls' id count)
    (hg : ∀ slot, globals slot → globals' slot) : {b : Block} → b.Refers calls globals → b.Refers calls' globals'
  | ⟨_, _, _, _⟩, h => Action.AllRefer.mono hc hg h

end

/-- An operator refers to what its operands refer to. -/
theorem Tree.Refers.structural : Tree.Structural (Tree.Refers calls globals) where
  number _ := nofun
  builtin _ hargs := allRefers_iff.mpr hargs
  operands h := allRefers_iff.mp h
  cells h := allRefers_iff.mp h
  vector _ _ hcells := allRefers_iff.mpr hcells

theorem Block.returning_refers {t : Tree} (h : t.Refers calls globals) :
    (Block.returning t).Refers calls globals := ⟨h, trivial⟩

/-- A body that only gives back an expression refers to what the expression refers to. -/
theorem Block.Refers.singleReturn {b : Block} {t : Tree} (hb : b.Refers calls globals)
    (ht : b.singleReturn? = some t) : t.Refers calls globals := by
  obtain ⟨actions, locals, firstSlot, frameSize⟩ := b
  unfold Block.singleReturn? at ht
  split at ht
  · rename_i u hu _
    obtain rfl := Option.some.inj ht
    obtain rfl : actions = [.giveBack u] := hu
    exact hb.1
  · exact nomatch ht

end

structure Environment.Offers (env : Environment) (pending : Option Pending) (calls : Nat → Nat → Prop)
    (globals : Nat → Prop) : Prop where
  function (name : Text) (id arity : Nat) :
    Scope.function? { pending } env name = some (id, arity) → calls id arity
  global (name : Text) (slot : Nat) : env.globals.lookup name = some slot → globals slot

section
variable (calls : Nat → Nat → Prop) (globals : Nat → Prop)

def Tree.NodeRefers : Tree → Prop
  | .literal v => v.kind ≠ .function
  | .call id args => calls id args.length
  | .globalVariable slot => globals slot
  | _ => True

end

section
variable {calls : Nat → Nat → Prop} {globals : Nat → Prop}

mutual

/-- A tree refers to what its nodes refer to. -/
private theorem Tree.Each.refers : {t : Tree} → t.Each (Tree.NodeRefers calls globals) → t.Refers calls globals
  | .literal _, h => h
  | .builtin _ _, h => Tree.AllEach.refers h.2
  | .call _ _, h => ⟨h.1, Tree.AllEach.refers h.2⟩
  | .argument _, _ | .localVariable _, _ => trivial
  | .globalVariable _, h => h
  | .vector _ _ _, h => Tree.AllEach.refers h.2
  | .function ⟨_, _, _⟩ _, h => Block.Each.refers h.2

theorem Tree.AllEach.refers : {ts : List Tree} → Tree.AllEach (Tree.NodeRefers calls globals) ts →
    Tree.AllRefers calls globals ts
  | [], _ => trivial
  | _ :: _, h => ⟨Tree.Each.refers h.1, Tree.AllEach.refers h.2⟩

theorem Action.Each.refers : {a : Action} → a.Each (Tree.NodeRefers calls globals) → a.Refers calls globals
  | .compute _, h | .giveBack _, h | .assign _ _, h => Tree.Each.refers h
  | .when _ _, h | .loop _ _, h => ⟨Tree.Each.refers h.1, Block.Each.refers h.2⟩
  | .otherwise _, h => Block.Each.refers h
  | .leaveLoop, _ | .nextRound, _ => trivial

theorem Action.AllEach.refers : {list : List Action} → Action.AllEach (Tree.NodeRefers calls globals) list →
    Action.AllRefer calls globals list
  | [], _ => trivial
  | _ :: _, h => ⟨Action.Each.refers h.1, Action.AllEach.refers h.2⟩

private theorem Block.Each.refers : {b : Block} → b.Each (Tree.NodeRefers calls globals) → b.Refers calls globals
  | ⟨_, _, _, _⟩, h => Action.AllEach.refers h

end

variable {env : Environment} {pending : Option Pending}

/-- The parser makes nodes that refer to what names are found to be. -/
private theorem Environment.Offers.makes (h : env.Offers pending calls globals) (input : Text) :
    Parse.Makes env pending input (Tree.NodeRefers calls globals) where
  literal _ hv := hv
  builtin _ _ _ := trivial
  call name id args := h.function name id args.length
  argument _ := trivial
  localVariable _ := trivial
  globalVariable := h.global
  vector _ _ _ _ _ _ _ _ _ _ _ := trivial
  function _ _ := trivial

/-- An expression refers to the functions and global variables that its names are found to be. -/
theorem parseExpression_refers (h : env.Offers pending calls globals) (t : Text) (offset : Nat) {scope : Scope}
    (hs : scope.pending = pending) (ambient : Ambient) :
    Always (fun _ => True) (parseExpression env t offset scope ambient) (Tree.Refers calls globals) :=
  (parseExpression_each (h.makes t) t (List.infix_refl t) offset hs ambient).mono fun _ => Tree.Each.refers

/-- The body of a function refers to what its names are found to be, the function itself among them. -/
theorem Session.parseBody_refers (h : env.Offers pending calls globals) (params : List Text) (text : Text) :
    Always (fun _ => True) (parseBody env (.function params pending) text) (Block.Refers calls globals) :=
  (parseBody_each (h.makes text) params text (List.infix_refl text)).mono fun _ => Block.Each.refers

end
end Reckoner
