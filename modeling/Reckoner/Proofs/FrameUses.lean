import Reckoner.Parse.Basic
import Reckoner.Proofs.Outcome

/-! What a tree needs of its frame: the slots that it mentions outside of the bodies of functions, and the values that
its functions capture. Frames that hold the same there give the same value or the same failure and print the same
lines, since whatever is called runs in a frame of its own. -/
namespace Reckoner

namespace Frame

/-- A place of a frame that a tree can refer to. -/
inductive Use
  | argument (index : Nat)
  | localVariable (slot : Nat)
  /-- The first `width` values of the frame, arguments before local variables. -/
  | captured (width : Nat)
  deriving DecidableEq

/-- Both frames hold the same at a place; a slot that one of them does not have, neither has. -/
def AgreeAt (f g : Frame) : Use → Prop
  | .argument index => f.arguments[index]? = g.arguments[index]?
  | .localVariable slot => f.locals[slot]? = g.locals[slot]?
  | .captured width => f.capture width = g.capture width

def AgreeOn (f g : Frame) (uses : List Use) : Prop := ∀ use ∈ uses, f.AgreeAt g use

end Frame

namespace Tree

mutual

/-- The places of the frame that a tree refers to, those in the bodies of its functions apart. -/
def uses : Tree → List Frame.Use
  | literal _ | globalVariable _ => []
  | argument index => [.argument index]
  | localVariable slot => [.localVariable slot]
  | builtin _ args | call _ args => allUses args
  | vector _ _ cells => allUses cells
  | function _ width => [.captured width]

def allUses : List Tree → List Frame.Use
  | [] => []
  | t :: ts => t.uses ++ allUses ts

end

mutual

/-- A tree that is said not to need the frame captures no more than nothing of it. -/
private theorem uses_of_not_usesFrame : (t : Tree) → t.usesFrame = false → ∀ use ∈ t.uses, use = .captured 0
  | literal _, _ | globalVariable _, _ => List.forall_mem_nil _
  | builtin _ args, h | call _ args, h => allUses_of_not_anyUsesFrame args h
  | vector _ _ cells, h => allUses_of_not_anyUsesFrame cells h
  | function _ width, h => by
    obtain rfl : width = 0 := Nat.eq_zero_of_not_pos (of_decide_eq_false h)
    exact List.forall_mem_singleton.mpr rfl

theorem allUses_of_not_anyUsesFrame :
    (ts : List Tree) → anyUsesFrame ts = false → ∀ use ∈ allUses ts, use = .captured 0
  | [], _ => List.forall_mem_nil _
  | t :: ts, h => by
    obtain ⟨ht, hts⟩ := Bool.or_eq_false_iff.mp h
    exact List.forall_mem_append.mpr ⟨uses_of_not_usesFrame t ht, allUses_of_not_anyUsesFrame ts hts⟩

end

private theorem agreeOn_of_not_usesFrame {t : Tree} (h : t.usesFrame = false) (f g : Frame) : f.AgreeOn g t.uses := by
  intro use huse
  rw [uses_of_not_usesFrame t h use huse]
  exact List.take_zero.trans List.take_zero.symm

end Tree

namespace Eval
open Reckoner.Tree
variable {m : Machine} {f g : Frame}

mutual

/-- A tree has the same value in frames that agree where it refers to them. -/
theorem tree_congr : (t : Tree) → f.AgreeOn g t.uses → tree m f t = tree m g t
  | .literal _, _ | .globalVariable _, _ => by simp only [tree]
  | .argument index, h => by
    have hslot : f.arguments[index]? = g.arguments[index]? := h (.argument index) List.mem_cons_self
    simp only [tree, slot, hslot]
  | .localVariable index, h => by
    have hslot : f.locals[index]? = g.locals[index]? := h (.localVariable index) List.mem_cons_self
    simp only [tree, slot, hslot]
  | .builtin op args, h => by simp only [tree, checkedArgs_congr op 0 args h]
  | .call _ args, h => by simp only [tree, trees_congr args h]
  | .vector _ _ cs, h => by simp only [tree, cells_congr 1 cs h]
  | .function _ width, h => by
    have hcaptured : f.capture width = g.capture width := h (.captured width) List.mem_cons_self
    simp only [tree, hcaptured]

theorem trees_congr : (ts : List Tree) → f.AgreeOn g (allUses ts) → trees m f ts = trees m g ts
  | [], _ => by simp only [trees]
  | t :: ts, h => by
    obtain ⟨ht, hts⟩ := List.forall_mem_append.mp h
    simp only [trees, tree_congr t ht, trees_congr ts hts]

theorem checkedArgs_congr (op : Builtin) : (position : Nat) → (ts : List Tree) → f.AgreeOn g (allUses ts) →
    checkedArgs m f op position ts = checkedArgs m g op position ts
  | _, [], _ => by simp only [checkedArgs]
  | position, t :: ts, h => by
    obtain ⟨ht, hts⟩ := List.forall_mem_append.mp h
    simp only [checkedArgs, tree_congr t ht, checkedArgs_congr op (position + 1) ts hts]

theorem cells_congr : (position : Nat) → (ts : List Tree) → f.AgreeOn g (allUses ts) →
    cells m f position ts = cells m g position ts
  | _, [], _ => by simp only [cells]
  | position, t :: ts, h => by
    obtain ⟨ht, hts⟩ := List.forall_mem_append.mp h
    simp only [cells, tree_congr t ht, cells_congr (position + 1) ts hts]

end

end Eval

theorem Parse.run_attempt {α : Type} (evaluation : Eval α) (supply : Supply) :
    (attempt evaluation).run.run supply =
      (.ok (evaluation.run.run supply.output).1, { supply with output := (evaluation.run.run supply.output).2 }) :=
  rfl

/-- A base that was accepted is the value of its tree outside of all functions. -/
private theorem Parse.evaluateBase_ok {env : Environment} {position base : Nat} {t : Tree} {supply supply' : Supply}
    (h : (evaluateBase env position t).run.run supply = (.ok base, supply')) :
    t.usesFrame = false ∧ ∃ v, (env.evaluate .empty t).run.run supply.output = (.ok v, supply'.output) ∧
      baseOf? v = some base := by
  unfold evaluateBase at h
  by_cases hframe : t.usesFrame
  · rw [if_pos hframe] at h
    cases h
  · rw [if_neg hframe] at h
    refine ⟨Bool.not_eq_true _ ▸ hframe, ?_⟩
    simp only [run_bind, run_attempt] at h
    cases hresult : ((env.evaluate .empty t).run.run supply.output).1 with
    | error e =>
      rw [hresult] at h
      cases h
    | ok v =>
      simp only [hresult] at h
      cases hbase : baseOf? v with
      | none =>
        rw [hbase] at h
        cases h
      | some b =>
        rw [hbase] at h
        cases h
        exact ⟨v, Prod.ext hresult rfl, hbase⟩

namespace Environment

/-- The value of a tree hangs on no more of the frame than the slots that it mentions outside of the bodies of
functions and the values that its functions capture, and neither does its failure or what is printed. A tree that does
not use the frame does the same everywhere; so a base that was accepted is the base that its text has in every frame. -/
theorem evaluate_eq_of_agreeOn (env : Environment) (t : Tree) :
    (∀ f g : Frame, f.AgreeOn g t.uses → env.evaluate f t = env.evaluate g t) ∧
    (t.usesFrame = false → ∀ f g : Frame, env.evaluate f t = env.evaluate g t) ∧
    ∀ position base supply supply', (Parse.evaluateBase env position t).run.run supply = (.ok base, supply') →
      ∀ frame, ∃ v, (env.evaluate frame t).run.run supply.output = (.ok v, supply'.output) ∧
        Parse.baseOf? v = some base := by
  have hfree (h : t.usesFrame = false) (f g : Frame) : env.evaluate f t = env.evaluate g t :=
    Eval.tree_congr t (Tree.agreeOn_of_not_usesFrame h f g)
  refine ⟨fun f g h => Eval.tree_congr t h, hfree, ?_⟩
  intro position base supply supply' h frame
  obtain ⟨hframe, hvalue⟩ := Parse.evaluateBase_ok h
  rw [hfree hframe frame .empty]
  exact hvalue

/-- A function that captures the argument only, called in two frames with other local variables; and a base that is
the value of a function without captured values. -/
theorem evaluate_eq_of_agreeOn_of_capture :
    let f : Frame := ⟨[.string ['a']], [.string ['b'], .string ['c']]⟩
    let g : Frame := ⟨[.string ['a']], []⟩
    let called : Tree := .builtin .run [.function ⟨0, [['y']], .returning (.argument 1)⟩ 1, .argument 0]
    let base : Tree := .builtin .run [.function ⟨0, [['y']], .returning (.argument 0)⟩ 0, .number (.real 16)]
    f.AgreeOn g called.uses ∧ evaluate {} f called = evaluate {} g called ∧
      base.usesFrame = false ∧ evaluate {} f base = evaluate {} g base ∧
      (Parse.evaluateBase {} 0 base).run.run {} = (.ok 16, {}) ∧
      ∃ v, (evaluate {} f base).run.run #[] = (.ok v, #[]) ∧ Parse.baseOf? v = some 16 := by
  intro f g called base
  have hagree : f.AgreeOn g called.uses := List.forall_mem_cons.mpr ⟨rfl, List.forall_mem_singleton.mpr rfl⟩
  have hbase : (Parse.evaluateBase {} 0 base).run.run {} = (.ok 16, {}) := by with_unfolding_all rfl
  obtain ⟨hcalled, -, -⟩ := evaluate_eq_of_agreeOn {} called
  obtain ⟨-, hfree, hparsed⟩ := evaluate_eq_of_agreeOn {} base
  exact ⟨hagree, hcalled f g hagree, rfl, hfree rfl f g, hbase, hparsed 0 16 {} {} hbase f⟩

end Environment
end Reckoner
