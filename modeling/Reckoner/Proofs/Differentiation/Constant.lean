import Reckoner.Derivative
import Reckoner.Eval.Block
import Reckoner.Proofs.FrameUses

/-! What the power rule takes for a constant. A tree that does not mention the variable is one as long as its functions
capture nothing; a function that captures the frame carries the variable along unseen. -/
namespace Reckoner

def Frame.withFirst (frame : Frame) (v : Value) : Frame :=
  { frame with arguments := frame.arguments.set 0 v }

private theorem Frame.getElem?_withFirst {index : Nat} (h : (index == 0) = false) (frame : Frame) (v : Value) :
    (frame.withFirst v).arguments[index]? = frame.arguments[index]? :=
  List.getElem?_set_ne (ne_of_beq_false h).symm

namespace Tree

mutual

def captures : Tree → Bool
  | function _ width => 0 < width
  | builtin _ args | call _ args => anyCaptures args
  | vector _ _ cells => anyCaptures cells
  | literal _ | argument _ | localVariable _ | globalVariable _ => false

def anyCaptures : List Tree → Bool
  | [] => false
  | t :: ts => t.captures || anyCaptures ts

end

mutual

/-- A tree without the variable, whose functions capture nothing, does not refer to the first argument. -/
private theorem agreeOn_withFirst (frame : Frame) (v : Value) :
    (t : Tree) → t.mentionsVariable = false → t.captures = false → (frame.withFirst v).AgreeOn frame t.uses
  | literal _, _, _ | globalVariable _, _, _ => List.forall_mem_nil _
  | argument _, ht, _ => List.forall_mem_singleton.mpr (Frame.getElem?_withFirst ht frame v)
  | localVariable _, _, _ => List.forall_mem_singleton.mpr rfl
  | builtin _ args, ht, hc | call _ args, ht, hc => allAgreeOn_withFirst frame v args ht hc
  | vector _ _ cells, ht, hc => allAgreeOn_withFirst frame v cells ht hc
  | function _ width, _, hc => by
    obtain rfl : width = 0 := Nat.eq_zero_of_not_pos (of_decide_eq_false hc)
    exact List.forall_mem_singleton.mpr (List.take_zero.trans List.take_zero.symm)

theorem allAgreeOn_withFirst (frame : Frame) (v : Value) :
    (ts : List Tree) → mentionsVariable.anyMentions ts = false → anyCaptures ts = false →
      (frame.withFirst v).AgreeOn frame (allUses ts)
  | [], _, _ => List.forall_mem_nil _
  | t :: ts, ht, hc => by
    obtain ⟨ht, hts⟩ := Bool.or_eq_false_iff.mp ht
    obtain ⟨hc, hcs⟩ := Bool.or_eq_false_iff.mp hc
    exact List.forall_mem_append.mpr ⟨agreeOn_withFirst frame v t ht hc, allAgreeOn_withFirst frame v ts hts hcs⟩

end

end Tree

/-- A tree without the variable, whose functions capture nothing, does not see the first argument. -/
theorem Eval.tree_withFirst {m : Machine} (frame : Frame) (v : Value) (t : Tree) (ht : t.mentionsVariable = false)
    (hc : t.captures = false) : tree m (frame.withFirst v) t = tree m frame t :=
  tree_congr t (t.agreeOn_withFirst frame v ht hc)

namespace Tree

/-- The variable, read by a function that is run on a constant. -/
def hiddenVariable (label : Nat) (param : Text) (v : Value) : Tree :=
  builtin .run [function ⟨label, [param], .returning (argument 1)⟩ 1, literal v]

/-- The hidden variable is not mentioned, and its value is that of the variable all the same. -/
theorem evaluate_hiddenVariable (env : Environment) (hdepth : 0 < env.config.maxCallDepth) (label : Nat)
    (param : Text) (v x : Value) (rest locals : List Value) :
    (hiddenVariable label param v).mentionsVariable = false ∧
      env.evaluate ⟨x :: rest, locals⟩ (hiddenVariable label param v) = pure x := by
  refine ⟨rfl, ?_⟩
  obtain ⟨depth, hdepth⟩ := Nat.exists_eq_add_one_of_ne_zero (Nat.ne_of_gt hdepth)
  have hfunction (captured : List Value) :
      Eval.checkKind .run 0 (.function ⟨label, [param], .returning (argument 1)⟩ captured) = .ok () := rfl
  have hconstant : Eval.checkKind .run 1 v = .ok () := by cases v <;> rfl
  have hreads (m : Eval.Machine) : Eval.tree m ⟨[v, x], []⟩ (argument 1) = pure x := by
    rw [Eval.tree]
    rfl
  have hok : Eval.ofExcept (.ok ()) = pure () := rfl
  have hargs (m : Eval.Machine) : Eval.checkedArgs m ⟨x :: rest, locals⟩ .run 0
      [function ⟨label, [param], .returning (argument 1)⟩ 1, literal v] =
        pure [.function ⟨label, [param], .returning (argument 1)⟩ [x], v] := by
    simp only [Eval.checkedArgs, Eval.tree, pure_bind, hfunction, hconstant, hok]
    rfl
  have hbody : env.machine.invoke (.returning (argument 1)) [v, x] = pure x := by
    show Eval.body _ _ env.config.maxCallDepth _ _ = _
    rw [hdepth]
    exact hreads ⟨env, Value.applyBuiltin env.config, Eval.body env (Value.applyBuiltin env.config) depth⟩
  rw [Environment.evaluate, hiddenVariable, Eval.tree, hargs, pure_bind]
  exact hbody

/-- That a tree does not mention the variable is not enough for it to be constant. -/
theorem not_constant_of_not_mentionsVariable :
    ¬∀ (env : Environment) (t : Tree) (frame : Frame) (v : Value), t.mentionsVariable = false →
      env.evaluate (frame.withFirst v) t = env.evaluate frame t := by
  intro h
  have hvalue (x : Value) := evaluate_hiddenVariable {} (by decide) 0 ['y'] (.number .one) x [] []
  have hsame := h {} _ ⟨[.string ['a']], []⟩ (.string ['b']) (hvalue (.string [])).1
  have hb : pure (.string ['b']) = (pure (.string ['a']) : Eval Value) :=
    (hvalue (.string ['b'])).2.symm.trans (hsame.trans (hvalue (.string ['a'])).2)
  have htext : Value.string ['b'] = Value.string ['a'] :=
    Except.ok.inj (congrArg Prod.fst (congrFun hb #[]))
  exact absurd (Value.string.inj htext) (by decide)

/-- The derivative of a power of the variable takes the hidden one for a constant exponent. -/
theorem derivative_hiddenVariable (label : Nat) (param : Text) (v : Value) :
    (builtin .pow [argument 0, hiddenVariable label param v]).derivative =
      .ok (builtin .mul [hiddenVariable label param v,
        builtin .pow [argument 0, builtin .sub [hiddenVariable label param v, one]]]) :=
  rfl

end Tree
end Reckoner
