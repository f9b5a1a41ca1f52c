import Reckoner.Derivative
import Reckoner.Proofs.Differentiation.Reading

/-! The derivative with a record of the operations it carries out on literals. The record changes nothing: the tree is
the same. -/
namespace Reckoner

/-- An operation on two literals, with the literal put in its place. -/
structure Fold where
  op : Builtin
  left : Number
  right : Number
  result : Number

def Fold.tree (f : Fold) : Tree := .builtin f.op [.number f.left, .number f.right]

/-- Where the operation has a value at all, that of the literal is the same. -/
def Fold.Exact (f : Fold) : Prop :=
  ∀ v, f.tree.value? (.rational []) = some v → f.result.rational? = some v

/-- A result with the folds on the way to it. -/
structure Recorded (α : Type) where
  result : Except RuntimeError α
  folds : List Fold

namespace Recorded

instance : Monad Recorded where
  pure a := ⟨.ok a, []⟩
  bind x next := match x.result with
    | .ok a => ⟨(next a).result, x.folds ++ (next a).folds⟩
    | .error e => ⟨.error e, x.folds⟩

def silent {α : Type} (result : Except RuntimeError α) : Recorded α := ⟨result, []⟩

def folded (op : Builtin) (a b : Tree) : Recorded Tree :=
  match a.number?, b.number? with
  | some x, some y => match Value.numberBinary op x y with
    | .ok n => ⟨.ok (.number n), [⟨op, x, y, n⟩]⟩
    | .error _ => return .builtin op [a, b]
  | _, _ => return .builtin op [a, b]

def plus (a b : Tree) : Recorded Tree :=
  if a.isZero then return b else if b.isZero then return a else folded .add a b

def minus (a b : Tree) : Recorded Tree :=
  if b.isZero then return a else if a.isZero then return b.opposite else folded .sub a b

def times (a b : Tree) : Recorded Tree :=
  if a.isZero || b.isZero then return .zero
  else if a.isOne then return b
  else if b.isOne then return a
  else folded .mul a b

def dividedBy (a b : Tree) : Recorded Tree :=
  if a.isZero then return .zero else if b.isOne then return a else folded .div a b

def toPower (a b : Tree) : Recorded Tree :=
  if b.isZero then return .one else if b.isOne then return a else folded .pow a b

def productRule (a b : Tree) (a' b' : Recorded Tree) : Recorded Tree := do
  let left ← times (← a') b
  plus left (← times a (← b'))

def quotientRule (a b : Tree) (a' b' : Recorded Tree) : Recorded Tree := do
  let left ← times (← a') b
  let numerator ← minus left (← times a (← b'))
  dividedBy numerator (← toPower b (.ofFloat 2))

def powerRule (base exponent : Tree) (base' : Recorded Tree) : Recorded Tree := do
  let lowered ← toPower base (← minus exponent .one)
  times (← times exponent lowered) (← base')

/-- The derivative with its folds. Of functions that are no rational operations none are recorded. -/
def derivative : Tree → Recorded Tree
  | .builtin .negate [a] => return (← derivative a).opposite
  | .builtin .add [a, b] => do plus (← derivative a) (← derivative b)
  | .builtin .sub [a, b] => do minus (← derivative a) (← derivative b)
  | .builtin .mul [a, b] => productRule a b (derivative a) (derivative b)
  | .builtin .div [a, b] => quotientRule a b (derivative a) (derivative b)
  | .builtin .pow [a, b] =>
    if b.mentionsVariable then silent (Tree.builtin .pow [a, b]).derivative else powerRule a b (derivative a)
  | t => silent t.derivative

/-! ### The result -/

theorem result_pure {α : Type} (a : α) : (pure a : Recorded α).result = .ok a := rfl

private theorem result_bind {α β : Type} (x : Recorded α) (next : α → Recorded β) :
    (x >>= next).result = x.result >>= fun a => (next a).result := by
  obtain ⟨result, folds⟩ := x
  cases result <;> rfl

private theorem result_ite {α : Type} (c : Bool) (x y : Recorded α) :
    (if c then x else y).result = if c then x.result else y.result := by
  cases c <;> rfl

private theorem result_folded (op : Builtin) (a b : Tree) : (folded op a b).result = .ok (Tree.folded op a b) := by
  rw [folded, Tree.folded]
  cases a.number? with
  | none => rfl
  | some x =>
    cases b.number? with
    | none => rfl
    | some y => cases hfold : Value.numberBinary op x y <;> simp only [hfold, result_pure]

private theorem result_plus (a b : Tree) : (plus a b).result = .ok (a.plus b) := by
  simp only [plus, Tree.plus, result_ite, result_pure, result_folded, ← apply_ite Except.ok]

theorem result_minus (a b : Tree) : (minus a b).result = .ok (a.minus b) := by
  simp only [minus, Tree.minus, result_ite, result_pure, result_folded, ← apply_ite Except.ok]

private theorem result_times (a b : Tree) : (times a b).result = .ok (a.times b) := by
  simp only [times, Tree.times, result_ite, result_pure, result_folded, ← apply_ite Except.ok]

private theorem result_dividedBy (a b : Tree) : (dividedBy a b).result = .ok (a.dividedBy b) := by
  simp only [dividedBy, Tree.dividedBy, result_ite, result_pure, result_folded, ← apply_ite Except.ok]

theorem result_toPower (a b : Tree) : (toPower a b).result = .ok (a.toPower b) := by
  simp only [toPower, Tree.toPower, result_ite, result_pure, result_folded, ← apply_ite Except.ok]

theorem result_derivative (t : Tree) : (derivative t).result = t.derivative := by
  have hok {α β : Type} (a : α) (next : α → Except RuntimeError β) : (.ok a >>= next) = next a := rfl
  induction t using derivative.induct with
  | case1 a ih =>
    simp only [derivative, Tree.derivative, result_bind, result_pure, ih]
    rfl
  | case2 a b iha ihb =>
    simp only [derivative, Tree.derivative, result_bind, result_plus, iha, ihb]
    rfl
  | case3 a b iha ihb =>
    simp only [derivative, Tree.derivative, result_bind, result_minus, iha, ihb]
    rfl
  | case4 a b iha ihb =>
    simp only [derivative, Tree.derivative, productRule, result_bind, result_plus, result_times, iha, ihb, hok]
    rfl
  | case5 a b iha ihb =>
    simp only [derivative, Tree.derivative, quotientRule, result_bind, result_times, result_minus, result_toPower,
      result_dividedBy, iha, ihb, hok]
    rfl
  | case6 a b hb => rw [derivative, if_pos hb, silent]
  | case7 a b hb iha =>
    simp only [derivative, if_neg hb, powerRule, result_bind, result_minus, result_toPower, result_times, iha, hok]
    simp only [Tree.derivative, Tree.powerRule, hb]
    rfl
  | case8 t =>
    rw [derivative, silent]
    all_goals assumption

end Recorded
end Reckoner
