import Reckoner.Value.Arithmetic

/-! Symbolic derivatives with respect to the first argument. Results are simplified as they are
built: zeros and ones drop out, and operations on number literals are carried out. -/
namespace Reckoner.Tree

/-- Whether the tree mentions the first argument outside of anonymous functions. -/
def mentionsVariable : Tree → Bool
  | argument index => index == 0
  | builtin _ args | call _ args => anyMentions args
  | vector _ _ cells => anyMentions cells
  | literal _ | localVariable _ | globalVariable _ | function .. => false
where
  /-- Whether one of the trees does. -/
  anyMentions : List Tree → Bool
    | [] => false
    | t :: ts => t.mentionsVariable || anyMentions ts

def ofFloat (x : Float) : Tree := number (.real x)

def zero : Tree := number .zero

def one : Tree := number .one

def isZero (t : Tree) : Bool := t.number?.any fun n => n.isZero && n.dimension.isDimensionless

def isOne (t : Tree) : Bool := t.number?.any fun n => n.eqv .one

/-- An operator, carried out on two number literals when that does not fail. -/
def folded (op : Builtin) (a b : Tree) : Tree :=
  match a.number?, b.number? with
  | some x, some y => match Value.numberBinary op x y with
    | .ok n => number n
    | .error _ => builtin op [a, b]
  | _, _ => builtin op [a, b]

def plus (a b : Tree) : Tree := if a.isZero then b else if b.isZero then a else folded .add a b

def opposite : Tree → Tree
  | literal (.number n) => number (-n)
  | builtin .negate [t] => t
  | t => builtin .negate [t]

def minus (a b : Tree) : Tree := if b.isZero then a else if a.isZero then b.opposite else folded .sub a b

def times (a b : Tree) : Tree :=
  if a.isZero || b.isZero then zero else if a.isOne then b else if b.isOne then a else folded .mul a b

def dividedBy (a b : Tree) : Tree := if a.isZero then zero else if b.isOne then a else folded .div a b

def toPower (a b : Tree) : Tree := if b.isZero then one else if b.isOne then a else folded .pow a b

def applied (op : Builtin) (t : Tree) : Tree :=
  match t.number?, Value.elementFunction? op with
  | some n, some f => number (f n)
  | _, _ => builtin op [t]

def squared (t : Tree) : Tree := t.toPower (ofFloat 2)

def outerDerivative (op : Builtin) (u : Tree) : Except RuntimeError Tree :=
  match op with
  | .sin => .ok (u.applied .cos)
  | .cos => .ok (u.applied .sin).opposite
  | .tan => .ok (one.dividedBy (u.applied .cos).squared)
  | .asin => .ok (one.dividedBy ((one.minus u.squared).applied .sqrt))
  | .acos => .ok (one.dividedBy ((one.minus u.squared).applied .sqrt)).opposite
  | .atan => .ok (one.dividedBy (one.plus u.squared))
  | .sinh => .ok (u.applied .cosh)
  | .cosh => .ok (u.applied .sinh)
  | .tanh => .ok (one.dividedBy (u.applied .cosh).squared)
  | .asinh => .ok (one.dividedBy ((u.squared.plus one).applied .sqrt))
  | .acosh => .ok (one.dividedBy ((u.squared.minus one).applied .sqrt))
  | .atanh => .ok (one.dividedBy (one.minus u.squared))
  | .ln => .ok (one.dividedBy u)
  | .log10 => .ok (one.dividedBy (u.times (ofFloat Complex.lnTen)))
  | .exp => .ok (u.applied .exp)
  | .sqrt => .ok (one.dividedBy ((ofFloat 2).times (u.applied .sqrt)))
  | .cbrt => .ok (one.dividedBy ((ofFloat 3).times (u.applied .cbrt).squared))
  | .magnitude => .ok (u.applied .sign)
  | op => .error (.notDifferentiable (.builtin op.name))

/-- The derivative of `base ^ exponent`, with rules of their own for a constant exponent and a
constant base; the derivatives of the operands are taken where a rule needs them. -/
def powerRule (base exponent : Tree) (base' exponent' : Except RuntimeError Tree) :
    Except RuntimeError Tree :=
  if !exponent.mentionsVariable then do
    let lowered := base.toPower (exponent.minus one)
    return (exponent.times lowered).times (← base')
  else do
    let whole := base.toPower exponent
    let logarithm := base.applied .ln
    if !base.mentionsVariable then return (whole.times logarithm).times (← exponent')
    let growth := (← exponent').times logarithm
    let relative := (exponent.times (← base')).dividedBy base
    return whole.times (growth.plus relative)

mutual

def derivative : Tree → Except RuntimeError Tree
  | argument 0 => .ok one
  | literal _ | argument _ | globalVariable _ => .ok zero
  | localVariable _ => .error (.notDifferentiable .localVariable)
  | call .. => .error (.notDifferentiable .customCall)
  | function .. => .error (.notDifferentiable .function)
  | vector width height cells => vector width height <$> derivatives cells
  | builtin op [a] =>
    match op with
    | .negate => opposite <$> a.derivative
    | .realPart | .imaginaryPart | .conj => applied op <$> a.derivative
    | .floor | .ceil | .round | .trunc | .sign => .ok zero
    | op => do
      let outer ← outerDerivative op a
      return outer.times (← a.derivative)
  | builtin op [a, b] =>
    match op with
    | .add => do return (← a.derivative).plus (← b.derivative)
    | .sub => do return (← a.derivative).minus (← b.derivative)
    | .mul => do return ((← a.derivative).times b).plus (a.times (← b.derivative))
    | .div => do
      let numerator := ((← a.derivative).times b).minus (a.times (← b.derivative))
      return numerator.dividedBy b.squared
    | .pow => powerRule a b a.derivative b.derivative
    | .atan2 => do
      let numerator := (b.times (← a.derivative)).minus (a.times (← b.derivative))
      return numerator.dividedBy (b.squared.plus a.squared)
    | op => .error (.notDifferentiable (.builtin op.name))
  | builtin op _ => .error (.notDifferentiable (.builtin op.name))

def derivatives : List Tree → Except RuntimeError (List Tree)
  | [] => .ok []
  | t :: ts => do
    let d ← t.derivative
    let ds ← derivatives ts
    return d :: ds

end

end Reckoner.Tree
