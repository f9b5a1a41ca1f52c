import Reckoner.Environment
import Reckoner.Numeral
import Reckoner.Value.Arithmetic

/-! The built-in functions on vectors, strings and bignums, and the application of every builtin
that neither calls a function nor prints. -/
namespace Reckoner.Value

def matrixArg (function : Text) (position : Nat) : Value → Except RuntimeError Matrix
  | .vector m => .ok m
  | .number n => .ok (.scalar n)
  | v => .error (mismatch function position .elementwise v)

def numberArg (function : Text) (position : Nat) (v : Value) : Except RuntimeError Number :=
  match v.number? with
  | some n => .ok n
  | none => .error (mismatch function position [.number] v)

def indexArg (function : Text) (position : Nat) (v : Value) : Except RuntimeError Nat := do
  let n ← numberArg function position v
  if !n.isReal || !Binary64.isWhole n.re || n.re < 0 then
    throw (.invalidArgument (.notIndex function position n.text))
  countOf n.re

def transpose : Value → Except RuntimeError Value
  | .vector m => .ok (.vector m.transpose)
  | .number n => .ok (.number n)
  | v => .error (mismatch Builtin.transpose.name 1 .elementwise v)

def width (v : Value) : Except RuntimeError Value := do
  return ofFloat (← ofCount (← matrixArg Builtin.width.name 1 v).width)

def height (v : Value) : Except RuntimeError Value := do
  return ofFloat (← ofCount (← matrixArg Builtin.height.name 1 v).height)

def sum (v : Value) : Except RuntimeError Value := do
  return .number (← (← matrixArg Builtin.sum.name 1 v).sum)

/-- The number of cells or characters, and one for anything else. -/
def length : Value → Value
  | .vector m => ofFloat (Binary64.ofNat m.cells.size)
  | .string t => ofFloat (Binary64.ofNat t.length)
  | _ => ofFloat 1

def get (v column row : Value) : Except RuntimeError Value := do
  let name := Builtin.get.name
  let m ← matrixArg name 1 v
  let x ← indexArg name 2 column
  let y ← indexArg name 3 row
  if m.width ≤ x then throw (.indexOutOfBounds (m.width - 1) x)
  match m.get? x y with
  | some n => return .number n
  | none => throw (.indexOutOfBounds (m.height - 1) y)

def fill (v columns rows : Value) (limit : Nat := Matrix.addressable) : Except RuntimeError Value := do
  let name := Builtin.fill.name
  let n ← numberArg name 1 v
  let width ← indexArg name 2 columns
  let height ← indexArg name 3 rows
  return .vector (← Matrix.filled limit width height n)

def identity (v : Value) (limit : Nat := Matrix.addressable) : Except RuntimeError Value := do
  return .vector (← Matrix.identity limit (← indexArg Builtin.identity.name 1 v))

def determinant (v : Value) : Except RuntimeError Value := do
  return .number (← (← matrixArg Builtin.determinant.name 1 v).det)

def product (v w : Value) (limit : Nat := Matrix.addressable) : Except RuntimeError Value := do
  let a ← matrixArg Builtin.product.name 1 v
  let b ← matrixArg Builtin.product.name 2 w
  return .vector (← a.mul limit b)

def substring (v start length : Value) : Except RuntimeError Value := do
  let name := Builtin.substring.name
  let .string t := v | throw (mismatch name 1 [.string] v)
  let start ← indexArg name 2 start
  let length ← indexArg name 3 length
  if t.length < start then throw (.indexOutOfBounds t.length start)
  if t.length - start < length then throw (.invalidArgument (.pastStringEnd length start t.length))
  return .string ((t.drop start).take length)

def toBignum (precision : Nat) (v : Value) : Except RuntimeError Value := do
  let converted ← match v with
    | .bignum x => pure (some x)
    | .number n => pure (Bignum.ofNumber precision n)
    | .string t => pure (Bignum.parse 10 precision t)
    | v => throw (mismatch Builtin.toBignum.name 1 .representable v)
  match converted with
  | some x => return .bignum x
  | none => throw (.invalidArgument (.noBignum v.text))

def toNumber : Value → Except RuntimeError Value
  | .number n => .ok (.number n)
  | .bignum x => .ok (.number x.toNumber)
  | .string t =>
    match Numeral.read 10 (Text.trim t) with
    | some x => .ok (ofFloat x)
    | none => .error (.invalidArgument (.noNumber t))
  | v => .error (mismatch Builtin.toNumber.name 1 .representable v)

def wrongCount (op : Builtin) (args : List Value) : RuntimeError :=
  .argumentCount op.name op.arity.count args.length

def one (op : Builtin) (args : List Value) (f : Value → Except RuntimeError Value) :
    Except RuntimeError Value :=
  match args with
  | [v] => f v
  | _ => .error (wrongCount op args)

def two (op : Builtin) (args : List Value) (f : Value → Value → Except RuntimeError Value) :
    Except RuntimeError Value :=
  match args with
  | [v, w] => f v w
  | _ => .error (wrongCount op args)

def three (op : Builtin) (args : List Value) (f : Value → Value → Value → Except RuntimeError Value) :
    Except RuntimeError Value :=
  match args with
  | [u, v, w] => f u v w
  | _ => .error (wrongCount op args)

def applyBuiltin (config : Config) (op : Builtin) (args : List Value) : Except RuntimeError Value :=
  match op with
  | .add | .sub | .mul | .div | .rem | .pow | .atan2 | .bitAnd | .bitOr | .bitXor => 
    two op args fun v w => binary op v w config.maxVectorCells
  | .negate => one op args negate
  | .equal | .notEqual | .less | .greater | .lessEqual | .greaterEqual =>
    two op args fun v w => .ok (ofBool (compare op v w))
  | .transpose => one op args transpose
  | .determinant => one op args determinant
  | .width => one op args width
  | .height => one op args height
  | .sum => one op args sum
  | .length => one op args fun v => .ok v.length
  | .get => three op args get
  | .fill => three op args fun u v w => fill u v w config.maxVectorCells
  | .identity => one op args fun v => identity v config.maxVectorCells
  | .product => two op args fun v w => product v w config.maxVectorCells
  | .min => extremum .min args
  | .max => extremum .max args
  | .toText => one op args fun v => .ok (.string (v.format config.bignumDigits))
  | .substring => three op args substring
  | .toBignum => one op args (toBignum config.bignumPrecision)
  | .toNumber => one op args toNumber
  | op => one op args (elementwise op)

end Reckoner.Value
