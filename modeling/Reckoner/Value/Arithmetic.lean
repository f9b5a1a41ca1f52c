import Reckoner.Value

/-! The operators on values: arithmetic on numbers, cell by cell on vectors and at the larger
precision on bignums, the joining of strings, and comparisons. -/
namespace Reckoner.Value

def mismatch (function : Text) (position : Nat) (expected : KindSet) (found : Value) : RuntimeError :=
  .typeMismatch function position expected found.kind

/-- The largest whole number up to which binary64 counts one by one. -/
def maxCounted : Nat := 0x1fffffffffffff

def ofCount (n : Nat) : Except RuntimeError Float :=
  if n ≤ maxCounted then .ok (Binary64.ofNat n) else .error (.invalidArgument (.countTooLarge n))

def wholeOf (x : Float) : Except RuntimeError Int :=
  if !Binary64.isWhole x then .error (.invalidArgument (.notWhole x))
  else if Binary64.ofNat maxCounted < x.abs then .error (.invalidArgument (.wholeTooLarge x))
  else .ok (Binary64.toInt x)

def countOf (x : Float) : Except RuntimeError Nat := do
  let n ← wholeOf x
  if n < 0 then throw (.invalidArgument (.negative x))
  return n.toNat

def elementFunction? : Builtin → Option (Number → Number)
  | .sin => some .sin
  | .cos => some .cos
  | .tan => some .tan
  | .asin => some .asin
  | .acos => some .acos
  | .atan => some .atan
  | .sinh => some .sinh
  | .cosh => some .cosh
  | .tanh => some .tanh
  | .asinh => some .asinh
  | .acosh => some .acosh
  | .atanh => some .atanh
  | .ln => some .ln
  | .log10 => some .log10
  | .exp => some .exp
  | .sqrt => some .sqrt
  | .cbrt => some .cbrt
  | .magnitude => some .magnitude
  | .floor => some (.mapParts Binary64.floor)
  | .ceil => some (.mapParts Binary64.ceil)
  | .round => some (.mapParts Binary64.round)
  | .trunc => some (.mapParts Binary64.trunc)
  | .sign => some .sign
  | .realPart => some .realPart
  | .imaginaryPart => some .imaginaryPart
  | .conj => some .conj
  | .phase => some .phase
  | _ => none

def elementwise (op : Builtin) (v : Value) : Except RuntimeError Value :=
  match elementFunction? op, v with
  | some f, .number n => .ok (.number (f n))
  | some f, .vector m => .ok (.vector (m.map f))
  | _, v => .error (mismatch op.name 1 .elementwise v)

def negate : Value → Except RuntimeError Value
  | .number n => .ok (.number (-n))
  | .vector m => .ok (.vector (m.map Number.neg))
  | .bignum x => .ok (.bignum x.neg)
  | v => .error (mismatch Builtin.negate.name 1 .numeric v)

def numberBinary (op : Builtin) (a b : Number) : Except RuntimeError Number :=
  match op with
  | .add => a.add b
  | .sub => a.sub b
  | .mul => .ok (a * b)
  | .div => a.div b
  | .rem => a.rem b
  | .pow => .ok (a.pow b)
  | .atan2 => .ok (a.atan2 b)
  | .bitAnd => .ok (a.bitwise (· &&& ·) b)
  | .bitOr => .ok (a.bitwise (· ||| ·) b)
  | .bitXor => .ok (a.bitwise (· ^^^ ·) b)
  | op => .error (.invalidArgument (.notArithmetic op.name))

def extent : Builtin → Matrix.Extent
  | .add | .sub | .pow | .bitOr | .bitXor => .larger
  | _ => .smaller

def combine (op : Builtin) (a b : Matrix) (limit : Nat) : Except RuntimeError Matrix :=
  a.combine limit (extent op) (numberBinary op) b

/-- An operator on numbers and vectors. A number goes with every cell of a vector, except that a sum
takes it for a vector of one cell. -/
def vectorBinary (op : Builtin) (v w : Value) (limit : Nat) : Except RuntimeError Value :=
  match v, w with
  | .number a, .number b => .number <$> numberBinary op a b
  | .number a, .vector m =>
    .vector <$> if op = .add then combine op (.scalar a) m limit else m.mapM (numberBinary op a)
  | .vector m, .number b =>
    .vector <$> if op = .add then combine op m (.scalar b) limit else m.mapM (numberBinary op · b)
  | .vector m, .vector m' => .vector <$> combine op m m' limit
  | .number _, w | .vector _, w => .error (mismatch op.name 2 .elementwise w)
  | v, _ => .error (mismatch op.name 1 .elementwise v)

/-- An operand as a bignum: a number is converted at the other operand's precision. -/
def promote (op : Builtin) (position : Nat) (v other : Value) : Except RuntimeError Bignum :=
  match v, other with
  | .bignum x, _ => .ok x
  | .number n, .bignum y =>
    match Bignum.ofNumber y.precision n with
    | some x => .ok x
    | none => .error (.invalidArgument (.noExactBignum n.text))
  | v, _ => .error (mismatch op.name position [.number, .bignum] v)

def bignumExponent (w : Value) : Except RuntimeError Int :=
  let exponent : Option Number := match w with
    | .number n => some n
    | .bignum y => some y.toNumber
    | _ => none
  match exponent.filter fun n => n.isReal && Binary64.isWhole n.re with
  | some n => wholeOf n.re
  | none => .error (.invalidArgument (.bignumExponentNotWhole w.text))

def bignumBinary (op : Builtin) (v w : Value) : Except RuntimeError Value := do
  let x ← promote op 1 v w
  if op = .pow then return .bignum (← x.pow (← bignumExponent w))
  let y ← promote op 2 w v
  match op with
  | .add => return .bignum (← x.add y)
  | .sub => return .bignum (← x.sub y)
  | .mul => return .bignum (x.mul y)
  | .div => return .bignum (← x.div y)
  | _ =>
    if v.kind = .bignum then throw (mismatch op.name 1 .elementwise v)
    else throw (mismatch op.name 2 .elementwise w)

/-- An operator of which one operand at least is a string: strings can be joined and nothing else. -/
def stringBinary (op : Builtin) (v w : Value) : Except RuntimeError Value :=
  if op ≠ .add then
    if v.kind = .string then .error (mismatch op.name 1 (op.kindsAt 0) v)
    else .error (mismatch op.name 2 (op.kindsAt 0) w)
  else match v, w with
    | .string s, .string t => .ok (.string (s ++ t))
    | v, .string _ => .error (mismatch op.name 1 [.string] v)
    | _, w => .error (mismatch op.name 2 [.string] w)

def binary (op : Builtin) (v w : Value) (limit : Nat := Matrix.addressable) : Except RuntimeError Value :=
  if v.kind = .string ∨ w.kind = .string then stringBinary op v w
  else if v.kind = .bignum ∨ w.kind = .bignum then bignumBinary op v w
  else vectorBinary op v w limit

/-- A comparison: equality looks at every component, the others at the readings. -/
def compare (op : Builtin) (v w : Value) : Bool :=
  match op with
  | .equal => v.eqv w
  | .notEqual => !v.eqv w
  | .less => v.order w == .lt
  | .greater => v.order w == .gt
  | .lessEqual => v.order w != .gt
  | .greaterEqual => v.order w != .lt
  | _ => false

inductive Extremum
  | min | max
  deriving DecidableEq

def Extremum.name : Extremum → Text
  | min => Builtin.min.name
  | max => Builtin.max.name

/-- The better of two values; the earlier one of a tie. -/
def better (which : Extremum) (best candidate : Value) : Value :=
  let sought : Ordering := match which with
    | .min => .lt
    | .max => .gt
  if candidate.order best = sought then candidate else best

/-- The earliest of the values with the smallest or largest reading. -/
def extremum (which : Extremum) : List Value → Except RuntimeError Value
  | [] => .error (.argumentCount which.name 1 0)
  | v :: vs => .ok (vs.foldl (better which) v)

end Reckoner.Value
