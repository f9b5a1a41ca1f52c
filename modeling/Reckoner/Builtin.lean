import Reckoner.Kind
import Reckoner.Number

/-! The built-in operators and functions: how each is written, how many arguments it takes and of
which kinds; and the words and constants whose names are taken. -/
namespace Reckoner

inductive Builtin
  | add | sub | mul | div | rem | pow
  | negate | equal | notEqual | less | greater | lessEqual | greaterEqual
  | sin | cos | tan | asin | acos | atan | sinh | cosh | tanh | asinh | acosh | atanh | ln | log10 | exp
  | sqrt | cbrt | magnitude | floor | ceil | round | trunc | sign | realPart | imaginaryPart | conj | phase
  | atan2 | bitAnd | bitOr | bitXor
  | transpose | determinant | width | height | sum | length | get | fill | identity | product
  | min | max
  | run | toText | substring | toBignum | toNumber | print
  deriving DecidableEq, Repr

inductive Arity
  | exactly (count : Nat)
  | atLeast (count : Nat)
  deriving DecidableEq, Repr

namespace Arity

def accepts : Arity → Nat → Bool
  | exactly count, n => n == count
  | atLeast count, n => count ≤ n

def count : Arity → Nat
  | exactly count => count
  | atLeast count => count

def text : Arity → Text
  | exactly count => Text.ofNat count
  | atLeast count => "at least ".toList ++ Text.ofNat count

end Arity

namespace Builtin

def all : List Builtin :=
  [ add, sub, mul, div, rem, pow, negate, equal, notEqual, less, greater, lessEqual, greaterEqual, sin,
    cos, tan, asin, acos, atan, sinh, cosh, tanh, asinh, acosh, atanh, ln, log10, exp, sqrt, cbrt,
    magnitude, floor, ceil, round, trunc, sign, realPart, imaginaryPart, conj, phase, atan2, bitAnd, bitOr,
    bitXor, transpose, determinant, width, height, sum, length, get, fill, identity, product, min, max,
    run, toText, substring, toBignum, toNumber, print ]

def name : Builtin → Text
  | add => "+".toList
  | sub => "-".toList
  | mul => "*".toList
  | div => "/".toList
  | rem => "%".toList
  | pow => "^".toList
  | negate => "neg".toList
  | equal => "==".toList
  | notEqual => "!=".toList
  | less => "<".toList
  | greater => ">".toList
  | lessEqual => "<=".toList
  | greaterEqual => ">=".toList
  | sin => "sin".toList
  | cos => "cos".toList
  | tan => "tan".toList
  | asin => "asin".toList
  | acos => "acos".toList
  | atan => "atan".toList
  | sinh => "sinh".toList
  | cosh => "cosh".toList
  | tanh => "tanh".toList
  | asinh => "asinh".toList
  | acosh => "acosh".toList
  | atanh => "atanh".toList
  | ln => "ln".toList
  | log10 => "log".toList
  | exp => "exp".toList
  | sqrt => "sqrt".toList
  | cbrt => "cbrt".toList
  | magnitude => "abs".toList
  | floor => "floor".toList
  | ceil => "ceil".toList
  | round => "round".toList
  | trunc => "trunc".toList
  | sign => "sgn".toList
  | realPart => "re".toList
  | imaginaryPart => "im".toList
  | conj => "conj".toList
  | phase => "arg".toList
  | atan2 => "atan2".toList
  | bitAnd => "and".toList
  | bitOr => "or".toList
  | bitXor => "xor".toList
  | transpose => "transpose".toList
  | determinant => "det".toList
  | width => "width".toList
  | height => "height".toList
  | sum => "sum".toList
  | length => "length".toList
  | get => "get".toList
  | fill => "fill".toList
  | identity => "ident".toList
  | product => "mmul".toList
  | min => "min".toList
  | max => "max".toList
  | run => "run".toList
  | toText => "str".toList
  | substring => "substr".toList
  | toBignum => "big".toList
  | toNumber => "num".toList
  | print => "print".toList

def isInfix : Builtin → Bool
  | add | sub | mul | div | rem | pow | equal | notEqual | less | greater | lessEqual | greaterEqual => true
  | _ => false

def arity : Builtin → Arity
  | add | sub | mul | div | rem | pow | equal | notEqual | less | greater | lessEqual | greaterEqual |
    atan2 | bitAnd | bitOr | bitXor | product => .exactly 2
  | get | fill | substring => .exactly 3
  | min | max | run => .atLeast 1
  | _ => .exactly 1

/-- The kinds accepted at each position; the last set also stands for all positions behind it. -/
def kinds : Builtin → List KindSet
  | add | min | max => [.additive]
  | sub | mul | div | pow | negate => [.numeric]
  | equal | notEqual | less | greater | lessEqual | greaterEqual | toText | print => [.any]
  | length => [[.number, .vector, .string]]
  | get => [.elementwise, [.number]]
  | fill | identity => [[.number]]
  | run => [[.function, .string], .any]
  | substring => [[.string], [.number]]
  | toBignum | toNumber => [.representable]
  | _ => [.elementwise]

def kindsAt (op : Builtin) (position : Nat) : KindSet :=
  (op.kinds[position]? <|> op.kinds.getLast?).getD .any

def ofName? (name : Text) : Option Builtin := all.find? fun op => !op.isInfix && op.name == name

end Builtin

def constant? (name : Text) : Option Number :=
  if name = "pi".toList then some (.real 3.141592653589793)
  else if name = "e".toList then some (.real 2.718281828459045)
  else if name = "i".toList then some .i
  else if name = "inf".toList then some (.real (Binary64.infinity false))
  else if name = "nan".toList then some (.real Binary64.nan)
  else none

def keywords : List Text :=
  ["if", "else", "while", "return", "break", "continue", "delete"].map String.toList

def isKeyword (name : Text) : Bool := keywords.contains name

/-- A name that may not be given to a function or a global variable. -/
def isReserved (name : Text) : Bool :=
  isKeyword name || (constant? name).isSome || (Builtin.ofName? name).isSome

end Reckoner
