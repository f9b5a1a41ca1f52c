import Reckoner.Binary64.Decimal
import Reckoner.Dimension
import Reckoner.Kind

/-! The causes for which an evaluation fails, and their messages. -/
namespace Reckoner

inductive Aligned
  | add | subtract | remainder
  deriving DecidableEq, Repr

def Aligned.text : Aligned → Text
  | .add => "add".toList
  | .subtract => "subtract".toList
  | .remainder => "take the remainder of".toList

inductive SlotKind
  | argument | localVariable
  deriving DecidableEq, Repr

def SlotKind.text : SlotKind → Text
  | .argument => "argument".toList
  | .localVariable => "local".toList

/-- Why an argument of the right kind is refused. -/
inductive BadArgument
  /-- A count with no exact number. -/
  | countTooLarge (count : Nat)
  | notWhole (value : Float)
  /-- A whole number beyond those that binary64 counts one by one. -/
  | wholeTooLarge (value : Float)
  | negative (value : Float)
  /-- What stands where `function` expects an index. -/
  | notIndex (function : Text) (position : Nat) (found : Text)
  | bignumExponentTooLarge (exponent : Int)
  | bignumExponentNotWhole (found : Text)
  /-- A number that is infinite or not a number. -/
  | noExactBignum (found : Text)
  | noBignum (found : Text)
  | noNumber (found : Text)
  | notArithmetic (operator : Text)
  | pastStringEnd (length start count : Nat)
  deriving DecidableEq

def BadArgument.text : BadArgument → Text
  | .countTooLarge count => Text.ofNat count ++ " is too large to represent exactly".toList
  | .notWhole value => "expected an integer, found ".toList ++ Binary64.text value
  | .wholeTooLarge value => Binary64.text value ++ " is too large to be used as an integer".toList
  | .negative value => "expected a non-negative integer, found ".toList ++ Binary64.text value
  | .notIndex function position found =>
    function ++ " expects a non-negative integer at position ".toList ++ Text.ofNat position
      ++ ", found ".toList ++ found
  | .bignumExponentTooLarge exponent =>
    "exponent ".toList ++ Text.ofInt exponent ++ " is too large for a bignum".toList
  | .bignumExponentNotWhole found => "bignum powers need an integer exponent, found ".toList ++ found
  | .noExactBignum found => found ++ " has no exact bignum value".toList
  | .noBignum found => "'".toList ++ found ++ "' has no bignum value".toList
  | .noNumber found => "'".toList ++ found ++ "' is not a number".toList
  | .notArithmetic operator => "'".toList ++ operator ++ "' is not an arithmetic operator".toList
  | .pastStringEnd length start count =>
    Text.ofNat length ++ " characters from offset ".toList ++ Text.ofNat start
      ++ " run past the end of a ".toList ++ Text.ofNat count ++ " character string".toList

inductive BadShape
  | cellCount (count width height : Nat)
  | notSquare (width height : Nat)
  | notChained (width height width' height' : Nat)
  deriving DecidableEq

private def shape (width height : Nat) : Text := Text.ofNat width ++ 'x' :: Text.ofNat height

def BadShape.text : BadShape → Text
  | .cellCount count width height =>
    Text.ofNat count ++ " cells do not fill a ".toList ++ shape width height ++ " vector".toList
  | .notSquare width height => "det needs a square matrix, found ".toList ++ shape width height
  | .notChained width height width' height' =>
    "cannot multiply ".toList ++ shape width height ++ " by ".toList ++ shape width' height'

inductive NoDerivative
  | localVariable | customCall | function
  | builtin (name : Text)
  | codeBlock (name : Text)
  deriving DecidableEq

def NoDerivative.text : NoDerivative → Text
  | .localVariable => "a local variable".toList
  | .customCall => "a custom function call".toList
  | .function => "an anonymous function".toList
  | .builtin name => "'".toList ++ name ++ "'".toList
  | .codeBlock name => "the code block of ".toList ++ name

inductive RuntimeError
  | typeMismatch (function : Text) (position : Nat) (expected : KindSet) (found : Kind)
  | dimensionMismatch (operation : Aligned) (left right : Dimension)
  | indexOutOfBounds (max found : Nat)
  | invalidSlot (kind : SlotKind) (index : Nat)
  | deletedFunction (id : Nat)
  | deletedVariable (slot : Nat)
  | unknownFunction (name : Text)
  | unknownVariable (name : Text)
  | argumentCount (name : Text) (expected found : Nat)
  | divisionByZero
  | infiniteLoop (limit : Nat)
  /-- A `break` or `continue` that no loop of its function body catches. -/
  | strayLoopControl
  | allocationFailed (cells : Nat)
  | notDifferentiable (what : NoDerivative)
  | invalidArgument (reason : BadArgument)
  | shapeMismatch (reason : BadShape)
  /-- Calls nested deeper than the limit. -/
  | callsTooDeep (limit : Nat)
  deriving DecidableEq

namespace RuntimeError

private def counted (name expected : Text) (found : Nat) : Text :=
  "'".toList ++ name ++ "' expects ".toList ++ expected ++ " argument(s), but got ".toList
    ++ Text.ofNat found ++ ['.']

def message : RuntimeError → Text
  | typeMismatch function position expected found =>
    "Type error: '".toList ++ function ++ "' expects ".toList ++ expected.text ++ " for argument ".toList
      ++ Text.ofNat position ++ ", but found ".toList ++ found.text ++ ['.']
  | dimensionMismatch operation left right =>
    "Unit mismatch: cannot ".toList ++ operation.text ++ " [".toList ++ left.text
      ++ "] and [".toList ++ right.text ++ "].".toList
  | indexOutOfBounds max found =>
    "Index out of bounds. Maximum is ".toList ++ Text.ofNat max ++ ", but found ".toList ++ Text.ofNat found
      ++ " instead.".toList
  | invalidSlot kind index => "Invalid ".toList ++ kind.text ++ " slot ".toList ++ Text.ofNat index ++ ['.']
  | deletedFunction id => "Function #".toList ++ Text.ofNat id ++ " has been deleted.".toList
  | deletedVariable slot => "Variable #".toList ++ Text.ofNat slot ++ " has been deleted.".toList
  | unknownFunction name => "Unknown function '".toList ++ name ++ "'.".toList
  | unknownVariable name => "Unknown variable '".toList ++ name ++ "'.".toList
  | argumentCount name expected found => counted name (Text.ofNat expected) found
  | divisionByZero => "Division by zero.".toList
  | infiniteLoop limit =>
    "infinite loop detected (more than ".toList ++ Text.ofNat limit ++ " iterations).".toList
  | strayLoopControl => "'break' or 'continue' escaped its function body.".toList
  | allocationFailed cells =>
    "Could not allocate a vector of ".toList ++ Text.ofNat cells ++ " cells.".toList
  | notDifferentiable what => "Cannot differentiate ".toList ++ what.text ++ ['.']
  | invalidArgument reason => "Invalid argument: ".toList ++ reason.text ++ ['.']
  | shapeMismatch reason => "Shape mismatch: ".toList ++ reason.text ++ ['.']
  | callsTooDeep limit => "Calls are nested more than ".toList ++ Text.ofNat limit ++ " deep.".toList

end RuntimeError
end Reckoner
