import Reckoner.Builtin
import Reckoner.RuntimeError

/-! The causes for which a text is not accepted, with the byte where each was found, and their
messages. -/
namespace Reckoner

inductive BadBase
  | failed (error : RuntimeError)
  | notABase (value : Text)
  deriving DecidableEq

def BadBase.text : BadBase → Text
  | .failed error => error.message
  | .notABase value => value ++ " is not an integer from 2 to 36".toList

inductive ParseError
  | unexpectedToken (token : Text) (position : Nat)
  | bracketMismatch (position : Nat)
  | emptyExpression (position : Nat)
  | missingOperand (position : Nat)
  | invalidOperator (operator : Text) (position : Nat)
  | invalidNumber (literal : Text) (position : Nat)
  | unknownName (name : Text) (position : Nat)
  | unknownUnit (name : Text) (position : Nat)
  | unknownFunction (name : Text) (position : Nat)
  | arityMismatch (name : Text) (expected : Arity) (found position : Nat)
  | malformedParameters (position : Nat)
  | invalidBase (reason : BadBase) (position : Nat)
  /-- A base whose value hangs on the frame. -/
  | baseUsesFrame (position : Nat)
  | strayBreak (position : Nat)
  | strayContinue (position : Nat)
  /-- An `else` that does not follow an `if`. -/
  | danglingElse (position : Nat)
  | statementAfterReturn (position : Nat)
  | reservedName (name : Text) (position : Nat)
  | invalidDefinition (position : Nat)
  deriving DecidableEq

namespace ParseError

def position : ParseError → Nat
  | unexpectedToken _ p | bracketMismatch p | emptyExpression p | missingOperand p | invalidOperator _ p
  | invalidNumber _ p | unknownName _ p | unknownUnit _ p | unknownFunction _ p | arityMismatch _ _ _ p
  | malformedParameters p | invalidBase _ p | baseUsesFrame p | strayBreak p | strayContinue p
  | danglingElse p | statementAfterReturn p | reservedName _ p | invalidDefinition p => p

private def quoted (t : Text) : Text := '\'' :: t ++ ['\'']

private def complaint : ParseError → Text
  | unexpectedToken token _ => "Unexpected token ".toList ++ quoted token ++ ['.']
  | bracketMismatch _ => "Mismatched brackets.".toList
  | emptyExpression _ => "Expected an expression.".toList
  | missingOperand _ => "Operator is missing an operand.".toList
  | invalidOperator operator _ => "Invalid operator ".toList ++ quoted operator ++ ['.']
  | invalidNumber literal _ => "Invalid number ".toList ++ quoted literal ++ ['.']
  | unknownName name _ => "Unknown name ".toList ++ quoted name ++ ['.']
  | unknownUnit name _ => "Unknown unit ".toList ++ quoted name ++ ['.']
  | unknownFunction name _ => "Unknown function ".toList ++ quoted name ++ ['.']
  | arityMismatch name expected found _ =>
    quoted name ++ " expects ".toList ++ expected.text ++ " argument(s), but got ".toList
      ++ Text.ofNat found ++ ['.']
  | malformedParameters _ => "Malformed parameter list.".toList
  | invalidBase reason _ => "Invalid base: ".toList ++ reason.text ++ ['.']
  | baseUsesFrame _ => "A base may not refer to arguments or local variables.".toList
  | strayBreak _ => "'break' outside of a loop.".toList
  | strayContinue _ => "'continue' outside of a loop.".toList
  | danglingElse _ => "'else' without a preceding 'if'.".toList
  | statementAfterReturn _ => "Statement after 'return'.".toList
  | reservedName name _ => quoted name ++ " is a reserved name.".toList
  | invalidDefinition _ => "Invalid definition.".toList

def message (e : ParseError) : Text :=
  "Error at ".toList ++ Text.ofNat e.position ++ ": ".toList ++ e.complaint

end ParseError

inductive Failure
  | parse (error : ParseError)
  | runtime (error : RuntimeError)
  deriving DecidableEq

def Failure.message : Failure → Text
  | parse error => error.message
  | runtime error => error.message

end Reckoner
