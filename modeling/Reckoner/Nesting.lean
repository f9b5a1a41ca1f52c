import Reckoner.Token

/-! Brackets over lexemes. A `<` opens a bracket only where an operand is expected, and a `>` closes
one only when the innermost open bracket is a `<`; everywhere else they compare. -/
namespace Reckoner

/-- The open brackets, innermost first, and whether a bracket met the wrong partner or a string did
not end. -/
structure Nesting where
  opened : List Token := []
  afterOperand : Bool := false
  broken : Bool := false
  deriving Repr

namespace Nesting

def outside : Nesting := {}

def inside (bracket : Token) : Nesting := { opened := [bracket] }

def opens (n : Nesting) : Token → Bool
  | .leftParen | .leftBracket | .leftBrace => true
  | .less => !n.afterOperand
  | _ => false

def closes (n : Nesting) : Token → Bool
  | .rightParen | .rightBracket | .rightBrace => true
  | .greater => n.opened.head? == some .less
  | _ => false

def feed (n : Nesting) (token : Token) : Nesting :=
  if n.opens token then { n with opened := token :: n.opened, afterOperand := false }
  else if n.closes token then
    { opened := n.opened.tail
      afterOperand := true
      broken := n.broken || n.opened.head?.bind Token.closer != some token }
  else { n with afterOperand := token.endsOperand, broken := n.broken || token == .openString }

/-- Where a bracket group ends, whether it is broken, and the lexemes behind it. -/
structure Group where
  stop : Nat
  broken : Bool
  rest : List Lexeme

/-- The group that is being read; one that is not closed extends to `limit`. -/
def group (limit : Nat) (n : Nesting) : List Lexeme → Group
  | [] => ⟨limit, true, []⟩
  | lexeme :: rest =>
    let n := n.feed lexeme.token
    if n.opened.isEmpty then ⟨lexeme.stop, n.broken, rest⟩ else n.group limit rest

/-- The start of the first `separator` outside of brackets, or `limit`. -/
def find (separator : Token) (limit : Nat) (n : Nesting) : List Lexeme → Nat
  | [] => limit
  | lexeme :: rest =>
    if n.opened.isEmpty ∧ lexeme.token = separator then lexeme.start
    else find separator limit (n.feed lexeme.token) rest

/-- The ranges between the separators outside of brackets; the first one starts at `start`. -/
def split (separator : Token) (limit : Nat) (n : Nesting) (start : Nat) : List Lexeme → List (Nat × Nat)
  | [] => [(start, limit)]
  | lexeme :: rest =>
    let next := n.feed lexeme.token
    if n.opened.isEmpty ∧ lexeme.token = separator then
      (start, lexeme.start) :: split separator limit next lexeme.stop rest
    else split separator limit next start rest

end Nesting

namespace Text

def groupEnd (t : Text) : Option Nat :=
  match Lexeme.lex 10 0 t with
  | [] => none
  | first :: rest => do
    let _ ← first.token.closer
    let group := (Nesting.inside first.token).group (byteLength t) rest
    if group.broken then none else some group.stop

/-- The start of the first `separator` outside of brackets, or the length of the text. -/
def findOutside (separator : Token) (t : Text) : Nat :=
  Nesting.outside.find separator (byteLength t) (Lexeme.lex 10 0 t)

/-- The ranges of the pieces between the separators outside of brackets; there is always at least
one. -/
def splitOutside (base : Nat) (separator : Token) (t : Text) : List (Nat × Nat) :=
  Nesting.outside.split separator (byteLength t) 0 (Lexeme.lex base 0 t)

end Text
end Reckoner
