import Reckoner.Text.Digit

/-! Tokens: a text is cut from left to right into blanks, which are skipped, and lexemes, each with
its place in bytes. How far a number extends depends on the base that is being read. -/
namespace Reckoner

inductive Token
  | number | identifier | string | openString
  | arrow | equal | notEqual | lessEqual | greaterEqual | less | greater | assign
  | plus | minus | star | slash | percent | caret | underscore | comma | semicolon
  | leftParen | rightParen | leftBracket | rightBracket | leftBrace | rightBrace
  /-- A character that starts no token. -/
  | stray
  deriving DecidableEq, Repr

namespace Token

def isOperator : Token → Bool
  | plus | minus | star | slash | percent | caret | equal | notEqual | lessEqual | greaterEqual | less
  | greater => true
  | _ => false

def endsOperand : Token → Bool
  | number | identifier | string => true
  | _ => false

def closer : Token → Option Token
  | leftParen => some rightParen
  | leftBracket => some rightBracket
  | leftBrace => some rightBrace
  | less => some greater
  | _ => none

end Token

/-- A token and the bytes it takes up: from `start` up to, not including, `stop`. -/
structure Lexeme where
  token : Token
  start : Nat
  stop : Nat
  deriving DecidableEq, Repr

namespace Lexeme

open Text (isDigitOf byteLength)

/-- The base that a letter behind a leading zero selects, unless the letter is a digit itself. -/
def markedBase (ambient : Nat) (letter : Char) : Option Nat :=
  if isDigitOf ambient letter then none
  else match letter with
    | 'x' | 'X' => some 16
    | 'b' | 'B' => some 2
    | 'o' | 'O' => some 8
    | _ => none

/-- The number of characters of further digits, with at most one point among them unless `dotted`;
behind a point there is a digit. -/
def digitsLength (base : Nat) (dotted : Bool) : Text → Nat
  | [] => 0
  | c :: t =>
    if isDigitOf base c then digitsLength base dotted t + 1
    else if c = '.' ∧ !dotted ∧ t.head?.any (isDigitOf base) then digitsLength base true t + 1
    else 0

/-- The number of characters of an exponent: `e`, an optional sign and decimal digits. -/
def exponentLength (base : Nat) (t : Text) : Nat :=
  if isDigitOf base 'e' then 0
  else match t with
    | c :: rest =>
      if c = 'e' ∨ c = 'E' then
        let sign := if rest.head?.any (fun s => s == '+' || s == '-') then 1 else 0
        let digits := ((rest.drop sign).takeWhile Char.isDigit).length
        if digits = 0 then 0 else 1 + sign + digits
      else 0
    | [] => 0

/-- The base that the digits behind `first` belong to, and the number of characters that select it. -/
def literalBase (base : Nat) (first : Char) (rest : Text) : Nat × Nat :=
  match rest with
  | letter :: digit :: _ =>
    match if first = '0' then markedBase base letter else none with
    | some marked => if isDigitOf marked digit then (marked, 1) else (base, 0)
    | none => (base, 0)
  | _ => (base, 0)

def numberLength (base : Nat) (first : Char) (rest : Text) : Nat :=
  let (digitBase, mark) := literalBase base first rest
  let digits := digitsLength digitBase (first == '.') (rest.drop mark)
  mark + digits + exponentLength digitBase (rest.drop (mark + digits))

def isBlank (c : Char) : Bool := c == ' ' || c == '\t' || c == '\r' || c == '\n' || c == '\x0c'

def isNameChar (c : Char) : Bool := c.isAlphanum || c == '_'

def single : Char → Token
  | '<' => .less
  | '>' => .greater
  | '=' => .assign
  | '+' => .plus
  | '-' => .minus
  | '*' => .star
  | '/' => .slash
  | '%' => .percent
  | '^' => .caret
  | '_' => .underscore
  | ',' => .comma
  | ';' => .semicolon
  | '(' => .leftParen
  | ')' => .rightParen
  | '[' => .leftBracket
  | ']' => .rightBracket
  | '\x7b' => .leftBrace
  | '\x7d' => .rightBrace
  | _ => .stray

def pair : Char → Char → Option Token
  | '=', '>' => some .arrow
  | '=', '=' => some .equal
  | '!', '=' => some .notEqual
  | '<', '=' => some .lessEqual
  | '>', '=' => some .greaterEqual
  | _, _ => none

/-- The token that starts with `c`, or none for a blank, and how many characters of `rest` belong to
it. -/
def munch (base : Nat) (c : Char) (rest : Text) : Option Token × Nat :=
  if isBlank c then (none, 0)
  else if c.isDigit then (some .number, numberLength base c rest)
  else if c = '.' ∧ rest.head?.any Char.isDigit then
    (some .number, 1 + numberLength base c (rest.drop 1))
  else if c.isAlpha then (some .identifier, (rest.takeWhile isNameChar).length)
  else if c = '"' then
    let inner := (rest.takeWhile (· ≠ '"')).length
    if inner < rest.length then (some .string, inner + 1) else (some .openString, inner)
  else match rest.head?.bind (pair c) with
    | some token => (some token, 1)
    | none => (some (single c), 0)

def lex (base : Nat) (offset : Nat) : Text → List Lexeme
  | [] => []
  | c :: rest =>
    let (token, count) := munch base c rest
    let stop := offset + byteLength (c :: rest.take count)
    let others := lex base stop (rest.drop count)
    match token with
    | none => others
    | some token => ⟨token, offset, stop⟩ :: others
termination_by t => t.length
decreasing_by simp only [List.length_drop, List.length_cons]; omega

end Lexeme

def isIdentifier (t : Text) : Bool :=
  match Lexeme.lex 10 0 t with
  | ⟨.identifier, start, stop⟩ :: _ => start == 0 && stop == Text.byteLength t
  | _ => false

end Reckoner
