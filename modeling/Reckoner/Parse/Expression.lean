import Reckoner.Flat
import Reckoner.Numeral
import Reckoner.Parse.Basic
import Reckoner.Section

/-! Parsing an expression, section by section. How shorter pieces of the text are parsed is a
parameter here: a piece is given by the byte before it and the byte where it stops. -/
namespace Reckoner

/-- Parses the expression that starts behind the byte `before` and stops at `stop`. -/
abbrev PieceParser := (before stop : Nat) → Scope → Ambient → Parse Tree

/-- Parses the code block that starts behind the byte `before` and stops at `stop`. -/
abbrev BlockPieceParser := (before stop : Nat) → Scope → Parse (Block × Scope)

namespace Parse

open Text (slice)

structure Context where
  env : Environment
  scope : Scope
  ambient : Ambient
  /-- The text and its place in the input. -/
  text : Text
  offset : Nat

def argumentPieces (c : Context) (before stop : Nat) : List (Nat × Nat) :=
  let inner := slice c.text (before + 1) stop
  if (Text.trim inner).isEmpty then []
  else (Text.splitOutside c.ambient.base .comma inner).map fun (a, b) => (before + a, before + 1 + b)

def call (c : Context) (piece : PieceParser) (start opening stop : Nat) : Parse Tree := do
  let pieces := argumentPieces c opening (stop - 1)
  let callee ← ofExcept
    (c.scope.callee c.env (slice c.text start opening) pieces.length (c.offset + start))
  let args ← pieces.mapM fun (before, stop) => piece before stop c.scope c.ambient
  return callee.apply args

def cellPieces (c : Context) (before stop : Nat) : List (List (Nat × Nat)) :=
  let inner := slice c.text (before + 1) stop
  (Text.splitOutside c.ambient.base .semicolon inner).map fun (a, b) =>
    (Text.splitOutside c.ambient.base .comma (slice inner a b)).map fun (p, q) =>
      (before + a + p, before + 1 + a + q)

/-- One cell; one that is missing or blank is zero. -/
def cell (c : Context) (piece : PieceParser) : Option (Nat × Nat) → Parse Tree
  | none => return .number .zero
  | some (before, stop) =>
    if (Text.trim (slice c.text (before + 1) stop)).isEmpty then return .number .zero
    else piece before stop c.scope c.ambient

/-- A vector, whose rows are filled up with zeros on the right. -/
def vector (c : Context) (piece : PieceParser) (before stop : Nat) : Parse Tree := do
  let rows := cellPieces c before stop
  let width := (rows.map List.length).max?.getD 1
  let cells ← rows.mapM fun row => (List.range width).mapM fun x => cell c piece row[x]?
  return .vector width rows.length cells.flatten

/-- A bracket group, which is read with units and in its own base. -/
def square (c : Context) (piece : PieceParser) (start closing : Nat) (base : Option Nat) (stop : Nat) :
    Parse Tree := do
  let base ← match base with
    | none => pure 10
    | some first => do
      evaluateBase c.env (c.offset + first) (← piece (first - 1) stop c.scope c.ambient)
  piece start closing c.scope { units := true, base }

def lambda (c : Context) (piece : PieceParser) (blockPiece : BlockPieceParser) (start arrow : Nat)
    (braced : Bool) (stop : Nat) : Parse Tree := do
  let params ← ofExcept (readParams (c.offset + start) (slice c.text start arrow))
  let inner := Scope.lambda params c.scope
  let body ←
    if braced then
      let blank := Text.leadingBlank (slice c.text (arrow + 2) stop)
      Prod.fst <$> blockPiece (arrow + 2 + blank) (stop - 1) inner
    else Block.returning <$> piece (arrow + 1) stop inner { base := c.ambient.base }
  return .function { label := ← freshLabel, params, body } c.scope.captureWidth

def operand (c : Context) (piece : PieceParser) (blockPiece : BlockPieceParser) (s : Section) :
    Parse Tree :=
  let written := slice c.text s.start s.stop
  let position := c.offset + s.start
  match s.kind with
  | .number => match Numeral.read c.ambient.base written with
    | some x => return .number (.real x)
    | none => throw (.invalidNumber written position)
  | .variable => ofExcept (c.scope.resolve c.env c.ambient written position)
  | .call opening => call c piece s.start opening s.stop
  | .parenthesis => piece s.start (s.stop - 1) c.scope c.ambient
  | .square closing base => square c piece s.start closing base s.stop
  | .vector => vector c piece s.start (s.stop - 1)
  | .string => return .literal (.string (slice c.text (s.start + 1) (s.stop - 1)))
  | .function arrow braced => lambda c piece blockPiece s.start arrow braced s.stop
  | .operators => throw (.missingOperand position)
  | .undefined => throw (.unexpectedToken written position)

/-- The flat expression read so far, last item first. -/
structure Progress where
  items : List Flat.Item := []
  /-- Whether the next operand has a minus of its own. -/
  signed : Bool := false
  /-- The place of a minus in front of all. -/
  leading : Option Nat := none

/-- Takes in a run of operators. Only a minus may come before the first operand. -/
def operators (c : Context) (progress : Progress) (s : Section) : Except ParseError Progress := do
  let position := c.offset + s.start
  let run := slice c.text s.start s.stop
  match Flat.readRun ((Lexeme.lex 10 0 run).map Lexeme.token) with
  | none => throw (.invalidOperator run position)
  | some (op, signed) =>
    if progress.items.isEmpty then
      if op ≠ .sub || progress.leading.isSome then throw (.missingOperand position)
      return { progress with leading := some position, signed }
    else return { progress with items := .operator op position :: progress.items, signed }

def step (c : Context) (piece : PieceParser) (blockPiece : BlockPieceParser) (progress : Progress)
    (s : Section) : Parse Progress := do
  if s.broken then throw (.bracketMismatch (c.offset + s.start))
  if s.kind = .operators then ofExcept (operators c progress s)
  else
    let t ← operand c piece blockPiece s
    let t := if progress.signed then Flat.negate t else t
    return { progress with items := .operand t :: progress.items, signed := false }

def expression (c : Context) (piece : PieceParser) (blockPiece : BlockPieceParser) : Parse Tree := do
  let progress ← (Section.ofText c.ambient.base false 0 c.text).foldlM (step c piece blockPiece) {}
  match progress.items, progress.leading with
  | [], none => throw (.emptyExpression c.offset)
  | [], some position => throw (.missingOperand position)
  | items, leading => ofExcept (Flat.fold leading items.reverse)

end Parse
end Reckoner
