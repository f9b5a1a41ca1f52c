import Reckoner.ParseError
import Reckoner.Token
import Reckoner.Value

/-! Flat expressions: operands and operators in the order they are written, and their folding into
one tree. Operands side by side are multiplied first; then come the powers, the products, the sums
and the comparisons, each from left to right. -/
namespace Reckoner.Flat

/-- One element of a flat expression; an operator has the byte where it was found. -/
inductive Item
  | operand (t : Tree)
  | operator (op : Builtin) (position : Nat)

/-- A tree with the opposite sign; a number literal takes the sign itself. -/
def negate : Tree → Tree
  | .literal (.number n) => .number (-n)
  | t => .builtin .negate [t]

/-- The operator of a run of operator tokens, and whether its last token is the sign of the next
operand. -/
def readRun (tokens : List Token) : Option (Builtin × Bool) :=
  let signed := 1 < tokens.length && tokens.getLast? == some .minus
  let op : Option Builtin := match if signed then tokens.dropLast else tokens with
    | [.plus] => some .add
    | [.minus] => some .sub
    | [.star] => some .mul
    | [.slash] => some .div
    | [.percent] => some .rem
    | [.caret] | [.star, .star] => some .pow
    | [.equal] => some .equal
    | [.notEqual] => some .notEqual
    | [.less] => some .less
    | [.greater] => some .greater
    | [.lessEqual] => some .lessEqual
    | [.greaterEqual] => some .greaterEqual
    | _ => none
  op.map (·, signed)

def release (held : Option Tree) (items : List Item) : List Item :=
  match held with
  | some t => .operand t :: items
  | none => items

def joinOperands : Option Tree → List Item → List Item
  | held, [] => release held []
  | none, .operand t :: rest => joinOperands (some t) rest
  | some product, .operand t :: rest => joinOperands (some (.builtin .mul [product, t])) rest
  | held, .operator op position :: rest => release held (.operator op position :: joinOperands none rest)

/-- Applies the operators of one level from left to right; `held` is the operand to the left. -/
def foldLevel (level : Builtin → Bool) : Option Tree → List Item → Except ParseError (List Item)
  | held, [] => .ok (release held [])
  | held, .operand t :: rest => (release held ·) <$> foldLevel level (some t) rest
  | held, .operator op position :: rest =>
    if level op then
      match held, rest with
      | some left, .operand right :: rest => foldLevel level (some (.builtin op [left, right])) rest
      | _, _ => .error (.missingOperand position)
    else do
      let rest ← foldLevel level none rest
      return release held (.operator op position :: rest)

/-- The levels of operators, from the one that binds strongest. -/
def levels : List (Builtin → Bool) :=
  [ (· == .pow), fun op => op == .rem || op == .mul || op == .div, fun op => op == .add || op == .sub,
    fun op => [.equal, .notEqual, .less, .greater, .lessEqual, .greaterEqual].contains op ]

/-- The tree of a flat expression. A minus in front of all, found at `leading`, applies to the whole
tree. -/
def fold (leading : Option Nat) (items : List Item) : Except ParseError Tree := do
  let items ← levels.foldlM (fun items level => foldLevel level none items) (joinOperands none items)
  match items with
  | [.operand t] => return if leading.isSome then negate t else t
  | _ => throw (.missingOperand (leading.getD 0))

end Reckoner.Flat
