import Reckoner.Bignum.Text
import Reckoner.Builtin
import Reckoner.Matrix

/-! Expression trees, code blocks and the values they produce. A tree refers to arguments, local and
global variables and functions by slot, and a function value keeps the values its body refers to. -/
namespace Reckoner

inductive Target
  | argument (index : Nat)
  | localVariable (slot : Nat)
  deriving DecidableEq, Repr

mutual

inductive Value
  | number (n : Number)
  | vector (m : Matrix)
  /-- An anonymous function with the values it captured. -/
  | function (f : Lambda) (captured : List Value)
  | bignum (x : Bignum)
  | string (t : Text)

/-- An expression with resolved names. -/
inductive Tree
  | literal (v : Value)
  | builtin (op : Builtin) (args : List Tree)
  | call (id : Nat) (args : List Tree)
  | argument (index : Nat)
  | localVariable (slot : Nat)
  | globalVariable (slot : Nat)
  | vector (width height : Nat) (cells : List Tree)
  /-- An anonymous function, which captures the first `width` values of the frame. -/
  | function (f : Lambda) (width : Nat)

inductive Action
  | compute (t : Tree)
  | giveBack (t : Tree)
  | assign (target : Target) (t : Tree)
  | when (condition : Tree) (body : Block)
  | otherwise (body : Block)
  | loop (condition : Tree) (body : Block)
  | leaveLoop
  | nextRound

/-- Statements with the local variables they declare, which have the slots from `firstSlot` on; a
call needs `frameSize` slots in all. -/
structure Block where
  actions : List Action
  locals : List Text
  firstSlot : Nat
  frameSize : Nat

/-- An anonymous function as it is written. The label tells apart functions written alike. -/
structure Lambda where
  label : Nat
  params : List Text
  body : Block

end

structure Function where
  params : List Text
  body : Block

namespace Block

def returning (t : Tree) : Block := ⟨[.giveBack t], [], 0, 0⟩

/-- The tree of a block that does nothing but give back its value. -/
def singleReturn? (b : Block) : Option Tree :=
  match b.actions, b.locals with
  | [.giveBack t], [] => some t
  | _, _ => none

end Block

namespace Tree

def number (n : Number) : Tree := .literal (.number n)

def number? : Tree → Option Number
  | .literal (.number n) => some n
  | _ => none

mutual

/-- Whether the value may hang on the frame: the tree mentions an argument or a local variable, or
holds a function that captures some. -/
def usesFrame : Tree → Bool
  | argument _ | localVariable _ => true
  | literal _ | globalVariable _ => false
  | builtin _ args | call _ args => anyUsesFrame args
  | vector _ _ cells => anyUsesFrame cells
  | function _ width => 0 < width

def anyUsesFrame : List Tree → Bool
  | [] => false
  | t :: ts => t.usesFrame || anyUsesFrame ts

end

end Tree

namespace Value

def ofFloat (x : Float) : Value := .number (.real x)

def ofBool (b : Bool) : Value := .number (if b then .one else .zero)

def zero : Value := .number .zero

def kind : Value → Kind
  | number _ => .number
  | vector _ => .vector
  | function .. => .function
  | bignum _ => .bignum
  | string _ => .string

/-- The scalar that values are ordered by: parts and cells are added up, and a string has its
length. -/
def reading : Value → Float
  | number n => n.reading
  | vector m => m.reading
  | function .. => 0
  | bignum x => x.reading
  | string t => Binary64.ofNat t.length

def truthy : Value → Bool
  | function .. => true
  | string t => !t.isEmpty
  | bignum x => !x.isZero
  | v => v.reading != 0

def order (v w : Value) : Ordering := Binary64.order v.reading w.reading

def number? : Value → Option Number
  | number n => some n
  | vector m => if m.cells.size = 1 then m.cells[0]? else none
  | _ => none

def string? : Value → Option Text
  | string t => some t
  | _ => none

mutual

/-- Equality component by component; functions are equal when they were written at the same place
and captured equal values. -/
def eqv : Value → Value → Bool
  | number a, number b => a.eqv b
  | vector a, vector b => a.eqv b
  | function f captured, function g captured' => f.label == g.label && eqvAll captured captured'
  | bignum x, bignum y => x == y
  | string s, string t => s == t
  | _, _ => false

def eqvAll : List Value → List Value → Bool
  | [], [] => true
  | v :: vs, w :: ws => v.eqv w && eqvAll vs ws
  | _, _ => false

end

def format (digits : Nat) : Value → Text
  | number n => n.text
  | vector m => m.text
  | function f _ => "<function of ".toList ++ Text.join ", ".toList f.params ++ ['>']
  | bignum x => x.toText 10 digits
  | string t => t

def text : Value → Text := format Bignum.displayDigits

end Value
end Reckoner
