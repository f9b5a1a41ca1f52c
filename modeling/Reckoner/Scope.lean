import Reckoner.Environment
import Reckoner.ParseError
import Reckoner.Token

/-! The names that are visible where an expression is parsed, and what they resolve to: arguments by
position, local variables by slot, then global variables, functions and constants. -/
namespace Reckoner

/-- A function whose body is being parsed; the body may call it already. -/
structure Pending where
  name : Text
  id : Nat
  arity : Nat

/-- The names of arguments and local variables. Slots are handed out in the order of declaration and
released when the declaring block ends. -/
structure Scope where
  params : List Text := []
  locals : List Text := []
  /-- The most slots in use at one time so far. -/
  frameSize : Nat := 0
  /-- Whether a loop of the same function body is around. -/
  inLoop : Bool := false
  pending : Option Pending := none

/-- How a text is read: whether names are looked up as units first, and the base of number literals. -/
structure Ambient where
  units : Bool := false
  base : Nat := 10

namespace Scope

def top : Scope := {}

def function (params : List Text) (pending : Option Pending) : Scope := { params, pending }

/-- In the body of an anonymous function, which sees its parameters and then all that is visible
around it. -/
def lambda (params : List Text) (outer : Scope) : Scope where
  params := params ++ outer.params ++ outer.locals
  pending := outer.pending

def captureWidth (s : Scope) : Nat := s.params.length + s.locals.length

/-- The position of an argument; the first of several. -/
def argument? (s : Scope) (name : Text) : Option Nat := s.params.idxOf? name

/-- The slot of a local variable; the last of several. -/
def local? (s : Scope) (name : Text) : Option Nat :=
  (s.locals.reverse.idxOf? name).map (s.locals.length - 1 - ·)

def declare (s : Scope) (name : Text) : Nat × Scope :=
  let locals := s.locals ++ [name]
  (s.locals.length, { s with locals, frameSize := max s.frameSize locals.length })

/-- The slot and the number of parameters of a function, also of the one whose body this is. -/
def function? (s : Scope) (env : Environment) (name : Text) : Option (Nat × Nat) :=
  let known : Option (Nat × Nat) := do
    let id ← env.functions.lookup name
    let f ← env.functions.get? id
    return (id, f.params.length)
  match s.pending with
  | some pending => if pending.name = name then some (pending.id, pending.arity) else known
  | none => known

def slot? (s : Scope) (env : Environment) (name : Text) : Option Tree :=
  (s.argument? name).map Tree.argument <|> (s.local? name).map Tree.localVariable
    <|> (env.globals.lookup name).map Tree.globalVariable

def resolve (s : Scope) (env : Environment) (ambient : Ambient) (name : Text) (position : Nat) :
    Except ParseError Tree :=
  let unit : Option Tree :=
    if ambient.units then
      (env.units.lookup name).map fun m => .number ((Number.real m.multiplier).withDimension m.dimension)
    else none
  let function : Option Tree := match s.function? env name with
    | some (id, 0) => some (.call id [])
    | _ => none
  match unit <|> s.slot? env name <|> function <|> (constant? name).map Tree.number with
  | some t => .ok t
  | none => .error (if ambient.units then .unknownUnit name position else .unknownName name position)

inductive Callee
  /-- A slot with a function value. -/
  | value (t : Tree)
  | function (id : Nat)
  | builtin (op : Builtin)

def callee (s : Scope) (env : Environment) (name : Text) (count position : Nat) :
    Except ParseError Callee :=
  match s.slot? env name, s.function? env name, Builtin.ofName? name with
  | some t, _, _ => .ok (.value t)
  | none, some (id, arity), _ =>
    if arity = count then .ok (.function id)
    else .error (.arityMismatch name (.exactly arity) count position)
  | none, none, some op =>
    if op.arity.accepts count then .ok (.builtin op)
    else .error (.arityMismatch name op.arity count position)
  | none, none, none => .error (.unknownFunction name position)

end Scope

def Scope.Callee.apply : Scope.Callee → List Tree → Tree
  | value t, args => .builtin .run (t :: args)
  | function id, args => .call id args
  | builtin op, args => .builtin op args

/-- The parameters before an arrow: one name, or names in parentheses with commas between them. -/
def readParams (position : Nat) (head : Text) : Except ParseError (List Text) := do
  let malformed := ParseError.malformedParameters position
  let names ← match Text.trim head with
    | '(' :: rest => match Text.stripLast ')' rest with
      | some names => pure names
      | none => throw malformed
    | names => pure names
  if (Text.trim names).isEmpty then return []
  (Text.pieces ',' names).foldlM (fun params piece => do
    let name := Text.trim piece
    if !isIdentifier name || params.contains name then throw malformed
    if isKeyword name then throw (.reservedName name position)
    return params ++ [name]) []

end Reckoner
