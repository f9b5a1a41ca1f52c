import Reckoner.Parse.Expression
import Reckoner.Statement

/-! Parsing a code block, statement by statement. The expressions in it and the blocks inside of it
are parsed by parameters; here the names that it declares are given slots and the order of
statements is checked. -/
namespace Reckoner.Parse

structure BlockContext where
  text : Text
  offset : Nat
  /-- Parses the expression from `start` up to `stop`. -/
  expression : (start stop : Nat) → Scope → Parse Tree
  block : BlockPieceParser

def body (c : BlockContext) (scope : Scope) : Body → Parse (Block × Scope)
  | .missing place => throw (.emptyExpression (c.offset + place))
  | .unclosed brace => throw (.bracketMismatch (c.offset + brace))
  | .braced brace stop => c.block brace (stop - 1) scope
  | .bare start stop => c.block (start - 1) stop scope

def condition (c : BlockContext) (scope : Scope) : Condition → Parse Tree
  | .noParenthesis found place => throw (.unexpectedToken found (c.offset + place))
  | .unclosed parenthesis => throw (.bracketMismatch (c.offset + parenthesis))
  | .closed parenthesis stop => c.expression (parenthesis + 1) (stop - 1) scope

/-- A `break` or `continue`, behind which nothing may stand. -/
def jump (c : BlockContext) (scope : Scope) (leaves : Bool) (start rest stop : Nat) :
    Except ParseError Action :=
  if !scope.inLoop then
    .error (if leaves then .strayBreak (c.offset + start) else .strayContinue (c.offset + start))
  else
    let found := Text.slice c.text rest stop
    if (Text.trim found).isEmpty then .ok (if leaves then .leaveLoop else .nextRound)
    else .error (.unexpectedToken (Text.trim found) (c.offset + rest + Text.leadingBlank found))

/-- An assignment; a name that is not in sight becomes a local variable. -/
def assign (c : BlockContext) (scope : Scope) (name : Text) (start value stop : Nat) :
    Parse (Action × Scope) := do
  if isKeyword name then throw (.reservedName name (c.offset + start))
  let t ← c.expression value stop scope
  match scope.argument? name, scope.local? name with
  | some index, _ => return (.assign (.argument index) t, scope)
  | none, some slot => return (.assign (.localVariable slot) t, scope)
  | none, none =>
    let (slot, scope) := scope.declare name
    return (.assign (.localVariable slot) t, scope)

def isWhen : Option Action → Bool
  | some (.when ..) => true
  | _ => false

def statement (c : BlockContext) (scope : Scope) (previous : Option Action) :
    Statement → Parse (Action × Scope)
  | .expression start stop => do
    let t ← c.expression start stop scope
    return (.compute t, scope)
  | .giveBack start stop => do
    let t ← c.expression start stop scope
    return (.giveBack t, scope)
  | .jump leaves start rest stop => do
    let action ← ofExcept (jump c scope leaves start rest stop)
    return (action, scope)
  | .assign name start value stop => assign c scope name start value stop
  | .conditional loops head code => do
    let t ← condition c scope head
    let (block, inner) ← body c { scope with inLoop := scope.inLoop || loops } code
    let scope := { inner with inLoop := scope.inLoop }
    return (if loops then .loop t block else .when t block, scope)
  | .otherwise start code => do
    if !isWhen previous then throw (.danglingElse (c.offset + start))
    let (block, scope) ← body c scope code
    return (.otherwise block, scope)
  | .otherwiseIf start first alternative => do
    if !isWhen previous then throw (.danglingElse (c.offset + start))
    let firstSlot := scope.locals.length
    let (action, scope) ← statement c scope none first
    match alternative with
    | none => return (.otherwise ⟨[action], [], firstSlot, scope.frameSize⟩, scope)
    | some second =>
      let (other, scope) ← statement c scope (some action) second
      return (.otherwise ⟨[action, other], [], firstSlot, scope.frameSize⟩, scope)

def isGiveBack : Option Action → Bool
  | some (.giveBack _) => true
  | _ => false

/-- The statements of a block behind those already parsed, last one first. -/
def statements (c : BlockContext) (scope : Scope) (done : List Action) :
    List (Nat × Statement) → Parse (List Action × Scope)
  | [] => return (done.reverse, scope)
  | (place, first) :: rest => do
    if isGiveBack done.head? then throw (.statementAfterReturn (c.offset + place))
    let (action, scope) ← statement c scope done.head? first
    statements c scope (action :: done) rest

/-- The whole block. The local variables it declares are released at its end. -/
def block (c : BlockContext) (scope : Scope) : Parse (Block × Scope) := do
  let firstSlot := scope.locals.length
  let (actions, scope) ← statements c scope [] (Statement.readAll 0 c.text)
  let block : Block := ⟨actions, scope.locals.drop firstSlot, firstSlot, scope.frameSize⟩
  return (block, { scope with locals := scope.locals.take firstSlot })

end Reckoner.Parse
