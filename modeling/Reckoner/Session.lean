import Reckoner.Derivative
import Reckoner.Parse
import Reckoner.Render

/-! Sessions: an environment that grows by definitions, and the operations on it. An operation that
fails leaves the environment as it was. -/
namespace Reckoner

/-- What is defined so far, the next unused label and the lines printed so far. -/
structure Session where
  env : Environment := {}
  supply : Supply := {}

/-- An operation on a session; what it did before a failure stays done. -/
abbrev Operation := ExceptT Failure (StateM Session)

namespace Session

def parsing {α : Type} (p : Environment → Parse α) : Operation α := do
  let s ← get
  let (result, supply) := (p s.env).run.run s.supply
  set { s with supply }
  match result with
  | .ok a => return a
  | .error e => throw (.parse e)

def evaluating {α : Type} (e : Environment → Eval α) : Operation α := do
  let s ← get
  let (result, output) := (e s.env).run.run s.supply.output
  set { s with supply := { s.supply with output } }
  match result with
  | .ok a => return a
  | .error e => throw (.runtime e)

def environment : Operation Environment := Session.env <$> get

def update (f : Environment → Environment) : Operation Unit :=
  modify fun s => { s with env := f s.env }

def parse (t : Text) : Operation Tree := parsing fun env => parseExpression env t 0 .top {}

def evaluate (t : Tree) : Operation Value := evaluating fun env => env.evaluate .empty t

def evaluateText (t : Text) : Operation Value := do evaluate (← parse t)

def checkDefinable (name : Text) : Except ParseError Unit :=
  if !isIdentifier name then .error (.invalidDefinition 0)
  else if isReserved name then .error (.reservedName name 0)
  else .ok ()

def checkParams (seen : List Text) : List Text → Except ParseError Unit
  | [] => .ok ()
  | param :: params =>
    if isKeyword param then .error (.reservedName param 0)
    else if !isIdentifier param || seen.contains param then .error (.malformedParameters 0)
    else checkParams (param :: seen) params

def liftParse {α : Type} (result : Except ParseError α) : Operation α :=
  ExceptT.mk (pure (result.mapError Failure.parse))

def liftRuntime {α : Type} (result : Except RuntimeError α) : Operation α :=
  ExceptT.mk (pure (result.mapError Failure.runtime))

/-- The body of a function definition: a block in braces or an expression. -/
def parseBody (env : Environment) (scope : Scope) (text : Text) : Parse Block := do
  let t := Text.trimEnd text
  let start := Text.leadingBlank t
  let inner := Text.dropBytes start t
  if inner.head? = some '\x7b' ∧ Text.groupEnd inner = some (Text.byteLength inner) then
    Prod.fst <$> parseBlock env (Text.slice t (start + 1) (Text.byteLength t - 1)) (start + 1) scope
  else Block.returning <$> parseExpression env t 0 scope {}

/-- Defines a function or gives it a new body; the body may call the function itself. The slot is
the result. -/
def defineFunction (name : Text) (params : List Text) (body : Text) : Operation Nat := do
  liftParse (checkDefinable name)
  liftParse (checkParams [] params)
  let id := (← environment).functions.reserve name
  let scope := Scope.function params (some { name, id, arity := params.length })
  let code ← parsing fun env => parseBody env scope body
  update fun env => { env with functions := env.functions.insert id name { params, body := code } }
  return id

/-- Deletes a function; its slot stays empty. -/
def deleteFunction (name : Text) : Operation Unit := do
  let (removed, functions) := (← environment).functions.remove name
  update fun env => { env with functions }
  if removed.isNone then throw (.runtime (.unknownFunction name))

def renderFunction (env : Environment) (name : Text) : Option Text :=
  (env.functions.find? name).map (Render.function env name)

def callFunction (name : Text) (args : List Value) : Operation Value :=
  evaluating fun env => env.call name args

def setVariable (name : Text) (v : Value) : Operation Nat := do
  liftParse (checkDefinable name)
  let (slot, globals) := (← environment).globals.set name v
  update fun env => { env with globals }
  return slot

def deleteVariable (name : Text) : Operation Value := do
  let (removed, globals) := (← environment).globals.remove name
  update fun env => { env with globals }
  match removed with
  | some (_, v) => return v
  | none => throw (.runtime (.unknownVariable name))

def differentiate (t : Tree) : Operation Tree := liftRuntime t.derivative

/-- The derivative of a function that only gives back one expression. -/
def derive (name : Text) : Operation Tree := do
  match (← environment).functions.find? name with
  | none => throw (.runtime (.unknownFunction name))
  | some f =>
    match f.body.singleReturn? with
    | none => throw (.runtime (.notDifferentiable (.codeBlock name)))
    | some t => differentiate t

def defineDerivative (name derived : Text) : Operation Nat := do
  liftParse (checkDefinable derived)
  let t ← derive name
  let functions := (← environment).functions
  let params := ((functions.find? name).map Function.params).getD []
  let id := functions.reserve derived
  update fun env =>
    { env with functions := env.functions.insert id derived { params, body := .returning t } }
  return id

def deletion? (line : Text) : Option Text :=
  let word := "delete".toList
  if word.isPrefixOf line ∧ (line.drop word.length).head?.any Text.isBlank then
    some (Text.trim (line.drop word.length))
  else none

def signature? (head : Text) : Option (Text × List Text) := do
  let (name, rest) ← Text.cut (· == '(') head
  let params ← Text.stripLast ')' (Text.trimEnd rest)
  return (Text.trim name, ((Text.pieces ',' params).map Text.trim).filter fun param => !param.isEmpty)

/-- Executes a line: a comment, a deletion, a definition of a function, an assignment, or an
expression. The last two have a value. -/
def execute (line : Text) : Operation (Option Value) := do
  let line := Text.trim line
  if line.isEmpty || line.head? == some '#' then return none
  if let some name := deletion? line then
    if ((← environment).functions.lookup name).isSome then deleteFunction name
    else let _ ← deleteVariable name
    return none
  let equals := Text.findOutside .assign line
  if equals = Text.byteLength line then return some (← evaluateText line)
  let head := Text.trim (Text.takeBytes equals line)
  let body := Text.dropBytes (equals + 1) line
  match signature? head with
  | some (name, params) =>
    let _ ← defineFunction name params body
    return none
  | none =>
    if isIdentifier head then
      let v ← evaluateText body
      let _ ← setVariable head v
      return some v
    else throw (.parse (.invalidDefinition 0))

end Session
end Reckoner
