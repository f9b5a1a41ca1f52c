import Reckoner.Value.Functions

/-! Evaluation of trees against a frame of arguments and local variables. How the body of a called
function runs and how a builtin computes are parameters here; everything else is by recursion on the
tree, arguments before the call and from left to right. -/
namespace Reckoner

abbrev Output := Array Text

/-- A computation that may print and may fail; what was printed before a failure stays. -/
abbrev Eval := ExceptT RuntimeError (StateM Output)

structure Frame where
  /-- The arguments of the call, and behind them what the function captured. -/
  arguments : List Value
  locals : List Value

namespace Frame

def empty : Frame := ⟨[], []⟩

def capture (frame : Frame) (width : Nat) : List Value := (frame.arguments ++ frame.locals).take width

end Frame

namespace Eval

/-- How the body of a function runs on its arguments. -/
abbrev Invoke := Block → List Value → Eval Value

/-- How a builtin that neither calls a function nor prints computes on evaluated arguments. -/
abbrev Primitive := Builtin → List Value → Except RuntimeError Value

structure Machine where
  env : Environment
  primitive : Primitive
  invoke : Invoke

def ofExcept {α : Type} (result : Except RuntimeError α) : Eval α := ExceptT.mk (pure result)

def print (line : Text) : Eval Unit := modify (·.push line)

def slot {α : Type} (values : List α) (index : Nat) (error : RuntimeError) : Eval α :=
  match values[index]? with
  | some v => pure v
  | none => throw error

def callFunction (m : Machine) (id : Nat) (args : List Value) : Eval Value :=
  match m.env.functions.entry? id with
  | none => throw (.deletedFunction id)
  | some (name, f) =>
    if args.length = f.params.length then m.invoke f.body args
    else throw (.argumentCount name f.params.length args.length)

/-- Calls a function value; the captured values follow its arguments. -/
def callLambda (m : Machine) (f : Lambda) (captured args : List Value) : Eval Value :=
  if args.length = f.params.length then m.invoke f.body (args ++ captured)
  else throw (.argumentCount "anonymous function".toList f.params.length args.length)

/-- Refuses an argument of the wrong kind; positions count from zero. -/
def checkKind (op : Builtin) (position : Nat) (v : Value) : Except RuntimeError Unit :=
  if (op.kindsAt position).contains v.kind then .ok ()
  else .error (Value.mismatch op.name (position + 1) (op.kindsAt position) v)

def checkKinds (op : Builtin) (position : Nat) : List Value → Except RuntimeError Unit
  | [] => .ok ()
  | v :: vs => do
    checkKind op position v
    checkKinds op (position + 1) vs

/-- Applies a builtin to evaluated arguments. A function to run may be given by name, which is
looked up when it is run. -/
def apply (m : Machine) (op : Builtin) (args : List Value) : Eval Value :=
  match op, args with
  | .run, [] => throw (.argumentCount Builtin.run.name 1 0)
  | .run, .function f captured :: args => callLambda m f captured args
  | .run, .string name :: args =>
    match m.env.functions.lookup name with
    | some id => callFunction m id args
    | none =>
      match Builtin.ofName? name with
      | none => throw (.unknownFunction name)
      | some op =>
        if op.arity.accepts args.length then do
          ofExcept (checkKinds op 0 args)
          apply m op args
        else throw (.argumentCount name op.arity.count args.length)
  | .run, v :: _ => throw (Value.mismatch Builtin.run.name 1 [.function, .string] v)
  | .print, [v] => do
    print (m.env.format v)
    return v
  | op, args => ofExcept (m.primitive op args)

mutual

def tree (m : Machine) (frame : Frame) : Tree → Eval Value
  | .literal v => pure v
  | .argument index => slot frame.arguments index (.invalidSlot .argument index)
  | .localVariable index => slot frame.locals index (.invalidSlot .localVariable index)
  | .globalVariable index =>
    match m.env.globals.get? index with
    | some v => pure v
    | none => throw (.deletedVariable index)
  | .builtin op args => do apply m op (← checkedArgs m frame op 0 args)
  | .call id args => do callFunction m id (← trees m frame args)
  | .vector width height trees => do
    let _ ← ofExcept (Matrix.room m.env.config.maxVectorCells width height)
    let numbers ← cells m frame 1 trees
    match Matrix.ofCells? width height numbers.toArray with
    | some matrix => return .vector matrix
    | none => throw (.shapeMismatch (.cellCount numbers.length width height))
  | .function f width => return .function f (frame.capture width)

def trees (m : Machine) (frame : Frame) : List Tree → Eval (List Value)
  | [] => return []
  | t :: ts => do
    let v ← tree m frame t
    let vs ← trees m frame ts
    return v :: vs

/-- The arguments of a builtin, each checked before the next one is evaluated. -/
def checkedArgs (m : Machine) (frame : Frame) (op : Builtin) (position : Nat) :
    List Tree → Eval (List Value)
  | [] => return []
  | t :: ts => do
    let v ← tree m frame t
    ofExcept (checkKind op position v)
    let vs ← checkedArgs m frame op (position + 1) ts
    return v :: vs

/-- The cells of a vector, each of which must be a number; positions count from one. -/
def cells (m : Machine) (frame : Frame) (position : Nat) :
    List Tree → Eval (List Number)
  | [] => return []
  | t :: ts => do
    let v ← tree m frame t
    let n ← ofExcept (Value.numberArg "vector".toList position v)
    let ns ← cells m frame (position + 1) ts
    return n :: ns

end

end Eval
end Reckoner
