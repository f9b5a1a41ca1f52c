import Reckoner.Eval.Tree

/-! Running code blocks, and with them whole calls. A loop may run its body as often as the limit
says, and calls may be nested as deep as the limit says. -/
namespace Reckoner

inductive Flow
  /-- The next statement follows. -/
  | next
  /-- The function is left with a value. -/
  | giveBack (v : Value)
  | leaveLoop
  | nextRound

namespace Frame

def assign (frame : Frame) (target : Target) (v : Value) : Except RuntimeError Frame :=
  match target with
  | .argument index =>
    if index < frame.arguments.length then .ok { frame with arguments := frame.arguments.set index v }
    else .error (.invalidSlot .argument index)
  | .localVariable index =>
    if index < frame.locals.length then .ok { frame with locals := frame.locals.set index v }
    else .error (.invalidSlot .localVariable index)

end Frame

namespace Eval

/-- Runs a loop whose body may run `rounds` times more. -/
def loop (limit : Nat) (condition : Frame → Eval Bool) (body : Frame → Eval (Flow × Frame)) :
    Nat → Frame → Eval (Flow × Frame)
  | 0, frame => do
    if ← condition frame then throw (.infiniteLoop limit)
    return (.next, frame)
  | rounds + 1, frame => do
    if ← condition frame then
      let (flow, frame) ← body frame
      match flow with
      | .giveBack v => return (.giveBack v, frame)
      | .leaveLoop => return (.next, frame)
      | .nextRound | .next => loop limit condition body rounds frame
    else return (.next, frame)

mutual

def block (m : Machine) (frame : Frame) : Block → Eval (Flow × Frame)
  | ⟨list, _, _, _⟩ => actions m false frame list

/-- Runs statements one after the other; `taken` tells whether the condition of the last `if` held. -/
def actions (m : Machine) (taken : Bool) (frame : Frame) :
    List Action → Eval (Flow × Frame)
  | [] => return (.next, frame)
  | first :: rest => do
    let (flow, taken, frame) ← action m taken frame first
    match flow with
    | .next => actions m taken frame rest
    | flow => return (flow, frame)

def action (m : Machine) (taken : Bool) (frame : Frame) :
    Action → Eval (Flow × Bool × Frame)
  | .compute t => do
    let _ ← tree m frame t
    return (.next, taken, frame)
  | .giveBack t => do
    let v ← tree m frame t
    return (.giveBack v, taken, frame)
  | .assign target t => do
    let v ← tree m frame t
    let frame ← ofExcept (frame.assign target v)
    return (.next, taken, frame)
  | .when condition body => do
    let v ← tree m frame condition
    if v.truthy then
      let (flow, frame) ← block m frame body
      return (flow, true, frame)
    else return (.next, false, frame)
  | .otherwise body =>
    if taken then return (.next, taken, frame)
    else do
      let (flow, frame) ← block m frame body
      return (flow, taken, frame)
  | .loop condition body => do
    let limit := m.env.config.maxLoopRounds
    let holds (frame : Frame) : Eval Bool := do return (← tree m frame condition).truthy
    let (flow, frame) ← loop limit holds (fun frame => block m frame body) limit frame
    return (flow, taken, frame)
  | .leaveLoop => return (.leaveLoop, taken, frame)
  | .nextRound => return (.nextRound, taken, frame)

end

/-- Runs the block of a function body with its own local variables; falling through gives back zero. -/
def wholeBlock (m : Machine) (body : Block) (args : List Value) : Eval Value := do
  let locals := List.replicate body.frameSize Value.zero
  let (flow, _) ← block m ⟨args, locals⟩ body
  match flow with
  | .giveBack v => return v
  | .next => return .zero
  | .leaveLoop | .nextRound => throw .strayLoopControl

/-- Runs a function body on its arguments, with at most `depth` nested calls. -/
def body (env : Environment) (primitive : Primitive) : Nat → Invoke
  | 0, _, _ => throw (.callsTooDeep env.config.maxCallDepth)
  | depth + 1, code, args =>
    match code.singleReturn? with
    | some t => tree ⟨env, primitive, body env primitive depth⟩ ⟨args, []⟩ t
    | none => wholeBlock ⟨env, primitive, body env primitive depth⟩ code args

end Eval

namespace Environment

def machineWith (env : Environment) (primitive : Eval.Primitive) : Eval.Machine :=
  ⟨env, primitive, Eval.body env primitive env.config.maxCallDepth⟩

def machine (env : Environment) : Eval.Machine := env.machineWith (Value.applyBuiltin env.config)

def evaluate (env : Environment) (frame : Frame) (t : Tree) : Eval Value := Eval.tree env.machine frame t

def call (env : Environment) (name : Text) (args : List Value) : Eval Value :=
  match env.functions.lookup name with
  | some id => Eval.callFunction env.machine id args
  | none => throw (.unknownFunction name)

end Environment
end Reckoner
