import Reckoner.Session

/-! A host program that works with one interpreter: the requests it makes one after the other, and what it
holds of the answers. -/
namespace Reckoner

structure Host where
  session : Session := {}
  trees : List Tree := []
  values : List Value := []

inductive Request
  | parse (text : Text)
  | evaluate (t : Tree)
  | defineFunction (name : Text) (params : List Text) (body : Text)
  | defineDerivative (name derived : Text)
  | deleteFunction (name : Text)
  | setVariable (name : Text) (v : Value)
  | deleteVariable (name : Text)
  | execute (line : Text)
  | callFunction (name : Text) (args : List Value)
  /-- Calls a function value. -/
  | callLambda (f : Lambda) (captured args : List Value)

structure Answer where
  trees : List Tree := []
  values : List Value := []

def Request.perform : Request → Operation Answer
  | parse text => do return { trees := [← Session.parse text] }
  | evaluate t => do return { values := [← Session.evaluate t] }
  | defineFunction name params body => do
    let _ ← Session.defineFunction name params body
    return {}
  | defineDerivative name derived => do
    let _ ← Session.defineDerivative name derived
    return {}
  | deleteFunction name => do
    Session.deleteFunction name
    return {}
  | setVariable name v => do
    let _ ← Session.setVariable name v
    return {}
  | deleteVariable name => do return { values := [← Session.deleteVariable name] }
  | execute line => do return { values := (← Session.execute line).toList }
  | callFunction name args => do return { values := [← Session.callFunction name args] }
  | callLambda f captured args => do
    return { values := [← Session.evaluating fun env => Eval.callLambda env.machine f captured args] }

namespace Host

def new (units : UnitTable) (config : Config) : Host := { session := { env := { units, config } } }

/-- Functions that a host passes on were handed out to it; all other values it may make up. -/
def Holds (h : Host) (v : Value) : Prop := v ∈ h.values ∨ v.kind ≠ .function

def after (h : Host) (r : Request) : Host :=
  match r.perform.run.run h.session with
  | (.ok answer, session) => ⟨session, answer.trees ++ h.trees, answer.values ++ h.values⟩
  | (.error _, session) => { h with session }

theorem session_after (h : Host) (r : Request) : (h.after r).session = (r.perform.run.run h.session).2 := by
  unfold after
  rcases r.perform.run.run h.session with ⟨_ | answer, session⟩ <;> rfl

end Host

/-- The request evaluates a tree that was handed out, and passes on values that the host holds. -/
def Request.Allowed (h : Host) : Request → Prop
  | evaluate t => t ∈ h.trees
  | setVariable _ v => h.Holds v
  | callFunction _ args => ∀ v ∈ args, h.Holds v
  | callLambda f captured args => h.Holds (.function f captured) ∧ ∀ v ∈ args, h.Holds v
  | parse _ | defineFunction .. | defineDerivative .. | deleteFunction _ | deleteVariable _ | execute _ => True

/-- What a new interpreter can be brought to, in any order of requests, whether they fail or not. -/
inductive Host.Reachable : Host → Prop
  | new (units : UnitTable) (config : Config) : Reachable (Host.new units config)
  | after {h : Host} (hr : Reachable h) (r : Request) (ha : r.Allowed h) : Reachable (h.after r)

end Reckoner
