import Reckoner.Eval.Block
import Reckoner.Scope

/-! The effects of parsing: it may fail, it labels anonymous functions, and it evaluates the bases
of number literals, which may print. -/
namespace Reckoner

structure Supply where
  nextLabel : Nat := 0
  output : Output := #[]

/-- A parse; labels that were used and lines that were printed before a failure stay so. -/
abbrev Parse := ExceptT ParseError (StateM Supply)

namespace Parse

def ofExcept {α : Type} (result : Except ParseError α) : Parse α := ExceptT.mk (pure result)

def freshLabel : Parse Nat := do
  let supply ← get
  set { supply with nextLabel := supply.nextLabel + 1 }
  return supply.nextLabel

def attempt {α : Type} (evaluation : Eval α) : Parse (Except RuntimeError α) := do
  let supply ← get
  let (result, output) := evaluation.run.run supply.output
  set { supply with output }
  return result

def baseOf? (v : Value) : Option Nat := do
  let n ← v.number?
  guard (n.isReal && Binary64.isWhole n.re && n.re ≥ 2 && n.re ≤ 36)
  return (Binary64.toInt n.re).toNat

/-- The value of a base, which must be the same in every frame. -/
def evaluateBase (env : Environment) (position : Nat) (t : Tree) : Parse Nat := do
  if t.usesFrame then throw (.baseUsesFrame position)
  match ← attempt (env.evaluate .empty t) with
  | .error e => throw (.invalidBase (.failed e) position)
  | .ok v =>
    match baseOf? v with
    | some base => return base
    | none => throw (.invalidBase (.notABase v.text) position)

end Parse
end Reckoner
