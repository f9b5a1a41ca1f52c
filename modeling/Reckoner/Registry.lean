import Reckoner.Text.Bytes

/-! Named objects in numbered slots. A name keeps its slot until it is removed, and the slot of a
removed object stays empty, so that a slot never comes to hold a stranger. -/
namespace Reckoner

/-- The slots with the object in each and its name, and the slot of each live name. -/
structure Registry (α : Type) where
  slots : List (Option (Text × α)) := []
  names : List (Text × Nat) := []

namespace Registry

variable {α : Type}

def empty : Registry α := {}

def lookup (r : Registry α) (name : Text) : Option Nat := r.names.lookup name

def entry? (r : Registry α) (slot : Nat) : Option (Text × α) := r.slots[slot]?.join

def get? (r : Registry α) (slot : Nat) : Option α := (r.entry? slot).map (·.2)

def name? (r : Registry α) (slot : Nat) : Option Text := (r.entry? slot).map (·.1)

def find? (r : Registry α) (name : Text) : Option α := r.lookup name >>= r.get?

/-- The slot that an object of this name will have: its own while the name is live, and a new one
otherwise. -/
def reserve (r : Registry α) (name : Text) : Nat := (r.lookup name).getD r.slots.length

/-- Puts an object into a slot; one that does not exist yet is added behind the last. A name that has the slot already
keeps its place. -/
def insert (r : Registry α) (slot : Nat) (name : Text) (a : α) : Registry α where
  slots := if slot < r.slots.length then r.slots.set slot (some (name, a)) else r.slots ++ [some (name, a)]
  names := if r.lookup name = some slot then r.names else (name, slot) :: r.names.filter (·.1 ≠ name)

/-- The slot of a live name, and the name that stands in it. -/
def live? (r : Registry α) (name : Text) : Option (Nat × Text) := do
  let slot ← r.lookup name
  return (slot, ← r.name? slot)

/-- Overwrites the object of a live name, or puts one into a new slot; also tells the slot. -/
def set (r : Registry α) (name : Text) (a : α) : Nat × Registry α :=
  match r.live? name with
  | some (slot, stored) => (slot, { r with slots := r.slots.set slot (some (stored, a)) })
  | none =>
    (r.slots.length,
      { slots := r.slots ++ [some (name, a)], names := (name, r.slots.length) :: r.names.filter (·.1 ≠ name) })

/-- Empties the slot of a name; also gives what was in it. -/
def remove (r : Registry α) (name : Text) : Option (Text × α) × Registry α :=
  match r.lookup name with
  | none => (none, r)
  | some slot => (r.entry? slot, { slots := r.slots.set slot none, names := r.names.filter (·.1 ≠ name) })

/-- The live objects with their slots and names, in the order of the slots. -/
def toList (r : Registry α) : List (Nat × Text × α) :=
  (r.slots.zipIdx).filterMap fun (entry, slot) => entry.map fun (name, a) => (slot, name, a)

def size (r : Registry α) : Nat := r.names.length

end Registry
end Reckoner
