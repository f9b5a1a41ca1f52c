import Reckoner.Proofs.FirstWord
import Reckoner.Proofs.Rendering.Framed
import Reckoner.Proofs.Rendering.Sight

/-! Scopes whose names are identifiers that start no statement, and what is known in them of the text of an
expression that parses. -/
namespace Reckoner

open Render (Names Legible tree)

structure Environment.Tidy (env : Environment) : Prop where
  functionName (id : Nat) (name : Text) : env.functions.name? id = some name → name.IsName
  globalName (slot : Nat) (name : Text) : env.globals.name? slot = some name → name.IsName
  function (name : Text) : isKeyword name → env.functions.lookup name = none
  global (name : Text) : isKeyword name → env.globals.lookup name = none

def Text.Nameable (name : Text) : Prop := name.IsName ∧ isKeyword name = false

structure Scope.Tidy (env : Environment) (s : Scope) : Prop where
  params : ∀ name ∈ s.params, name.Nameable
  locals : ∀ name ∈ s.locals, name.Nameable
  pending : ∀ pending ∈ s.pending, isKeyword pending.name = false
  env : env.Tidy

namespace Scope.Tidy
variable {env : Environment} {s s' : Scope}

theorem legible (h : s.Tidy env) : Legible env s.names where
  arguments name hn := (h.params name hn).1
  locals name hn := (h.locals name hn).1
  functions := h.env.functionName
  globals := h.env.globalName

private theorem idxOf?_eq_none {names : List Text} (h : ∀ name ∈ names, name.Nameable) {w : Text} (hw : isKeyword w) :
    names.idxOf? w = none := by
  refine List.idxOf?_eq_none_iff.mpr fun hmem => ?_
  rw [(h w hmem).2] at hw
  exact nomatch hw

private theorem wordless (h : s.Tidy env) : s.Wordless env where
  slot w hw := by
    have hlocals : ∀ name ∈ s.locals.reverse, name.Nameable := fun name hn => h.locals name (List.mem_reverse.mp hn)
    simp [Scope.slot?, Scope.argument?, Scope.local?, idxOf?_eq_none h.params hw, idxOf?_eq_none hlocals hw,
      h.env.global w hw]
  function w hw := by
    have hknown : env.functions.lookup w = none := h.env.function w hw
    unfold Scope.function?
    split
    · rename_i pending hpending
      have hne : pending.name ≠ w := by
        rintro rfl
        rw [h.pending pending hpending] at hw
        exact nomatch hw
      simp [hne, hknown]
    · simp [hknown]

/-- The same names are tidy in another function body. -/
theorem congr (h : s.Tidy env) (hp : s'.params = s.params) (hl : s'.locals = s.locals)
    (hpending : s'.pending = s.pending) : s'.Tidy env :=
  ⟨hp ▸ h.params, hl ▸ h.locals, hpending ▸ h.pending, h.env⟩

private theorem block {b : Block} (h : s.Tidy env) (hb : b.Scoped s s') : s'.Tidy env :=
  h.congr hb.extends.params hb.locals_eq hb.extends.pending

/-- A statement leaves a tidy scope behind. -/
theorem action (h : s.Tidy env) {previous : Option Action} : {a : Action} → a.Scoped s previous s' → s'.Tidy env
  | .compute _, ha => ha.2 ▸ h
  | .giveBack _, ha => ha.2 ▸ h
  | .assign _ _, ⟨_, name, hn, hk, ha⟩ => by
    cases ha with
    | argument | localVariable => exact h
    | declared =>
      refine ⟨h.params, fun name' hn' => ?_, h.pending, h.env⟩
      rcases List.mem_append.mp hn' with hn' | hn'
      · exact h.locals name' hn'
      · exact List.mem_singleton.mp hn' ▸ ⟨hn, hk⟩
  | .when _ _, ha => h.block ha.2
  | .otherwise _, ha => h.block ha.2
  | .loop _ _, ha => by
    obtain ⟨_, inner, hb, rfl⟩ := ha
    have hloop : Scope.Tidy env { s with inLoop := true } := h.congr rfl rfl rfl
    exact (hloop.block hb).congr rfl rfl rfl
  | .leaveLoop, ha => ha.2 ▸ h
  | .nextRound, ha => ha.2 ▸ h

end Scope.Tidy

def Action.expression? : Action → Option Tree
  | .compute t | .giveBack t | .assign _ t | .when t _ | .loop t _ => some t
  | .otherwise _ | .leaveLoop | .nextRound => none

/-- The parse succeeds with a result in `Q`, whatever was printed and whichever label from `n` on is the next. -/
abbrev Parse.Yields {α : Type} (n : Nat) (x : Parse α) (Q : α → Prop) : Prop :=
  Keeps (fun supply : Supply => n ≤ supply.nextLabel) (fun _ => False) x Q

namespace Render
variable {env : Environment} {s : Scope} {n : Nat}

/-- From their texts, the expressions of the statement are parsed to themselves where these names are in sight:
all but the labels of anonymous functions is the same. -/
def Reparses (n : Nat) (env : Environment) (pending : Option Pending) (names : Names) (a : Action) : Prop :=
  ∀ t ∈ a.expression?, Parse.Yields n
    (parseExpression env (tree env names t) 0 ⟨names.arguments, names.locals, 0, false, pending⟩ {})
    fun u => u.unlabelled = t.unlabelled

structure Readable (t : Text) : Prop where
  closed : t.Closed
  speaks : t.Speaks
  framed : t.Framed

/-- What every successful outcome of a computation tells is so, when there is one. -/
theorem of_yields {α : Type} {x : Parse α} {Q : α → Prop} {p : Prop} (h : Parse.Yields n x Q)
    (hp : Always (fun _ => True) x fun _ => p) : p := by
  have h := (h { nextLabel := n } (Nat.le_refl n)).2
  have hp := (hp { nextLabel := n } trivial).2
  cases hr : (x.run.run { nextLabel := n }).1 with
  | ok a =>
    rw [hr] at hp
    exact hp
  | error e =>
    rw [hr] at h
    exact h.elim

theorem Reparses.readable {a : Action} (h : Reparses n env s.pending s.names a) (hs : s.Tidy env) {t : Tree}
    (ht : t ∈ a.expression?) (hscoped : t.Scoped s) : Readable (tree env s.names t) := by
  have hsight : Scope.Tidy env ⟨s.params, s.locals, 0, false, s.pending⟩ := hs.congr rfl rfl rfl
  refine ⟨of_yields (h t ht) ?_, of_yields (h t ht) ?_, tree_framed hs.legible t hscoped⟩
  · exact (parseExpression_acceptable env _ _ _ _).mono fun _ h => h.closed .semicolon rfl
  · exact parseExpression_speaks hsight.wordless _ _

end Render
end Reckoner
