import Reckoner.Proofs.Registry.Edits
import Reckoner.Proofs.Rendering.Tidy

/-! Whatever a session was asked to do, its functions and global variables have names that may be defined, and its
functions have parameters that may be defined. -/
namespace Reckoner

open Session (checkDefinable checkParams)

theorem Text.isName_of_isIdentifier {t : Text} (h : isIdentifier t) : t.IsName := by
  unfold isIdentifier at h
  split at h
  · rename_i start stop rest hlex
    simp only [Bool.and_eq_true, beq_iff_eq] at h
    obtain ⟨rfl, rfl⟩ := h
    refine Statement.word?_isName (t := t) ?_
    rw [Statement.word?, hlex]
    simp only [Text.slice_self]
  · cases h

namespace Session
variable {name : Text}

theorem nameable_of_checkDefinable (h : checkDefinable name = .ok ()) : name.Nameable := by
  unfold checkDefinable at h
  split at h
  · cases h
  · rename_i hidentifier
    split at h
    · cases h
    · rename_i hreserved
      simp only [Bool.not_eq_true', Bool.not_eq_false] at hidentifier
      simp only [isReserved, Bool.or_eq_true, not_or, Bool.not_eq_true] at hreserved
      exact ⟨Text.isName_of_isIdentifier hidentifier, hreserved.1.1⟩

end Session

namespace Registry
variable {α : Type} {r : Registry α}

structure Definable (r : Registry α) : Prop where
  slots : ∀ entry ∈ r.slots, ∀ name a, entry = some (name, a) → checkDefinable name = .ok ()
  names : ∀ live ∈ r.names, checkDefinable live.1 = .ok ()

private theorem definable_empty : Definable ({} : Registry α) := ⟨nofun, nofun⟩

private theorem Definable.insert (h : r.Definable) (slot : Nat) {name : Text} (hn : checkDefinable name = .ok ())
    (a : α) :
    (r.insert slot name a).Definable where
  slots entry hentry name' b hb := by
    unfold Registry.insert at hentry
    simp only at hentry
    split at hentry
    · rcases List.mem_or_eq_of_mem_set hentry with hmem | rfl
      · exact h.slots entry hmem name' b hb
      · exact (Prod.mk.inj (Option.some.inj hb)).1 ▸ hn
    · rcases List.mem_append.mp hentry with hmem | hmem
      · exact h.slots entry hmem name' b hb
      · obtain rfl := List.mem_singleton.mp hmem
        exact (Prod.mk.inj (Option.some.inj hb)).1 ▸ hn
  names live hlive := by
    unfold Registry.insert at hlive
    simp only at hlive
    split at hlive
    · exact h.names live hlive
    · rcases List.mem_cons.mp hlive with rfl | hlive
      · exact hn
      · exact h.names live (List.mem_filter.mp hlive).1

private theorem Definable.remove (h : r.Definable) (name : Text) : (r.remove name).2.Definable := by
  unfold Registry.remove
  split
  · exact h
  · refine ⟨fun entry hentry name' b hb => ?_, fun live hlive => h.names live (List.mem_filter.mp hlive).1⟩
    rcases List.mem_or_eq_of_mem_set hentry with hmem | rfl
    · exact h.slots entry hmem name' b hb
    · cases hb

private theorem Definable.name? (h : r.Definable) {slot : Nat} {name : Text} (hn : r.name? slot = some name) :
    checkDefinable name = .ok () := by
  obtain ⟨⟨name', a⟩, hentry, rfl⟩ := Option.map_eq_some_iff.mp hn
  exact h.slots _ (List.mem_of_getElem? (Option.join_eq_some_iff.mp hentry)) name' a rfl

private theorem Definable.set (h : r.Definable) {name : Text}
    (hn : checkDefinable name = .ok ()) (a : α) : (r.set name a).2.Definable where
  slots entry hentry name' b hb := by
    rcases mem_slots_set hentry with hmem | rfl | ⟨slot, stored, hstored, rfl⟩
    · exact h.slots entry hmem name' b hb
    · exact (Prod.mk.inj (Option.some.inj hb)).1 ▸ hn
    · exact (Prod.mk.inj (Option.some.inj hb)).1 ▸ h.name? hstored
  names live hlive := by
    unfold Registry.set at hlive
    split at hlive
    · exact h.names live hlive
    · rcases List.mem_cons.mp hlive with rfl | hlive
      · exact hn
      · exact h.names live (List.mem_filter.mp hlive).1

theorem Definable.lookup (h : r.Definable) {slot : Nat} {name : Text} (hn : r.lookup name = some slot) :
    checkDefinable name = .ok () := by
  obtain ⟨before, after, hnames, -⟩ := List.lookup_eq_some_iff.mp hn
  exact h.names (name, slot) (by rw [hnames]; simp)

end Registry

structure Environment.Registered (env : Environment) : Prop where
  functions : env.functions.Definable
  globals : env.globals.Definable
  params : env.functions.All fun f => checkParams [] f.params = .ok ()

theorem Environment.Registered.tidy {env : Environment} (h : env.Registered) : env.Tidy where
  functionName _ _ hn := (Session.nameable_of_checkDefinable (h.functions.name? hn)).1
  globalName _ _ hn := (Session.nameable_of_checkDefinable (h.globals.name? hn)).1
  function name hk := by
    by_contra hne
    obtain ⟨slot, hslot⟩ := Option.ne_none_iff_exists'.mp hne
    rw [(Session.nameable_of_checkDefinable (h.functions.lookup hslot)).2] at hk
    cases hk
  global name hk := by
    by_contra hne
    obtain ⟨slot, hslot⟩ := Option.ne_none_iff_exists'.mp hne
    rw [(Session.nameable_of_checkDefinable (h.globals.lookup hslot)).2] at hk
    cases hk

namespace Environment
variable {deleted : Deleted} {env env' : Environment}

theorem registered_new (units : UnitTable) (config : Config) : Registered { units, config } :=
  ⟨Registry.definable_empty, Registry.definable_empty, Registry.all_empty⟩

/-- A derivative has the parameters of its function. -/
private theorem Writes.checkParams {name : Text} {f : Function} (hf : env.Writes name f) (h : env.Registered) :
    checkParams [] f.params = .ok () := by
  cases hf with
  | parsed _ hparams _ => exact hparams
  | derived hsource _ _ =>
    have hparams := h.params.find? hsource
    exact hparams

theorem Edit.registered (h : env.Edit deleted env') (he : env.Registered) : env'.Registered := by
  cases h with
  | keep => exact he
  | define hname hf => exact ⟨he.functions.insert _ hname _, he.globals, he.params.insert _ _ (hf.checkParams he)⟩
  | undefine _ => exact ⟨he.functions.remove _, he.globals, he.params.remove _⟩
  | assign v hname => exact ⟨he.functions, he.globals.set hname v, he.params⟩
  | forget _ => exact ⟨he.functions, he.globals.remove _, he.params⟩

end Environment

theorem Host.Reachable.registered {h : Host} (hr : h.Reachable) : h.session.env.Registered :=
  (hr.invariant (fun _ _ _ he hedit => hedit.registered he) Environment.registered_new).2

end Reckoner
