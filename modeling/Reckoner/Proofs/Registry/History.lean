import Reckoner.Proofs.Registry.Edits
import Reckoner.Proofs.Registry.References

/-! Sessions over time. However a session goes on, a name keeps its slot until it is deleted, and a tree that
refers to a slot never reaches an object of another name. -/
namespace Reckoner

namespace Registry
variable {α : Type} {deleted : Text → Prop} {r r' r'' : Registry α} {name : Text}

/-- What becomes of a registry while only names in `deleted` are deleted. -/
structure Follows (deleted : Text → Prop) (r r' : Registry α) : Prop extends r.Evolves r' where
  keeps (name : Text) (slot : Nat) : ¬deleted name → r.lookup name = some slot → r'.lookup name = some slot

private theorem Follows.refl (deleted : Text → Prop) (r : Registry α) : r.Follows deleted r :=
  ⟨.refl r, fun _ _ _ h => h⟩

private theorem Follows.trans (h : r.Follows deleted r') (h' : r'.Follows deleted r'') : r.Follows deleted r'' where
  toEvolves := h.toEvolves.trans h'.toEvolves
  keeps name slot hname hl := h'.keeps name slot hname (h.keeps name slot hname hl)

private theorem Exact.follows_insert (h : r.Exact) (name : Text) (a : α) :
    r.Follows deleted (r.insert (r.reserve name) name a) where
  toEvolves := .insert h name a
  keeps _ _ _ hl := h.lookup_insert name a hl

private theorem Exact.follows_remove (h : r.Exact) (hname : deleted name) : r.Follows deleted (r.remove name).2 where
  toEvolves := .remove h name
  keeps other slot hother hl := by
    refine h.lookup_remove ?_ hl
    rintro rfl
    exact hother hname

/-- Names and live slots match one to one, and they are counted. -/
structure Integral (r : Registry α) : Prop where
  lookup_iff (name : Text) (slot : Nat) : r.lookup name = some slot ↔ ∃ a, r.entry? slot = some (name, a)
  size_eq : r.size = r.slots.countP Option.isSome

private theorem Exact.integral (h : r.Exact) : r.Integral where
  lookup_iff name slot := (h.lookup_iff name slot).trans name?_eq_some_iff
  size_eq := h.size_eq

end Registry

namespace Environment
variable {deleted : Deleted} {env env' env'' : Environment}

structure Follows (deleted : Deleted) (env env' : Environment) : Prop where
  functions : env.functions.Follows deleted.functions env'.functions
  globals : env.globals.Follows deleted.globals env'.globals

private theorem Follows.refl (deleted : Deleted) (env : Environment) : env.Follows deleted env := ⟨.refl _ _, .refl _ _⟩

private theorem Follows.trans (h : env.Follows deleted env') (h' : env'.Follows deleted env'') :
    env.Follows deleted env'' :=
  ⟨h.functions.trans h'.functions, h.globals.trans h'.globals⟩

private theorem Edit.follows (h : env.Edit deleted env') (he : env.Exact) : env.Follows deleted env' := by
  cases h with
  | keep => exact .refl deleted env
  | define _ _ => exact ⟨he.functions.follows_insert _ _, .refl _ _⟩
  | undefine hname => exact ⟨he.functions.follows_remove hname, .refl _ _⟩
  | assign _ _ =>
    rw [he.globals.set_eq]
    exact ⟨.refl _ _, he.globals.follows_insert _ _⟩
  | forget hname => exact ⟨.refl _ _, he.globals.follows_remove hname⟩

end Environment

namespace Session
variable {deleted : Deleted} {s s' : Session}

def LinesWithin (deleted : Deleted) : List Text → Session → Prop
  | [], _ => True
  | line :: rest, s => (Request.execute line).Within deleted s.env ∧
    ∀ shown s', (execute line).run.run s = (.ok shown, s') → LinesWithin deleted rest s'

/-- The session may go on to the second one, by requests and scripts, successful or not, which delete only names
in `deleted`. -/
inductive Later (deleted : Deleted) (s : Session) : Session → Prop
  | refl : Later deleted s s
  | request {s' : Session} (h : Later deleted s s') (r : Request) (hr : r.Within deleted s'.env) :
    Later deleted s (r.perform.run.run s').2
  | script {s' : Session} (h : Later deleted s s') (source : Text)
    (hlines : LinesWithin deleted (logicalLines source) s') :
    Later deleted s ((executeScript source).run.run s').2

/-- Where any name may be deleted, every line may be executed. -/
theorem linesWithin_any (lines : List Text) (s : Session) : LinesWithin .any lines s := by
  induction lines generalizing s with
  | nil => trivial
  | cons line rest ih => exact ⟨Request.within_any _ _, fun _ _ _ => ih _⟩

section
variable {P : Environment → Prop} (hP : ∀ env env', env.Exact → P env → env.Edit deleted env' → P env')
include hP

theorem executeLines_invariant (lines : List Text) (hlines : LinesWithin deleted lines s) (he : s.env.Exact)
    (hs : P s.env) :
    (executeLines (fun _ s => s) lines s).2.env.Exact ∧ P (executeLines (fun _ s => s) lines s).2.env := by
  induction lines generalizing s with
  | nil => exact ⟨he, hs⟩
  | cons line rest ih =>
    obtain ⟨hline, hrest⟩ := hlines
    have hedit := (execute_commits hline).edits he
    have hfirst := hedit.exact he
    have hsecond := hP _ _ he hs hedit
    unfold executeLines
    cases hrun : (execute line).run.run s with
    | mk outcome s' =>
      rw [hrun] at hfirst hsecond
      rcases outcome with e | _ | v
      · exact ⟨hfirst, hsecond⟩
      · exact ih (hrest none s' hrun) hfirst hsecond
      · exact ih (hrest (some v) s' hrun) hfirst hsecond

/-- What every edit preserves holds ever after, and names and slots keep matching. -/
theorem Later.invariant (h : Later deleted s s') (he : s.env.Exact) (hs : P s.env) : s'.env.Exact ∧ P s'.env := by
  induction h with
  | refl => exact ⟨he, hs⟩
  | request h r hr ih =>
    have hedit := (Request.perform_commits hr).edits ih.1
    exact ⟨hedit.exact ih.1, hP _ _ ih.1 ih.2 hedit⟩
  | script h source hlines ih =>
    rw [run_executeScript]
    exact executeLines_invariant hP _ hlines ih.1 ih.2

end

private theorem Later.follows (h : Later deleted s s') (he : s.env.Exact) : s.env.Follows deleted s'.env :=
  (h.invariant (fun _ _ he hfollows hedit => hfollows.trans (hedit.follows he)) he (.refl deleted s.env)).2

theorem Later.exact (h : Later deleted s s') (he : s.env.Exact) : s'.env.Exact :=
  (h.invariant (fun _ _ _ _ _ => trivial) he trivial : _ ∧ True).1

end Session

namespace Environment
variable {deleted : Deleted} {env env' : Environment}

def HoldsFunction (env : Environment) (id count : Nat) : Prop :=
  ∃ name f, env.functions.entry? id = some (name, f) ∧ f.params.length = count

def HoldsGlobal (env : Environment) (slot : Nat) : Prop := ∃ name v, env.globals.entry? slot = some (name, v)

/-- A call of the slot runs a function of this name, or fails because it was deleted. -/
def CallReaches (env : Environment) (name : Text) (id : Nat) : Prop :=
  (∃ f, env.functions.entry? id = some (name, f) ∧ ∀ m : Eval.Machine, m.env = env → ∀ args,
    args.length = f.params.length → Eval.callFunction m id args = m.invoke f.body args) ∨
  ∀ m : Eval.Machine, m.env = env → ∀ args, Eval.callFunction m id args = throw (.deletedFunction id)

/-- The global variable in the slot is one of this name, or it was deleted and there is no reading it. -/
def ReadReaches (env : Environment) (name : Text) (slot : Nat) : Prop :=
  (∃ v, env.globals.entry? slot = some (name, v) ∧ ∀ m : Eval.Machine, m.env = env → ∀ frame,
    Eval.tree m frame (.globalVariable slot) = pure v) ∨
  ∀ m : Eval.Machine, m.env = env → ∀ frame,
    Eval.tree m frame (.globalVariable slot) = throw (.deletedVariable slot)

private theorem callFunction_deleted {id : Nat} (h : env.functions.entry? id = none) (m : Eval.Machine)
    (hm : m.env = env)
    (args : List Value) : Eval.callFunction m id args = throw (.deletedFunction id) := by
  unfold Eval.callFunction
  rw [hm, h]

private theorem read_deleted {slot : Nat} (h : env.globals.entry? slot = none) (m : Eval.Machine) (hm : m.env = env)
    (frame : Frame) : Eval.tree m frame (.globalVariable slot) = throw (.deletedVariable slot) := by
  unfold Eval.tree
  rw [hm, Registry.get?, h]
  rfl

private theorem callReaches_of_evolves (h : env.functions.Evolves env'.functions) {name : Text} {id : Nat}
    (hn : env.functions.name? id = some name) : env'.CallReaches name id := by
  rcases h.name?_or_empty hn with hlive | hgone
  · obtain ⟨f, hf⟩ := Registry.name?_eq_some_iff.mp hlive
    refine .inl ⟨f, hf, fun m hm args hlength => ?_⟩
    unfold Eval.callFunction
    rw [hm, hf]
    exact if_pos hlength
  · exact .inr (callFunction_deleted hgone)

private theorem readReaches_of_evolves (h : env.globals.Evolves env'.globals) {name : Text} {slot : Nat}
    (hn : env.globals.name? slot = some name) : env'.ReadReaches name slot := by
  rcases h.name?_or_empty hn with hlive | hgone
  · obtain ⟨v, hv⟩ := Registry.name?_eq_some_iff.mp hlive
    refine .inl ⟨v, hv, fun m hm frame => ?_⟩
    unfold Eval.tree
    rw [hm, Registry.get?, hv]
    rfl
  · exact .inr (read_deleted hgone)

private theorem Exact.holdsGlobal (h : env.Exact) {name : Text} {slot : Nat}
    (hl : env.globals.lookup name = some slot) :
    env.HoldsGlobal slot := ⟨name, Registry.name?_eq_some_iff.mp ((h.globals.lookup_iff name slot).mp hl)⟩

/-- Outside of all definitions, names are found to be what is registered. -/
theorem Exact.offers (h : env.Exact) : env.Offers none env.HoldsFunction env.HoldsGlobal where
  function name id arity hfound := by
    obtain ⟨id', hl, f, hf, hpair⟩ := by
      simpa only [Scope.function?, Option.bind_eq_bind, Option.bind_eq_some_iff] using hfound
    obtain ⟨rfl, rfl⟩ := Prod.mk.inj (Option.some.inj hpair)
    obtain ⟨⟨name', f'⟩, hentry, rfl⟩ := Option.map_eq_some_iff.mp hf
    exact ⟨name', f', hentry, rfl⟩
  global name slot hl := h.holdsGlobal hl

/-- In the body of a function that is being defined, names are found to be what will be registered then. -/
theorem Exact.offers_pending (h : env.Exact) (name : Text) (f : Function) :
    let env' := { env with functions := env.functions.insert (env.functions.reserve name) name f }
    env.Offers (some { name, id := env.functions.reserve name, arity := f.params.length })
      env'.HoldsFunction env'.HoldsGlobal where
  function other id arity hfound := by
    have hentry := Registry.entry?_insert (h.functions.reserve_le name) name f
    unfold Scope.function? at hfound
    simp only at hfound
    split at hfound
    · obtain ⟨rfl, rfl⟩ := Prod.mk.inj (Option.some.inj hfound)
      exact ⟨name, f, by rw [hentry, if_pos rfl], rfl⟩
    · rename_i hne
      obtain ⟨id', hl, g, hg, hpair⟩ := by
        simpa only [Option.bind_eq_bind, Option.bind_eq_some_iff] using hfound
      obtain ⟨rfl, rfl⟩ := Prod.mk.inj (Option.some.inj hpair)
      have hlive := (h.functions.lookup_iff other id').mp hl
      obtain ⟨⟨other', g'⟩, hold, rfl⟩ := Option.map_eq_some_iff.mp hg
      refine ⟨other', g', ?_, rfl⟩
      rw [hentry, if_neg, hold]
      rintro rfl
      -- the slot of another name is not the one that the function is given
      rcases h.functions.name?_reserve name with hown | ⟨-, hnew⟩
      · exact hne (Option.some.inj (hown.symm.trans hlive))
      · exact nomatch hnew.symm.trans hlive
  global other slot hl := h.holdsGlobal hl

/-- A function that is registered was registered before, or it was parsed and refers to what is registered now, or
it is a derivative and refers to nothing that its function does not refer to. -/
private theorem Edit.registers (h : env.Edit deleted env') (he : env.Exact) {id : Nat} {name : Text} {f : Function}
    (hf : env'.functions.entry? id = some (name, f)) :
    env.functions.entry? id = some (name, f) ∨ f.body.Refers env'.HoldsFunction env'.HoldsGlobal ∨
      ∃ source g, env.functions.find? source = some g ∧
        ∀ calls globals, g.body.Refers calls globals → f.body.Refers calls globals := by
  cases h with
  | keep => exact .inl hf
  | @define name' f' _ hwrites =>
    rw [Registry.entry?_insert (he.functions.reserve_le name')] at hf
    split at hf
    · obtain ⟨rfl, rfl⟩ := Prod.mk.inj (Option.some.inj hf)
      cases hwrites with
      | @parsed params text code supply _ hcode =>
        have hoffers := he.offers_pending name' { params, body := code }
        have hrefers := (Session.parseBody_refers hoffers params text supply trivial).2
        rw [hcode] at hrefers
        exact .inr (.inl hrefers)
      | @derived source g t d hg ht hd =>
        refine .inr (.inr ⟨source, g, hg, fun calls globals hbody => Block.returning_refers ?_⟩)
        have hderived := Tree.Refers.structural.derivative (E := fun _ => True) (fun _ => trivial) t
          (hbody.singleReturn ht)
        rw [hd] at hderived
        exact hderived
    · exact .inl hf
  | undefine =>
    rw [Registry.entry?_remove] at hf
    split at hf
    · exact nomatch hf
    · exact .inl hf
  | assign | forget => exact .inl hf

/-- Functions refer only to slots that exist. -/
def Rooted (env : Environment) : Prop :=
  ∀ id name f, env.functions.entry? id = some (name, f) →
    f.body.Refers (fun id _ => id < env.functions.slots.length) (· < env.globals.slots.length)

private theorem HoldsFunction.lt {id count : Nat} (h : env.HoldsFunction id count) :
    id < env.functions.slots.length := by
  obtain ⟨name, f, hf, -⟩ := h
  exact Registry.lt_length_of_name? (Registry.name?_eq_some_iff.mpr ⟨f, hf⟩)

private theorem HoldsGlobal.lt {slot : Nat} (h : env.HoldsGlobal slot) : slot < env.globals.slots.length := by
  obtain ⟨name, v, hv⟩ := h
  exact Registry.lt_length_of_name? (Registry.name?_eq_some_iff.mpr ⟨v, hv⟩)

private theorem Edit.rooted (h : env.Edit deleted env') (he : env.Exact) (hr : env.Rooted) : env'.Rooted := by
  intro id name f hf
  have hfollows := h.follows he
  have hgrow {body : Block}
      (hbody : body.Refers (fun id _ => id < env.functions.slots.length) (· < env.globals.slots.length)) :
      body.Refers (fun id _ => id < env'.functions.slots.length) (· < env'.globals.slots.length) :=
    hbody.mono (fun _ _ hlt => Nat.lt_of_lt_of_le hlt hfollows.functions.length_le)
      fun _ hlt => Nat.lt_of_lt_of_le hlt hfollows.globals.length_le
  rcases h.registers he hf with hold | hparsed | ⟨source, g, hg, hderived⟩
  · exact hgrow (hr id name f hold)
  · exact hparsed.mono (fun _ _ => HoldsFunction.lt) fun _ => HoldsGlobal.lt
  · obtain ⟨slot, -, hslot⟩ := Option.bind_eq_some_iff.mp hg
    obtain ⟨⟨name', g'⟩, hentry, rfl⟩ := Option.map_eq_some_iff.mp hslot
    exact hgrow (hderived _ _ (hr slot name' g' hentry))

end Environment

namespace Session
variable {deleted : Deleted} {s s' : Session}

/-- The slot holds a function of so many parameters here, and there a call of it runs a function of the same
name, or fails because it was deleted. -/
def CallsNamesake (s s' : Session) (id count : Nat) : Prop :=
  ∃ name f, s.env.functions.entry? id = some (name, f) ∧ f.params.length = count ∧ s'.env.CallReaches name id

/-- The slot holds a global variable here, and there it holds one of the same name or cannot be read. -/
def ReadsNamesake (s s' : Session) (slot : Nat) : Prop :=
  ∃ name v, s.env.globals.entry? slot = some (name, v) ∧ s'.env.ReadReaches name slot

structure KeepsNames (deleted : Deleted) (s s' : Session) : Prop where
  functions : s.env.functions.Integral
  globals : s.env.globals.Integral
  follows : s.env.Follows deleted s'.env
  /-- A tree that is parsed here never reaches a stranger there. -/
  parsed (text : Text) (t : Tree) (after : Session) : (parse text).run.run s = (.ok t, after) →
    t.Refers (s.CallsNamesake s') (s.ReadsNamesake s')
  /-- A function that a request registers here is parsed, and refers to what is registered then, or it is a
  derivative, and refers to nothing that its function does not refer to. -/
  defined (r : Request) (id : Nat) (name : Text) (f : Function) :
    let after := (r.perform.run.run s).2
    after.env.functions.entry? id = some (name, f) →
      s.env.functions.entry? id = some (name, f) ∨
      f.body.Refers after.env.HoldsFunction after.env.HoldsGlobal ∨
      ∃ source g, s.env.functions.find? source = some g ∧
        ∀ calls globals, g.body.Refers calls globals → f.body.Refers calls globals
  /-- A function that is registered here never reaches a stranger there; it may refer to what was deleted
  before. -/
  registered (id : Nat) (name : Text) (f : Function) : s.env.functions.entry? id = some (name, f) →
    f.body.Refers
      (fun id _ => (∃ name g, s.env.functions.entry? id = some (name, g) ∧ s'.env.CallReaches name id) ∨
        ∀ m : Eval.Machine, m.env = s'.env → ∀ args, Eval.callFunction m id args = throw (.deletedFunction id))
      (fun slot => (∃ name v, s.env.globals.entry? slot = some (name, v) ∧ s'.env.ReadReaches name slot) ∨
        ∀ m : Eval.Machine, m.env = s'.env → ∀ frame,
          Eval.tree m frame (.globalVariable slot) = throw (.deletedVariable slot))

/-- Whatever requests and scripts a session has carried out and goes on to carry out, the names and the live
slots of both registries match one to one. A name keeps its slot until it is deleted, a deleted slot stays empty,
and no slot ever holds two names; so trees that were built earlier never reach a stranger. -/
theorem Later.keepsNames {units : UnitTable} {config : Config} {before : Deleted}
    (hs : Later before { env := { units, config } } s) (h : Later deleted s s') : KeepsNames deleted s s' := by
  have hnew : Environment.Exact { units, config } := ⟨.empty, .empty⟩
  obtain ⟨hexact, hrooted⟩ : s.env.Exact ∧ s.env.Rooted :=
    hs.invariant (fun _ _ he hrooted hedit => hedit.rooted he hrooted) hnew nofun
  have hfollows := h.follows hexact
  have hcall {id : Nat} {name : Text} {f : Function} (hf : s.env.functions.entry? id = some (name, f)) :
      s'.env.CallReaches name id :=
    Environment.callReaches_of_evolves hfollows.functions.toEvolves (Registry.name?_eq_some_iff.mpr ⟨f, hf⟩)
  have hread {slot : Nat} {name : Text} {v : Value} (hv : s.env.globals.entry? slot = some (name, v)) :
      s'.env.ReadReaches name slot :=
    Environment.readReaches_of_evolves hfollows.globals.toEvolves (Registry.name?_eq_some_iff.mpr ⟨v, hv⟩)
  refine ⟨hexact.functions.integral, hexact.globals.integral, hfollows, ?_, ?_, ?_⟩
  · intro text t after hparse
    have hreads := parsing_reads (fun env => parseExpression env text 0 .top {}) hexact s rfl
    rw [show (parsing _).run.run s = _ from hparse] at hreads
    obtain ⟨⟨supply, hok⟩, -⟩ := hreads
    have htop : Scope.top.pending = none := rfl
    have hrefers := (parseExpression_refers hexact.offers text 0 htop {} supply trivial).2
    rw [hok] at hrefers
    refine Tree.Refers.mono ?_ ?_ hrefers
    · rintro id count ⟨name, f, hf, hlength⟩
      exact ⟨name, f, hf, hlength, hcall hf⟩
    · rintro slot ⟨name, v, hv⟩
      exact ⟨name, v, hv, hread hv⟩
  · intro r id name f after hf
    exact ((Request.perform_commits (r.within_any s.env)).edits hexact).registers hexact hf
  · intro id name f hf
    refine (hrooted id name f hf).mono (fun id _ hid => ?_) fun slot hslot => ?_
    · cases hentry : s.env.functions.entry? id with
      | none => exact .inr (Environment.callFunction_deleted (hfollows.functions.empty id hid hentry))
      | some entry => exact .inl ⟨entry.1, entry.2, rfl, hcall hentry⟩
    · cases hentry : s.env.globals.entry? slot with
      | none => exact .inr (Environment.read_deleted (hfollows.globals.empty slot hslot hentry))
      | some entry => exact .inl ⟨entry.1, entry.2, rfl, hread hentry⟩

/-- A function calls another one, which is deleted and defined anew; the caller then fails. -/
theorem keepsNames_of_redefinition :
    let before : Session := ((Request.defineFunction "f".toList [] "1".toList).perform.run.run {}).2
    let here := ((Request.execute "g(x) = f() + x".toList).perform.run.run before).2
    let gone := ((Request.deleteFunction "f".toList).perform.run.run here).2
    let there := ((executeScript "f() = 2".toList).run.run gone).2
    KeepsNames .any here there := by
  intro before here gone there
  have hhere : Later .any {} here := .request (.request .refl _ (Request.within_any _ _)) _ (Request.within_any _ _)
  have hthere : Later .any here there := .script (.request .refl _ (Request.within_any _ _)) _ (linesWithin_any _ _)
  exact @Later.keepsNames .any here there .si {} .any hhere hthere

end Session
end Reckoner
