import Reckoner.Proofs.Scoping.Run
import Reckoner.Proofs.Scoping.Statement
import Reckoner.Session

/-! Every operation on a session keeps its environment sound: the functions in it have bodies for their
parameters, and the values in it have bodies that fit what they captured. -/
namespace Reckoner

namespace Registry
variable {α : Type} {P : α → Prop} {r : Registry α}

theorem All.insert (h : r.All P) (slot : Nat) (name : Text) {a : α} (ha : P a) :
    (r.insert slot name a).All P := by
  intro entry hentry name' b hb
  unfold Registry.insert at hentry
  simp only at hentry
  split at hentry
  · rcases List.mem_or_eq_of_mem_set hentry with hmem | rfl
    · exact h entry hmem name' b hb
    · obtain ⟨rfl, rfl⟩ := Prod.mk.inj (Option.some.inj hb)
      exact ha
  · rcases List.mem_append.mp hentry with hmem | hmem
    · exact h entry hmem name' b hb
    · obtain rfl := List.mem_singleton.mp hmem
      obtain ⟨rfl, rfl⟩ := Prod.mk.inj (Option.some.inj hb)
      exact ha

/-- What is in a slot behind a `set` was there before, or it is the new object. -/
theorem mem_slots_set {name : Text} {a : α} {entry : Option (Text × α)} (h : entry ∈ (r.set name a).2.slots) :
    entry ∈ r.slots ∨ entry = some (name, a) ∨ ∃ slot stored, r.name? slot = some stored ∧ entry = some (stored, a) := by
  unfold set at h
  cases hlive : r.live? name with
  | none =>
    rw [hlive] at h
    rcases List.mem_append.mp h with hmem | hmem
    · exact .inl hmem
    · exact .inr (.inl (List.mem_singleton.mp hmem))
  | some live =>
    obtain ⟨slot, stored⟩ := live
    rw [hlive] at h
    rcases List.mem_or_eq_of_mem_set h with hmem | rfl
    · exact .inl hmem
    · simp only [live?, Option.bind_eq_bind, Option.bind_eq_some_iff] at hlive
      obtain ⟨slot', -, stored', hname, hpair⟩ := hlive
      obtain ⟨rfl, rfl⟩ := Prod.mk.inj (Option.some.inj hpair)
      exact .inr (.inr ⟨_, _, hname, rfl⟩)

private theorem All.set (h : r.All P) (name : Text) {a : α} (ha : P a) : (r.set name a).2.All P := by
  intro entry hentry name' b hb
  rcases mem_slots_set hentry with hmem | rfl | ⟨slot, stored, -, rfl⟩
  · exact h entry hmem name' b hb
  · obtain ⟨rfl, rfl⟩ := Prod.mk.inj (Option.some.inj hb)
    exact ha
  · obtain ⟨rfl, rfl⟩ := Prod.mk.inj (Option.some.inj hb)
    exact ha

private theorem All.removed (h : r.All P) {name stored : Text} {a : α} (hr : (r.remove name).1 = some (stored, a)) :
    P a := by
  unfold Registry.remove at hr
  split at hr
  · cases hr
  · exact h.entry? hr

theorem All.remove (h : r.All P) (name : Text) : (r.remove name).2.All P := by
  unfold Registry.remove
  split
  · exact h
  · intro entry hentry name' b hb
    rcases List.mem_or_eq_of_mem_set hentry with hmem | rfl
    · exact h entry hmem name' b hb
    · exact nomatch hb

theorem all_empty : Registry.All P ({} : Registry α) := nofun

end Registry

def Failure.isScopeFault : Failure → Bool
  | .parse e => e.isScopeFault
  | .runtime e => e.isScopeFault

namespace Environment
variable {env : Environment}

/-- The builtins compute as they do here on every number of arguments that they accept. -/
def Computes (env : Environment) (primitive : Eval.Primitive) : Prop :=
  ∀ op args, op.arity.accepts args.length → primitive op args = Value.applyBuiltin env.config op args

private theorem Sound.agrees (h : env.Sound) {primitive : Eval.Primitive} (hp : env.Computes primitive) :
    Eval.Machine.Agrees (env.machineWith primitive) env.machine := by
  refine Eval.body_agrees h (fun op args hop ha => ?_) env.config.maxCallDepth
  rw [hp op args hop]
  refine Eval.Sure.lift ((Value.applyBuiltin_safe env.config op args).mono fun v hv => ?_)
  rcases hv with hv | hv
  · exact hv.sound
  · exact ha v hv

private theorem computes_self (env : Environment) : env.Computes (Value.applyBuiltin env.config) := fun _ _ _ => rfl

theorem Sound.evaluate_sure (h : env.Sound) {primitive : Eval.Primitive} (hp : env.Computes primitive) {t : Tree}
    (ht : t.Scoped .top) :
    Eval.Sure (Eval.tree (env.machineWith primitive) .empty t) (env.evaluate .empty t) Value.Sound :=
  have hf : Frame.Fits .empty 0 0 := ⟨rfl, rfl, by simp [Frame.empty]⟩
  Eval.tree_sure (s := .top) (h.agrees hp) hf (Nat.le_refl 0) t ht

private theorem attempt_always {α : Type} {E : RuntimeError → Prop} {E' : ParseError → Prop} {Q : α → Prop}
    {evaluation : Eval α} (h : Always E evaluation Q) :
    Always E' (Parse.attempt evaluation) fun r => Ends E r Q :=
  fun supply _ => ⟨trivial, (h supply.output trivial).2⟩

/-- In a sound environment the bases of number literals never meet a scope fault. -/
private theorem Sound.admits (h : env.Sound) : Parse.Admits env fun e => e.isScopeFault = false where
  other _ he := he
  base position t hu ht := by
    unfold Parse.evaluateBase
    rw [hu]
    refine (attempt_always (h.evaluate_sure env.computes_self ht).2).bind fun r hr => ?_
    cases r with
    | error e => exact .throw hr
    | ok v =>
      simp only
      split
      · exact .pure trivial
      · exact .throw rfl

theorem Sound.call_sure (h : env.Sound) {primitive : Eval.Primitive} (hp : env.Computes primitive) (id : Nat)
    {args : List Value} (ha : ∀ v ∈ args, v.Sound) :
    Eval.Sure (Eval.callFunction (env.machineWith primitive) id args) (Eval.callFunction env.machine id args)
      Value.Sound :=
  Eval.callFunction_sure (h.agrees hp) id ha

theorem Sound.callLambda_sure (h : env.Sound) {primitive : Eval.Primitive} (hp : env.Computes primitive)
    {f : Lambda} {captured args : List Value} (hf : (Value.function f captured).Sound)
    (ha : ∀ v ∈ args, v.Sound) :
    Eval.Sure (Eval.callLambda (env.machineWith primitive) f captured args)
      (Eval.callLambda env.machine f captured args) Value.Sound :=
  Eval.callLambda_sure (h.agrees hp) hf ha

private theorem Sound.define (h : env.Sound) (id : Nat) (name : Text) {f : Function} (hf : f.body.IsBody f.params) :
    Sound { env with functions := env.functions.insert id name f } :=
  ⟨h.functions.insert id name hf, h.globals⟩

/-- Nothing is defined in a new interpreter. -/
theorem sound_new (units : UnitTable) (config : Config) : Sound { units, config } :=
  ⟨Registry.all_empty, Registry.all_empty⟩

end Environment

namespace Session

/-- The operation keeps the environment sound, and ends with a result in `Q` or a failure that is no scope
fault. -/
abbrev Guards {α : Type} (x : Operation α) (Q : α → Prop) : Prop :=
  Keeps (fun s : Session => s.env.Sound) (fun e => e.isScopeFault = false) x Q

section
variable {α : Type} {Q : α → Prop}

private theorem run_get_bind (f : Session → Operation α) (s : Session) : (get >>= f).run.run s = (f s).run.run s := rfl

theorem run_parsing (p : Environment → Parse α) (s : Session) :
    (parsing p).run.run s = (((p s.env).run.run s.supply).1.mapError Failure.parse,
      { s with supply := ((p s.env).run.run s.supply).2 }) := by
  rw [parsing, run_get_bind]
  rcases (p s.env).run.run s.supply with ⟨e | a, supply⟩
  · rfl
  · rfl

theorem run_evaluating (e : Environment → Eval α) (s : Session) :
    (evaluating e).run.run s = (((e s.env).run.run s.supply.output).1.mapError Failure.runtime,
      { s with supply := { s.supply with output := ((e s.env).run.run s.supply.output).2 } }) := by
  rw [evaluating, run_get_bind]
  rcases (e s.env).run.run s.supply.output with ⟨e | a, output⟩
  · rfl
  · rfl

theorem ends_mapError {ε ε' : Type} {E : ε → Prop} {E' : ε' → Prop} {r : Except ε α} {f : ε → ε'}
    (h : Ends E r Q) (hf : ∀ e, E e → E' (f e)) : Ends E' (r.mapError f) Q := by
  cases r with
  | ok a => exact h
  | error e => exact hf e h

private theorem parsing_guards {p : Environment → Parse α}
    (h : ∀ env, env.Sound → Always (fun e => e.isScopeFault = false) (p env) Q) : Guards (parsing p) Q := by
  intro s hs
  rw [run_parsing]
  exact ⟨hs, ends_mapError (h s.env hs s.supply trivial).2 fun _ he => he⟩

private theorem evaluating_guards {e : Environment → Eval α}
    (h : ∀ env, env.Sound → Always (fun e => e.isScopeFault = false) (e env) Q) :
    Guards (evaluating e) Q := by
  intro s hs
  rw [run_evaluating]
  exact ⟨hs, ends_mapError (h s.env hs s.supply.output trivial).2 fun _ he => he⟩

private theorem environment_guards : Guards environment Environment.Sound := fun _ hs => ⟨hs, hs⟩

private theorem update_guards {f : Environment → Environment} (h : ∀ env, env.Sound → (f env).Sound) :
    Guards (update f) fun _ => True := fun s hs => ⟨h s.env hs, trivial⟩

private theorem liftParse_guards {r : Except ParseError α} (h : Ends (fun e => e.isScopeFault = false) r Q) :
    Guards (liftParse r) Q := .lift (ends_mapError h fun _ he => he)

end

theorem parse_guards (t : Text) : Guards (parse t) (Tree.Scoped .top) :=
  parsing_guards fun _ he => parseExpression_scoped he.admits t 0 .top _

theorem evaluate_guards {t : Tree} (ht : t.Scoped .top) : Guards (evaluate t) Value.Sound :=
  evaluating_guards fun env he => (he.evaluate_sure env.computes_self ht).2

private theorem evaluateText_guards (t : Text) : Guards (evaluateText t) Value.Sound :=
  (parse_guards t).bind fun _ ht => evaluate_guards ht

theorem callFunction_guards (name : Text) {args : List Value} (ha : ∀ v ∈ args, v.Sound) :
    Guards (callFunction name args) Value.Sound := by
  refine evaluating_guards fun env he => ?_
  unfold Environment.call
  split
  · exact (he.call_sure env.computes_self _ ha).2
  · exact .throw rfl

theorem callLambda_guards {f : Lambda} {captured args : List Value} (hf : (Value.function f captured).Sound)
    (ha : ∀ v ∈ args, v.Sound) :
    Guards (evaluating fun env => Eval.callLambda env.machine f captured args) Value.Sound :=
  evaluating_guards fun env he => (he.callLambda_sure env.computes_self hf ha).2

private theorem checkDefinable_ends (name : Text) :
    Ends (fun e => e.isScopeFault = false) (checkDefinable name) fun _ => True :=
  .ite (fun _ => rfl) fun _ => .ite (fun _ => rfl) fun _ => trivial

private theorem checkParams_ends (seen params : List Text) :
    Ends (fun e => e.isScopeFault = false) (checkParams seen params) fun _ => True := by
  induction params generalizing seen with
  | nil => trivial
  | cons param params ih => exact .ite (fun _ => rfl) fun _ => .ite (fun _ => rfl) fun _ => ih _

theorem parseBody_scoped {env : Environment} {E : ParseError → Prop} (h : Parse.Admits env E)
    (params : List Text) (pending : Option Pending) (text : Text) :
    Always E (parseBody env (.function params pending) text) (Block.IsBody params) := by
  unfold parseBody
  refine .ite (fun _ => ?_) fun _ => ?_
  · exact Keeps.map ((parseBlock_scoped h _ _ _).mono fun r hr => ⟨pending, r.2, hr⟩)
  · refine Keeps.map ((parseExpression_scoped h _ _ _ _).mono fun t ht => ?_)
    exact Block.returning_isBody (Tree.Scoped.congr (by rfl) (by rfl) ht)

theorem defineFunction_guards (name : Text) (params : List Text) (body : Text) :
    Guards (defineFunction name params body) fun _ => True := by
  unfold defineFunction
  refine (liftParse_guards (checkDefinable_ends name)).bind fun _ _ => ?_
  refine (liftParse_guards (checkParams_ends [] params)).bind fun _ _ => ?_
  refine environment_guards.bind fun env _ => ?_
  refine (parsing_guards fun _ he => parseBody_scoped he.admits params _ body).bind fun code hcode => ?_
  exact (update_guards fun _ he => he.define _ name hcode).bind fun _ _ => .pure trivial

theorem deleteFunction_guards (name : Text) : Guards (deleteFunction name) fun _ => True := by
  unfold deleteFunction
  refine environment_guards.bind fun env henv => ?_
  have hremoved (env' : Environment) (he : env'.Sound) :
      Environment.Sound { env' with functions := (env.functions.remove name).2 } :=
    ⟨henv.functions.remove name, he.globals⟩
  refine (update_guards hremoved).bind fun _ _ => ?_
  exact .ite (fun _ => .throw rfl) fun _ => .pure trivial

theorem setVariable_guards (name : Text) {v : Value} (hv : v.Sound) :
    Guards (setVariable name v) fun _ => True := by
  unfold setVariable
  refine (liftParse_guards (checkDefinable_ends name)).bind fun _ _ => ?_
  refine environment_guards.bind fun env henv => ?_
  have hset (env' : Environment) (he : env'.Sound) : Environment.Sound { env' with globals := (env.globals.set name v).2 } :=
    ⟨he.functions, henv.globals.set name hv⟩
  exact (update_guards hset).bind fun _ _ => .pure trivial

theorem deleteVariable_guards (name : Text) : Guards (deleteVariable name) Value.Sound := by
  unfold deleteVariable
  refine environment_guards.bind fun env henv => ?_
  have hremoved (env' : Environment) (he : env'.Sound) :
      Environment.Sound { env' with globals := (env.globals.remove name).2 } :=
    ⟨he.functions, henv.globals.remove name⟩
  refine (update_guards hremoved).bind fun _ _ => ?_
  split
  · rename_i v hv
    exact .pure (henv.globals.removed hv)
  · exact .throw rfl

/-- Deriving a function changes nothing, and the derivative stays in the scope of the function. -/
private theorem derive_keeps (name : Text) {s : Session} (hs : s.env.Sound) :
    Keeps (· = s) (fun e => e.isScopeFault = false) (derive name) fun t =>
      ∃ f, s.env.functions.find? name = some f ∧ t.Scoped (.function f.params none) := by
  have henv : Keeps (· = s) (fun e : Failure => e.isScopeFault = false) environment (· = s.env) := by
    rintro _ rfl
    exact ⟨rfl, rfl⟩
  unfold derive
  refine henv.bind fun env henv => ?_
  subst henv
  split
  · exact .throw rfl
  · rename_i f hf
    split
    · exact .throw rfl
    · rename_i t ht
      have hscoped := (hs.functions.find? hf).singleReturn ht
      have hd : Safe t.derivative (Tree.Scoped _) := (Tree.Scoped.structural _).derivative (fun _ => rfl) t hscoped
      exact .lift (ends_mapError (hd.mono fun d hd => ⟨f, hf, hd⟩) fun _ he => he)

theorem defineDerivative_guards (name derived : Text) :
    Guards (defineDerivative name derived) fun _ => True := by
  unfold defineDerivative
  refine (liftParse_guards (checkDefinable_ends derived)).bind fun _ _ s hs => ?_
  obtain ⟨hsame, hderive⟩ := derive_keeps name hs s rfl
  rw [run_bind, hsame]
  split
  · rename_i t ht
    rw [ht] at hderive
    obtain ⟨f, hf, hscoped⟩ := hderive
    refine ⟨hs.define _ derived (Block.returning_isBody ?_), trivial⟩
    simp only [hf, Option.map_some, Option.getD_some]
    exact hscoped
  · rename_i e he
    rw [he] at hderive
    exact ⟨hs, hderive⟩

theorem execute_guards (line : Text) : Guards (execute line) fun shown => ∀ v ∈ shown, v.Sound := by
  have hnone : Guards (pure none) fun shown : Option Value => ∀ v ∈ shown, v.Sound := .pure nofun
  have hsome {v : Value} (hv : v.Sound) :
      Guards (pure (some v)) fun shown : Option Value => ∀ v ∈ shown, v.Sound :=
    .pure fun _ hw => Option.some.inj hw ▸ hv
  unfold execute
  refine .ite (fun _ => hnone) fun _ => ?_
  simp only
  split
  · rename_i name _
    refine environment_guards.bind fun env _ => .ite (fun _ => ?_) fun _ => ?_
    · exact (deleteFunction_guards name).bind fun _ _ => hnone
    · exact (deleteVariable_guards name).bind fun _ _ => hnone
  · refine .ite (fun _ => (evaluateText_guards _).bind fun _ hv => hsome hv) fun _ => ?_
    split
    · exact (defineFunction_guards _ _ _).bind fun _ _ => hnone
    · refine .ite (fun _ => ?_) fun _ => .throw rfl
      exact (evaluateText_guards _).bind fun v hv => (setVariable_guards _ hv).bind fun _ _ => hsome hv

end Session
end Reckoner
