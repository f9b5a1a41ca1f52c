import Reckoner.Session.Script
import Reckoner.Proofs.Host
import Reckoner.Proofs.Registry.Slots
import Reckoner.Proofs.Scoping.Session

/-! What an operation on a session does to the environment: nothing when it fails, and at most one write to one
of the registries when it succeeds. -/
namespace Reckoner

/-- How a function comes to be that is registered under a name: its body is parsed, or it is a derivative. -/
inductive Environment.Writes (env : Environment) (name : Text) : Function → Prop
  | parsed {params : List Text} {text : Text} {code : Block} (supply : Supply)
    (hparams : Session.checkParams [] params = .ok ())
    (h : ((Session.parseBody env
      (.function params (some { name, id := env.functions.reserve name, arity := params.length })) text).run.run
        supply).1 = .ok code) : Writes env name { params, body := code }
  | derived {source : Text} {f : Function} {t d : Tree} (hf : env.functions.find? source = some f)
    (ht : f.body.singleReturn? = some t) (hd : t.derivative = .ok d) :
    Writes env name { params := f.params, body := .returning d }

structure Deleted where
  functions : Text → Prop
  globals : Text → Prop

def Deleted.any : Deleted := ⟨fun _ => True, fun _ => True⟩

/-- What a successful operation makes of the environment. -/
inductive Environment.Edit (deleted : Deleted) (env : Environment) : Environment → Prop
  | keep : Edit deleted env env
  | define {name : Text} {f : Function} (hname : Session.checkDefinable name = .ok ()) (hf : env.Writes name f) :
    Edit deleted env { env with functions := env.functions.insert (env.functions.reserve name) name f }
  | undefine {name : Text} (hname : deleted.functions name) :
    Edit deleted env { env with functions := (env.functions.remove name).2 }
  | assign {name : Text} (v : Value) (hname : Session.checkDefinable name = .ok ()) :
    Edit deleted env { env with globals := (env.globals.set name v).2 }
  | forget {name : Text} (hname : deleted.globals name) :
    Edit deleted env { env with globals := (env.globals.remove name).2 }

structure Environment.Exact (env : Environment) : Prop where
  functions : env.functions.Exact
  globals : env.globals.Exact

theorem Environment.Edit.exact {deleted : Deleted} {env env' : Environment} (h : env.Edit deleted env') (he : env.Exact) :
    env'.Exact := by
  cases h with
  | keep => exact he
  | define _ _ => exact ⟨he.functions.insert _ _, he.globals⟩
  | undefine _ => exact ⟨he.functions.remove _, he.globals⟩
  | assign _ _ =>
    rw [he.globals.set_eq]
    exact ⟨he.functions, he.globals.insert _ _⟩
  | forget _ => exact ⟨he.functions, he.globals.remove _⟩

namespace Session

/-- From an environment whose names and slots match, the operation ends in a result and an environment in `Q`, or it fails
and leaves the environment as it was. -/
def Commits {α : Type} (env : Environment) (x : Operation α) (Q : α → Environment → Prop) : Prop :=
  env.Exact → ∀ s, s.env = env →
    Ends (fun _ => (x.run.run s).2.env = env) (x.run.run s).1 fun a => Q a (x.run.run s).2.env

abbrev Reads {α : Type} (env : Environment) (x : Operation α) (Q : α → Prop) : Prop :=
  Commits env x fun a env' => Q a ∧ env' = env

namespace Commits
variable {α β : Type} {env : Environment} {x : Operation α} {f : α → Operation β}
  {P : α → Prop} {Q Q' : α → Environment → Prop} {R : β → Environment → Prop}

private theorem pure {a : α} (h : Q a env) : Commits env (Pure.pure a) Q := by
  intro _ s hs
  subst hs
  exact h

private theorem throw (e : Failure) : Commits env (MonadExcept.throw e) Q := by
  intro _ s hs
  exact hs

theorem mono (hx : Commits env x Q) (h : ∀ a env', Q a env' → Q' a env') : Commits env x Q' := by
  intro he s hs
  exact (hx he s hs).mono fun a ha => h a _ ha

/-- What only reads may come before anything. -/
theorem bind (hx : Reads env x P) (hf : ∀ a, P a → Commits env (f a) R) : Commits env (x >>= f) R := by
  intro he s hs
  have hfirst := hx he s hs
  rw [run_bind]
  cases hr : (x.run.run s).1 with
  | ok a =>
    rw [hr] at hfirst
    exact hf a hfirst.1 he _ hfirst.2
  | error e =>
    rw [hr] at hfirst
    exact hfirst

/-- Behind a write only the answer is put together. -/
theorem answer {g : α → β} (hx : Commits env x fun a => R (g a)) : Commits env (do return g (← x)) R := by
  intro he s hs
  have hfirst := hx he s hs
  rw [run_bind]
  cases hr : (x.run.run s).1 with
  | ok a =>
    rw [hr] at hfirst
    exact hfirst
  | error e =>
    rw [hr] at hfirst
    exact hfirst

private theorem ite {c : Prop} [Decidable c] {y : Operation α} (h : c → Commits env x Q) (h' : ¬c → Commits env y Q) :
    Commits env (if c then x else y) Q := by
  by_cases hc : c
  · rw [if_pos hc]
    exact h hc
  · rw [if_neg hc]
    exact h' hc

private theorem of_exact (h : env.Exact → Commits env x Q) : Commits env x Q := fun he => h he he

end Commits

section
variable {α : Type} {env : Environment}

theorem parsing_reads (p : Environment → Parse α) :
    Reads env (parsing p) fun a => ∃ supply, ((p env).run.run supply).1 = .ok a := by
  intro _ s hs
  subst hs
  rw [run_parsing]
  cases hr : ((p s.env).run.run s.supply).1 with
  | ok a => exact ⟨⟨s.supply, hr⟩, rfl⟩
  | error e => exact rfl

private theorem evaluating_reads (e : Environment → Eval α) : Reads env (evaluating e) fun _ => True := by
  intro _ s hs
  subst hs
  rw [run_evaluating]
  cases ((e s.env).run.run s.supply.output).1 with
  | ok a => exact ⟨trivial, rfl⟩
  | error e => exact rfl

theorem environment_reads : Reads env environment (· = env) := by
  intro _ s hs
  exact ⟨hs, hs⟩

theorem liftParse_reads (r : Except ParseError α) : Reads env (liftParse r) fun a => r = .ok a := by
  intro _ s hs
  cases r with
  | ok a => exact ⟨rfl, hs⟩
  | error e => exact hs

private theorem liftRuntime_reads (r : Except RuntimeError α) : Reads env (liftRuntime r) fun a => r = .ok a := by
  intro _ s hs
  cases r with
  | ok a => exact ⟨rfl, hs⟩
  | error e => exact hs

private theorem update_reads {f : Environment → Environment} (h : f env = env) :
    Reads env (update f) fun _ => True := by
  intro _ s hs
  subst hs
  exact ⟨trivial, h⟩

theorem update_commits (f : Environment → Environment) :
    Commits env (update f) fun _ env' => env' = f env := by
  intro _ s hs
  subst hs
  exact rfl

end

section
variable {env : Environment} {deleted : Deleted}

private theorem evaluateText_reads (t : Text) : Reads env (evaluateText t) fun _ => True := by
  unfold evaluateText parse evaluate
  exact (parsing_reads _).bind fun tree _ => evaluating_reads _

private theorem defineFunction_commits (name : Text) (params : List Text) (body : Text) :
    Commits env (defineFunction name params body) fun _ env' => env.Edit deleted env' := by
  unfold defineFunction
  refine (liftParse_reads _).bind fun _ hname => (liftParse_reads _).bind fun _ hparams => ?_
  refine environment_reads.bind fun env₁ henv => ?_
  subst henv
  refine (parsing_reads _).bind fun code ⟨supply, hcode⟩ => ?_
  refine .answer ((update_commits _).mono fun _ env' he => ?_)
  subst he
  exact .define hname (.parsed supply hparams hcode)

/-- A removal that finds nothing changes nothing, although the registry is written before that is known. -/
private theorem removal_commits {α β : Type} (removed : Option β) {f : Environment → Environment}
    {rest : Option β → Operation α} (hedit : env.Edit deleted (f env)) (hkeeps : removed.isNone → f env = env)
    (hfound : ∀ entry, ∃ a, rest (some entry) = pure a) (hmissed : ∃ e, rest none = throw e) :
    Commits env (do update f; rest removed) fun _ env' => env.Edit deleted env' := by
  cases removed with
  | none =>
    obtain ⟨e, he⟩ := hmissed
    rw [he]
    exact (update_reads (hkeeps rfl)).bind fun _ _ => .throw e
  | some entry =>
    obtain ⟨a, ha⟩ := hfound entry
    rw [ha]
    refine .answer ((update_commits f).mono fun _ env' he => ?_)
    subst he
    exact hedit

private theorem deleteFunction_commits {name : Text} (hname : deleted.functions name) :
    Commits env (deleteFunction name) fun _ env' => env.Edit deleted env' := by
  refine .of_exact fun hexact => ?_
  unfold deleteFunction
  refine environment_reads.bind fun env₁ henv => ?_
  subst henv
  have hedit : env₁.Edit deleted { env₁ with functions := (env₁.functions.remove name).2 } := .undefine hname
  have hkeeps := hexact.functions.remove_of_isNone name
  generalize env₁.functions.remove name = r at hedit hkeeps ⊢
  obtain ⟨removed, functions⟩ := r
  dsimp only at hedit hkeeps ⊢
  apply removal_commits removed hedit
  · intro hnone
    rw [hkeeps hnone]
  · exact fun _ => ⟨(), rfl⟩
  · exact ⟨_, rfl⟩

private theorem setVariable_commits (name : Text) (v : Value) :
    Commits env (setVariable name v) fun _ env' => env.Edit deleted env' := by
  unfold setVariable
  refine (liftParse_reads _).bind fun _ hname => environment_reads.bind fun env₁ henv => ?_
  subst henv
  refine .answer ((update_commits _).mono fun _ env' he => ?_)
  subst he
  exact .assign v hname

private theorem deleteVariable_commits {name : Text} (hname : deleted.globals name) :
    Commits env (deleteVariable name) fun _ env' => env.Edit deleted env' := by
  refine .of_exact fun hexact => ?_
  unfold deleteVariable
  refine environment_reads.bind fun env₁ henv => ?_
  subst henv
  have hedit : env₁.Edit deleted { env₁ with globals := (env₁.globals.remove name).2 } := .forget hname
  have hkeeps := hexact.globals.remove_of_isNone name
  generalize env₁.globals.remove name = r at hedit hkeeps ⊢
  obtain ⟨removed, globals⟩ := r
  dsimp only at hedit hkeeps ⊢
  apply removal_commits removed hedit
  · intro hnone
    rw [hkeeps hnone]
  · exact fun entry => ⟨entry.2, rfl⟩
  · exact ⟨_, rfl⟩

private theorem derive_reads (name : Text) :
    Reads env (derive name) fun d => ∃ f t, env.functions.find? name = some f ∧
      f.body.singleReturn? = some t ∧ t.derivative = .ok d := by
  unfold derive
  refine environment_reads.bind fun env₁ henv => ?_
  subst henv
  split
  · exact .throw _
  · rename_i f hf
    split
    · exact .throw _
    · rename_i t ht
      exact (liftRuntime_reads _).mono fun d env' ⟨hd, he⟩ => ⟨⟨f, t, hf, ht, hd⟩, he⟩

private theorem defineDerivative_commits (name derived : Text) :
    Commits env (defineDerivative name derived) fun _ env' => env.Edit deleted env' := by
  unfold defineDerivative
  refine (liftParse_reads _).bind fun _ hname => (derive_reads name).bind fun d hd => ?_
  obtain ⟨f, t, hf, ht, hd⟩ := hd
  refine environment_reads.bind fun env₁ henv => ?_
  subst henv
  refine .answer ((update_commits _).mono fun _ env' he => ?_)
  subst he
  simp only [hf, Option.map_some, Option.getD_some]
  exact .define hname (.derived hf ht hd)

/-- A line deletes at most the name behind its `delete`: the function of this name, or else the variable. -/
theorem execute_commits {line : Text} (hline : ∀ name, deletion? (Text.trim line) = some name →
      if (env.functions.lookup name).isSome then deleted.functions name else deleted.globals name) :
    Commits env (execute line) fun _ env' => env.Edit deleted env' := by
  have hkeep (shown : Option Value) :
      Commits env (pure shown : Operation (Option Value)) fun _ env' => env.Edit deleted env' := .pure .keep
  unfold execute
  refine .ite (fun _ => hkeep none) fun _ => ?_
  simp only
  split
  · rename_i name hname
    have hdeleted := hline name hname
    refine environment_reads.bind fun env₁ henv => ?_
    subst henv
    refine .ite (fun hlive => ?_) fun hlive => ?_
    · rw [if_pos hlive] at hdeleted
      exact .answer (deleteFunction_commits hdeleted)
    · rw [if_neg hlive] at hdeleted
      exact .answer (deleteVariable_commits hdeleted)
  · refine .ite (fun _ => (evaluateText_reads _).bind fun v _ => hkeep (some v)) fun _ => ?_
    split
    · exact .answer (defineFunction_commits _ _ _)
    · refine .ite (fun _ => ?_) fun _ => .throw _
      exact (evaluateText_reads _).bind fun v _ => .answer (setVariable_commits _ v)

end
end Session

namespace Request
open Session

def Within (deleted : Deleted) (env : Environment) : Request → Prop
  | deleteFunction name => deleted.functions name
  | deleteVariable name => deleted.globals name
  | execute line => ∀ name, deletion? (Text.trim line) = some name →
    if (env.functions.lookup name).isSome then deleted.functions name else deleted.globals name
  | parse _ | evaluate _ | defineFunction .. | defineDerivative .. | setVariable .. | callFunction ..
  | callLambda .. => True

theorem within_any (env : Environment) (r : Request) : r.Within .any env := by
  cases r with
  | execute line =>
    intro name _
    split <;> trivial
  | _ => trivial

/-- A request makes one edit, or it fails and makes none. -/
theorem perform_commits {env : Environment} {deleted : Deleted} {r : Request} (hr : r.Within deleted env) :
    Commits env r.perform fun _ env' => env.Edit deleted env' := by
  have hreads {α : Type} {x : Operation α} {P : α → Prop} (hx : Reads env x P) (f : α → Answer) :
      Commits env (do return f (← x)) fun _ env' => env.Edit deleted env' := by
    refine .answer (hx.mono fun _ env' h => ?_)
    rw [h.2]
    exact .keep
  cases r with
  | parse text => exact hreads (parsing_reads _) _
  | evaluate t => exact hreads (evaluating_reads _) _
  | defineFunction name params body => exact .answer (defineFunction_commits name params body)
  | defineDerivative name derived => exact .answer (defineDerivative_commits name derived)
  | deleteFunction name => exact .answer (deleteFunction_commits hr)
  | setVariable name v => exact .answer (setVariable_commits name v)
  | deleteVariable name => exact .answer (deleteVariable_commits hr)
  | execute line => exact .answer (execute_commits hr)
  | callFunction name args => exact hreads (evaluating_reads _) _
  | callLambda f captured args => exact hreads (evaluating_reads _) _

end Request

namespace Session
variable {deleted : Deleted}

/-- Whether it fails or not, such an operation makes at most one edit. -/
theorem Commits.edits {α : Type} {x : Operation α} {s : Session}
    (hx : Commits s.env x fun _ env' => s.env.Edit deleted env') (he : s.env.Exact) :
    s.env.Edit deleted (x.run.run s).2.env := by
  have hcommits := hx he s rfl
  cases hrun : (x.run.run s).1 with
  | ok answer =>
    rw [hrun] at hcommits
    exact hcommits
  | error e =>
    rw [hrun] at hcommits
    rw [hcommits]
    exact .keep

theorem run_executeScript (source : Text) (s : Session) :
    (executeScript source).run.run s =
      let r := executeLines (fun _ s => s) (logicalLines source) s
      (match r.1.2 with
        | some e => .error e
        | none => .ok r.1.1.getLast?, r.2) := by
  change (match (executeLines (fun _ s => s) (logicalLines source) s).1.2 with
    | some e => (throw e : Operation (Option Value))
    | none => pure (executeLines (fun _ s => s) (logicalLines source) s).1.1.getLast?).run.run
      (executeLines (fun _ s => s) (logicalLines source) s).2 = _
  generalize executeLines (fun _ s => s) (logicalLines source) s = r
  obtain ⟨⟨values, failure⟩, last⟩ := r
  cases failure <;> rfl

end Session

/-- What every edit preserves holds of every interpreter that can be reached. -/
theorem Host.Reachable.invariant {P : Environment → Prop}
    (hP : ∀ env env', env.Exact → P env → env.Edit .any env' → P env')
    (hnew : ∀ (units : UnitTable) (config : Config), P { units, config }) {h : Host} (hr : h.Reachable) :
    h.session.env.Exact ∧ P h.session.env := by
  induction hr with
  | new units config => exact ⟨⟨.empty, .empty⟩, hnew units config⟩
  | @after h _ r _ ih =>
    have hedit := (Request.perform_commits (r.within_any h.session.env)).edits ih.1
    rw [Host.session_after]
    exact ⟨hedit.exact ih.1, hP _ _ ih.1 ih.2 hedit⟩

theorem Host.Reachable.exact {h : Host} (hr : h.Reachable) : h.session.env.Exact :=
  (hr.invariant (fun _ _ _ _ _ => trivial) fun _ _ => trivial : _ ∧ True).1

end Reckoner
