import Reckoner.Proofs.Registry.History
import Reckoner.Proofs.Rendering.Registered

/-! Functions that are called by name. What is called by a name that is looked up when the call is run comes to the
same as the call of the function itself, however often `run` is told to run itself in between. -/
namespace Reckoner

/-- The string literals for so many further calls of `run`. -/
def Tree.detours (depth : Nat) : List Tree := List.replicate depth (.literal (.string Builtin.run.name))

def Tree.runByName (depth : Nat) (name : Text) (args : List Tree) : Tree :=
  .builtin .run (Tree.detours depth ++ .literal (.string name) :: args)

namespace Eval
variable {m : Machine} {frame : Frame}

/-- Behind its first argument `run` takes any value. -/
private theorem checkKind_run (position : Nat) (v : Value) : checkKind .run (position + 1) v = .ok () := by
  have hany : Builtin.run.kindsAt (position + 1) = .any := by cases position <;> rfl
  rw [checkKind, hany]
  cases v <;> rfl

private theorem checkedArgs_run (position : Nat) (ts : List Tree) :
    checkedArgs m frame .run (position + 1) ts = trees m frame ts := by
  induction ts generalizing position with
  | nil => simp only [checkedArgs, trees]
  | cons t ts ih =>
    have hpass (v : Value) : ofExcept (checkKind .run (position + 1) v) = pure () := by
      rw [checkKind_run]
      rfl
    simp only [checkedArgs, trees, hpass, ih, pure_bind]

/-- Where a name comes first, no kind is checked. -/
private theorem checkedArgs_run_literal (name : Text) (ts : List Tree) :
    checkedArgs m frame .run 0 (.literal (.string name) :: ts) = trees m frame (.literal (.string name) :: ts) := by
  have hpass : ofExcept (checkKind .run 0 (.string name)) = pure () := rfl
  simp only [checkedArgs, trees, tree, hpass, checkedArgs_run, pure_bind]

private theorem trees_detours (depth : Nat) (ts : List Tree) :
    trees m frame (Tree.detours depth ++ ts) =
      (List.replicate depth (.string Builtin.run.name) ++ ·) <$> trees m frame ts := by
  induction depth with
  | zero => simp [Tree.detours]
  | succ depth ih =>
    have hfirst : Tree.detours (depth + 1) = .literal (.string Builtin.run.name) :: Tree.detours depth := rfl
    simp only [hfirst, List.cons_append, trees, tree, pure_bind, ih, List.replicate_succ, map_eq_pure_bind, bind_assoc]

/-- The arguments of `run` are evaluated as if they stood alone. -/
private theorem checkedArgs_runByName (depth : Nat) (name : Text) (args : List Tree) :
    checkedArgs m frame .run 0 (Tree.detours depth ++ .literal (.string name) :: args) =
      (List.replicate depth (.string Builtin.run.name) ++ .string name :: ·) <$> trees m frame args := by
  have hall : checkedArgs m frame .run 0 (Tree.detours depth ++ .literal (.string name) :: args) =
      trees m frame (Tree.detours depth ++ .literal (.string name) :: args) := by
    cases depth with
    | zero => exact checkedArgs_run_literal name args
    | succ depth => exact checkedArgs_run_literal Builtin.run.name _
  rw [hall, trees_detours]
  simp only [trees, tree, pure_bind, map_eq_pure_bind, bind_assoc]

private theorem apply_run_function {name : Text} {id : Nat} (h : m.env.functions.lookup name = some id)
    (vs : List Value) :
    apply m .run (.string name :: vs) = callFunction m id vs := by
  rw [apply, h]

private theorem apply_run_builtin {name : Text} {op : Builtin} (hfree : m.env.functions.lookup name = none)
    (hname : Builtin.ofName? name = some op) {vs : List Value} (hcount : op.arity.accepts vs.length) :
    apply m .run (.string name :: vs) = (do
      ofExcept (checkKinds op 0 vs)
      apply m op vs) := by
  rw [apply, hfree, hname]
  exact if_pos hcount

/-- A `run` that is told to run itself does what it would have done at once. -/
private theorem apply_detours (hfree : m.env.functions.lookup Builtin.run.name = none) (depth : Nat) (name : Text)
    (vs : List Value) :
    apply m .run (List.replicate depth (.string Builtin.run.name) ++ .string name :: vs) =
      apply m .run (.string name :: vs) := by
  induction depth with
  | zero => rfl
  | succ depth ih =>
    have hcount : Builtin.run.arity.accepts
        (List.replicate depth (Value.string Builtin.run.name) ++ .string name :: vs).length := by
      simp [Builtin.arity, Arity.accepts]
      omega
    have hkinds : checkKinds .run 0 (List.replicate depth (Value.string Builtin.run.name) ++ .string name :: vs) =
        .ok () := by
      have hbehind (position : Nat) (ws : List Value) : checkKinds .run (position + 1) ws = .ok () := by
        induction ws generalizing position with
        | nil => rfl
        | cons w ws ih =>
          rw [checkKinds, checkKind_run]
          exact ih (position + 1)
      cases depth <;> exact hbehind 0 _
    rw [List.replicate_succ, List.cons_append, apply_run_builtin hfree (by decide) hcount, hkinds]
    exact ih

private theorem tree_runByName (hfree : m.env.functions.lookup Builtin.run.name = none) (depth : Nat) (name : Text)
    (args : List Tree) :
    tree m frame (.runByName depth name args) = (do apply m .run (.string name :: (← trees m frame args))) := by
  rw [Tree.runByName, tree, checkedArgs_runByName, map_eq_pure_bind, bind_assoc]
  simp only [pure_bind, apply_detours hfree]

/-- Trees that all have values are evaluated one after the other. -/
private theorem run_trees_cons {t : Tree} {ts : List Tree} {vs : List Value} {out after : Output}
    (h : (trees m frame (t :: ts)).run.run out = (.ok vs, after)) :
    ∃ v ws between, vs = v :: ws ∧ (tree m frame t).run.run out = (.ok v, between) ∧
      (trees m frame ts).run.run between = (.ok ws, after) := by
  rw [trees, run_bind] at h
  cases hfirst : (tree m frame t).run.run out with
  | mk result between =>
    rw [hfirst] at h
    cases result with
    | error e => cases h
    | ok v =>
      simp only [run_bind] at h
      cases hrest : (trees m frame ts).run.run between with
      | mk rest after' =>
        rw [hrest] at h
        cases rest with
        | error e => cases h
        | ok ws =>
          cases h
          exact ⟨v, ws, between, rfl, rfl, hrest⟩

/-- The kind of an argument is checked before the next one is evaluated. -/
private theorem run_checkedArgs_cons (op : Builtin) (position : Nat) {t : Tree} {v : Value} {out between : Output}
    (h : (tree m frame t).run.run out = (.ok v, between)) (ts : List Tree) :
    (checkedArgs m frame op position (t :: ts)).run.run out =
      match checkKind op position v with
      | .ok _ => ((v :: ·) <$> checkedArgs m frame op (position + 1) ts).run.run between
      | .error e => (.error e, between) := by
  rw [checkedArgs, run_bind, h]
  simp only [map_eq_pure_bind]
  cases checkKind op position v <;> rfl

variable {op : Builtin} {vs : List Value} {ts : List Tree} {position : Nat} {out after : Output}

private theorem run_checkedArgs_ok (h : (trees m frame ts).run.run out = (.ok vs, after))
    (hkinds : checkKinds op position vs = .ok ()) :
    (checkedArgs m frame op position ts).run.run out = (.ok vs, after) := by
  induction ts generalizing position vs out with
  | nil =>
    cases h
    rfl
  | cons t ts ih =>
    obtain ⟨v, ws, between, rfl, hfirst, hrest⟩ := run_trees_cons h
    rw [checkKinds] at hkinds
    rw [run_checkedArgs_cons op position hfirst]
    cases hkind : checkKind op position v with
    | error e =>
      rw [hkind] at hkinds
      cases hkinds
    | ok _ =>
      rw [hkind] at hkinds
      simp only [map_eq_pure_bind]
      rw [run_bind, ih hrest hkinds]
      rfl

/-- When all arguments have values, the first of them that is of a wrong kind is the reason to refuse them. -/
private theorem run_checkedArgs_error {e : RuntimeError} (h : (trees m frame ts).run.run out = (.ok vs, after))
    (hkinds : checkKinds op position vs = .error e) :
    ((checkedArgs m frame op position ts).run.run out).1 = .error e := by
  induction ts generalizing position vs out with
  | nil =>
    cases h
    cases hkinds
  | cons t ts ih =>
    obtain ⟨v, ws, between, rfl, hfirst, hrest⟩ := run_trees_cons h
    rw [checkKinds] at hkinds
    rw [run_checkedArgs_cons op position hfirst]
    cases hkind : checkKind op position v with
    | error e' =>
      rw [hkind] at hkinds
      cases hkinds
      rfl
    | ok _ =>
      rw [hkind] at hkinds
      simp only [map_eq_pure_bind]
      rw [run_bind, ih hrest hkinds]

private theorem length_trees (h : (trees m frame ts).run.run out = (.ok vs, after)) : vs.length = ts.length := by
  induction ts generalizing vs out with
  | nil =>
    cases h
    rfl
  | cons t ts ih =>
    obtain ⟨v, ws, between, rfl, -, hrest⟩ := run_trees_cons h
    rw [List.length_cons, List.length_cons, ih hrest]

end Eval

/-- No name that may be defined is the name of a builtin. -/
theorem Session.ofName?_of_checkDefinable {name : Text} (h : checkDefinable name = .ok ()) :
    Builtin.ofName? name = none := by
  unfold checkDefinable at h
  split at h
  · cases h
  · split at h
    · cases h
    · rename_i hreserved
      simp only [isReserved, Bool.or_eq_true, not_or, Bool.not_eq_true, Option.isSome_eq_false_iff,
        Option.isNone_iff_eq_none] at hreserved
      exact hreserved.2

theorem Registry.Definable.lookup_builtin {α : Type} {r : Registry α} (h : r.Definable) {name : Text} {op : Builtin}
    (hname : Builtin.ofName? name = some op) : r.lookup name = none := by
  by_contra hlive
  obtain ⟨slot, hslot⟩ := Option.ne_none_iff_exists'.mp hlive
  rw [Session.ofName?_of_checkDefinable (h.lookup hslot)] at hname
  cases hname

namespace Session
variable {deleted : Deleted} {units : UnitTable} {config : Config} {s : Session}

/-- No function has the name of a builtin. -/
private theorem Later.lookup_builtin (hs : Later deleted { env := { units, config } } s) {name : Text} {op : Builtin}
    (hname : Builtin.ofName? name = some op) : s.env.functions.lookup name = none := by
  have hnew : Environment.Exact { units, config } := ⟨.empty, .empty⟩
  have hregistered : s.env.Registered :=
    (hs.invariant (fun _ _ _ he hedit => hedit.registered he) hnew (Environment.registered_new units config)).2
  exact hregistered.functions.lookup_builtin hname

/-- In every session, whatever requests and scripts it has carried out, and at every depth of calls: when all arguments
have values, a builtin that accepts so many of them and that is called by its name through `run`, or through any number
of calls of `run` by its own name, gives the same value as when it is called itself and prints the same lines, or it
fails with the same error. A function that a name is given to does the same in every respect, whether the arguments
have values or not, and whether they are as many as its parameters or not. -/
theorem Later.late_calls_agree (hs : Later deleted { env := { units, config } } s) {m : Eval.Machine}
    (hm : m.env = s.env) (frame : Frame) (args : List Tree) (depth : Nat) :
    (∀ name op, Builtin.ofName? name = some op → op.arity.accepts args.length → ∀ out vs,
      ((Eval.trees m frame args).run.run out).1 = .ok vs →
      let direct := (Eval.tree m frame (.builtin op args)).run.run out
      let late := (Eval.tree m frame (.runByName depth name args)).run.run out
      direct.1 = late.1 ∧ ∀ v, direct.1 = .ok v → direct.2 = late.2) ∧
    ∀ name id f, s.env.functions.entry? id = some (name, f) →
      Eval.tree m frame (.call id args) = Eval.tree m frame (.runByName depth name args) := by
  have hname : Builtin.ofName? Builtin.run.name = some .run := by decide
  have hrun : m.env.functions.lookup Builtin.run.name = none := hm ▸ hs.lookup_builtin hname
  constructor
  · intro name op hname hcount out vs hvalues
    have hfree : m.env.functions.lookup name = none := hm ▸ hs.lookup_builtin hname
    cases htrees : (Eval.trees m frame args).run.run out with
    | mk result after =>
      rw [htrees] at hvalues
      obtain rfl : result = .ok vs := hvalues
      have hlate : (Eval.tree m frame (.runByName depth name args)).run.run out =
          (do
            Eval.ofExcept (Eval.checkKinds op 0 vs)
            Eval.apply m op vs : Eval Value).run.run after := by
        rw [Eval.tree_runByName hrun, run_bind, htrees]
        simp only
        rw [Eval.apply_run_builtin hfree hname (by rw [Eval.length_trees htrees]; exact hcount)]
      simp only [hlate, Eval.tree, run_bind]
      cases hkinds : Eval.checkKinds op 0 vs with
      | ok _ =>
        rw [Eval.run_checkedArgs_ok htrees hkinds]
        exact ⟨rfl, fun _ _ => rfl⟩
      | error e =>
        have hdirect := Eval.run_checkedArgs_error htrees hkinds
        rw [hdirect]
        exact ⟨rfl, fun _ hv => by cases hv⟩
  · intro name id f hentry
    have hlookup : m.env.functions.lookup name = some id := by
      rw [hm]
      exact ((hs.exact ⟨.empty, .empty⟩).functions.lookup_iff name id).mpr (Registry.name?_eq_some_iff.mpr ⟨f, hentry⟩)
    rw [Eval.tree_runByName hrun, Eval.tree]
    simp only [Eval.apply_run_function hlookup]

/-- The length of a string and a function of one parameter, each by two calls of `run` more than it takes. -/
theorem late_calls_agree_of_detours :
    let arg : Tree := .literal (.string "ab".toList)
    ∃ s f, Later .any {} s ∧ s.env.functions.entry? 0 = some (['f'], f) ∧
      (let direct := (Eval.tree s.env.machine .empty (.builtin .length [arg])).run.run #[]
       let late := (Eval.tree s.env.machine .empty (.runByName 2 "length".toList [arg])).run.run #[]
       direct.1 = late.1 ∧ ∀ v, direct.1 = .ok v → direct.2 = late.2) ∧
      Eval.tree s.env.machine .empty (.call 0 [arg]) = Eval.tree s.env.machine .empty (.runByName 2 ['f'] [arg]) := by
  intro arg
  let define : Request := .defineFunction ['f'] [['x']] ['x']
  have hdefine : ∃ f, (define.perform.run.run {}).2.env.functions.entry? 0 = some (['f'], f) := by
    unfold define Request.perform defineFunction parseBody parseExpression
    exact ⟨_, by with_unfolding_all rfl⟩
  have hlater : Later .any {} (define.perform.run.run {}).2 := .request .refl define trivial
  generalize (define.perform.run.run {}).2 = s at hdefine hlater
  obtain ⟨f, hentry⟩ := hdefine
  have hvalues : ((Eval.trees s.env.machine .empty [arg]).run.run #[]).1 = .ok [.string "ab".toList] := rfl
  obtain ⟨hbuiltin, hfunction⟩ := hlater.late_calls_agree (m := s.env.machine) rfl .empty [arg] 2
  exact ⟨s, f, hlater, hentry, hbuiltin _ .length (by decide) rfl #[] _ hvalues, hfunction _ 0 f hentry⟩

end Session
end Reckoner
