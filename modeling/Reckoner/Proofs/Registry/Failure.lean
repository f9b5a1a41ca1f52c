import Reckoner.Proofs.Registry.History

/-! What fails leaves the environment as it was: a request leaves it untouched, and a script leaves it as the
lines before the failing one have made it. -/
namespace Reckoner.Session

/-- A script that fails has executed the lines before the failing one, and no line behind it. -/
private theorem executeLines_failing {hand : Value → Session → Session} {lines : List Text} {s after : Session}
    {values : List Value} {e : Failure} (h : executeLines hand lines s = ((values, some e), after)) :
    ∃ done failing rest before, lines = done ++ failing :: rest ∧
      executeLines hand done s = ((values, none), before) ∧
      (execute failing).run.run before = (.error e, after) := by
  induction lines generalizing s values with
  | nil => cases h
  | cons line rest ih =>
    unfold executeLines at h
    cases hr : (execute line).run.run s with
    | mk outcome s₁ =>
      rw [hr] at h
      cases outcome with
      | error e' =>
        obtain ⟨⟨rfl, he⟩, rfl⟩ := by simpa only [Prod.mk.injEq] using h
        obtain rfl := Option.some.inj he
        exact ⟨[], line, rest, s, rfl, rfl, hr⟩
      | ok shown =>
        cases shown with
        | none =>
          obtain ⟨done, failing, behind, before, rfl, hdone, hfail⟩ := ih h
          refine ⟨line :: done, failing, behind, before, rfl, ?_, hfail⟩
          unfold executeLines
          rw [hr]
          exact hdone
        | some v =>
          simp only at h
          cases hs : executeLines hand rest (hand v s₁) with
          | mk shown s₂ =>
            rw [hs] at h
            obtain ⟨⟨rfl, hfailure⟩, rfl⟩ := by simpa only [Prod.mk.injEq] using h
            have hrest : executeLines hand rest (hand v s₁) = ((shown.1, some e), s₂) := by
              rw [hs, ← hfailure]
            obtain ⟨done, failing, behind, before, rfl, hdone, hfail⟩ := ih hrest
            refine ⟨line :: done, failing, behind, before, rfl, ?_, hfail⟩
            unfold executeLines
            rw [hr]
            simp only
            rw [hdone]

/-- In every session, whatever requests and scripts it has carried out, a request that fails leaves the functions and the
global variables as they were, although a deletion takes the name out before it can fail. A script that fails leaves them
as they were when the lines before the failing one had been executed, in order and without a failure. -/
theorem failure_keeps_environment {units : UnitTable} {config : Config} {deleted : Deleted} {s after : Session} {e : Failure}
    (hs : Later deleted { env := { units, config } } s) :
    (∀ r : Request, r.perform.run.run s = (.error e, after) → after.env = s.env) ∧
    ∀ source, (executeScript source).run.run s = (.error e, after) →
      ∃ done failing rest values before, logicalLines source = done ++ failing :: rest ∧
        executeLines (fun _ s => s) done s = ((values, none), before) ∧
        (execute failing).run.run before = (.error e, after) ∧ after.env = before.env := by
  have hexact := hs.exact ⟨.empty, .empty⟩
  constructor
  · intro r h
    have hcommits := Request.perform_commits (r.within_any s.env) hexact s rfl
    rw [h] at hcommits
    exact hcommits
  · intro source h
    rw [run_executeScript] at h
    obtain ⟨houtcome, hlast⟩ := Prod.mk.inj h
    cases hfailure : (executeLines (fun _ s => s) (logicalLines source) s).1.2 with
    | none =>
      rw [hfailure] at houtcome
      cases houtcome
    | some e' =>
      rw [hfailure] at houtcome
      obtain rfl := Except.error.inj houtcome
      obtain ⟨done, failing, rest, before, hsource, hdone, hfail⟩ :=
        executeLines_failing (Prod.ext (Prod.ext rfl hfailure) hlast)
      have hbefore : before.env.Exact := by
        have hlines := executeLines_invariant (P := fun _ => True) (fun _ _ _ _ _ => trivial) done (linesWithin_any done s)
          hexact trivial
        rw [hdone] at hlines
        exact hlines.1
      have hcommits := execute_commits (Request.within_any before.env (.execute failing)) hbefore before rfl
      rw [hfail] at hcommits
      exact ⟨done, failing, rest, _, before, hsource, hdone, hfail, hcommits⟩

/-- The session holds a function and a global variable, and the script defines one more of each before it fails. -/
theorem failing_deletions_keep_environment :
    let script := "h(x) = x\nw = v\ndelete b\nw = 2".toList
    ∃ here : Session, Later .any {} here ∧
      here.env.functions.lookup ['f'] = some 0 ∧ here.env.globals.lookup ['v'] = some 0 ∧
      (∃ after, (Request.perform (.deleteFunction ['g'])).run.run here =
        (.error (.runtime (.unknownFunction ['g'])), after) ∧ after.env = here.env) ∧
      ∃ after done failing rest values before,
        (executeScript script).run.run here = (.error (.runtime (.unknownVariable ['b'])), after) ∧
        logicalLines script = done ++ failing :: rest ∧
        executeLines (fun _ s => s) done here = ((values, none), before) ∧
        (execute failing).run.run before = (.error (.runtime (.unknownVariable ['b'])), after) ∧
        after.env = before.env ∧
        before.env.functions.lookup ['h'] = some 1 ∧ before.env.globals.lookup ['w'] = some 1 := by
  intro script
  let f : Function := ⟨[['x']], .returning (.argument 0)⟩
  let held : Registry Value := ⟨[some (['v'], .number .one)], [(['v'], 0)]⟩
  let here : Session := { env := { functions := ⟨[some (['f'], f)], [(['f'], 0)]⟩, globals := held } }
  have hhere : Later .any {} here := by
    have hdefine : ((Request.defineFunction ['f'] [['x']] ['x']).perform.run.run {}).2 =
        { env := { functions := here.env.functions } } := by
      unfold Request.perform defineFunction parseBody parseExpression
      with_unfolding_all rfl
    have hassign : ((Request.setVariable ['v'] (.number .one)).perform.run.run
        { env := { functions := here.env.functions } }).2 = here := by with_unfolding_all rfl
    rw [← hassign, ← hdefine]
    exact .request (.request .refl (.defineFunction ..) trivial) (.setVariable ..) trivial
  -- what the first two lines of the script make of the registries
  let functions : Registry Function := ⟨[some (['f'], f), some (['h'], f)], [(['h'], 1), (['f'], 0)]⟩
  let globals : Registry Value :=
    ⟨[some (['v'], .number .one), some (['w'], .number .one)], [(['w'], 1), (['v'], 0)]⟩
  have hlines : logicalLines script = ["h(x) = x".toList, "w = v".toList, "delete b".toList, "w = 2".toList] := by
    with_unfolding_all rfl
  have hdefine : (execute "h(x) = x".toList).run.run here = (.ok none, { env := { functions, globals := held } }) := by
    unfold execute defineFunction parseBody parseExpression
    with_unfolding_all rfl
  have hassign : (execute "w = v".toList).run.run { env := { functions, globals := held } } =
      (.ok (some (.number .one)), { env := { functions, globals } }) := by
    unfold execute evaluateText parse parseExpression
    with_unfolding_all rfl
  have hdelete : (execute "delete b".toList).run.run { env := { functions, globals } } =
      (.error (.runtime (.unknownVariable ['b'])), { env := { functions, globals } }) := rfl
  have hfails : (executeScript script).run.run here =
      (.error (.runtime (.unknownVariable ['b'])), { env := { functions, globals } }) := by
    rw [run_executeScript, hlines, executeLines, hdefine]
    simp only
    rw [executeLines, hassign]
    simp only
    rw [executeLines, hdelete]
  have hkeeps (after : Session) (e : Failure) := @failure_keeps_environment .si {} .any here after e hhere
  obtain ⟨done, failing, rest, values, before, hsource, hdone, hfail, henv⟩ := (hkeeps _ _).2 script hfails
  refine ⟨here, hhere, rfl, rfl, ⟨here, rfl, (hkeeps _ _).1 (.deleteFunction ['g']) rfl⟩, ?_⟩
  exact ⟨_, done, failing, rest, values, before, hfails, hsource, hdone, hfail, henv,
    by rw [← henv]; rfl, by rw [← henv]; rfl⟩

end Reckoner.Session
