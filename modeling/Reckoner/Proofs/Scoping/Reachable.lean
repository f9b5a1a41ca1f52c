import Reckoner.Proofs.Host
import Reckoner.Proofs.Scoping.Session

/-! Static scoping is sound: in every state that an interpreter can be brought to, evaluation finds every
slot that the parser handed out. -/
namespace Reckoner

structure Host.Sound (h : Host) : Prop where
  env : h.session.env.Sound
  trees : ∀ t ∈ h.trees, t.Scoped .top
  values : ∀ v ∈ h.values, v.Sound

structure Answer.Sound (answer : Answer) : Prop where
  trees : ∀ t ∈ answer.trees, t.Scoped .top
  values : ∀ v ∈ answer.values, v.Sound

namespace Answer

private theorem sound_empty : Sound {} := ⟨nofun, nofun⟩

private theorem sound_value {v : Value} (hv : v.Sound) : Sound { values := [v] } :=
  ⟨nofun, by simpa using hv⟩

end Answer

namespace Host
variable {h : Host}

private theorem Sound.holds (hs : h.Sound) {v : Value} (hv : h.Holds v) : v.Sound := by
  rcases hv with hv | hv
  · exact hs.values v hv
  · exact Value.Plain.sound hv

/-- An allowed request keeps the environment sound, hands out scoped trees and sound values, and does not
fail with a scope fault. -/
private theorem Sound.perform (hs : h.Sound) (r : Request) (ha : r.Allowed h) :
    Session.Guards r.perform Answer.Sound := by
  cases r with
  | parse text =>
    exact (Session.parse_guards text).bind fun t ht => .pure ⟨by simpa using ht, nofun⟩
  | evaluate t =>
    exact (Session.evaluate_guards (hs.trees t ha)).bind fun v hv => .pure (Answer.sound_value hv)
  | defineFunction name params body =>
    exact (Session.defineFunction_guards name params body).bind fun _ _ => .pure Answer.sound_empty
  | defineDerivative name derived =>
    exact (Session.defineDerivative_guards name derived).bind fun _ _ => .pure Answer.sound_empty
  | deleteFunction name =>
    exact (Session.deleteFunction_guards name).bind fun _ _ => .pure Answer.sound_empty
  | setVariable name v =>
    exact (Session.setVariable_guards name (hs.holds ha)).bind fun _ _ => .pure Answer.sound_empty
  | deleteVariable name =>
    exact (Session.deleteVariable_guards name).bind fun v hv => .pure (Answer.sound_value hv)
  | execute line =>
    refine (Session.execute_guards line).bind fun shown hshown => .pure ⟨nofun, fun v hv => ?_⟩
    exact hshown v (Option.mem_toList.mp hv)
  | callFunction name args =>
    refine (Session.callFunction_guards name fun v hv => hs.holds (ha v hv)).bind fun v hv => ?_
    exact .pure (Answer.sound_value hv)
  | callLambda f captured args =>
    refine (Session.callLambda_guards (hs.holds ha.1) fun v hv => hs.holds (ha.2 v hv)).bind fun v hv => ?_
    exact .pure (Answer.sound_value hv)

private theorem Sound.after (hs : h.Sound) (r : Request) (ha : r.Allowed h) : (h.after r).Sound := by
  obtain ⟨henv, hanswer⟩ := hs.perform r ha h.session hs.env
  unfold Host.after
  rcases hr : r.perform.run.run h.session with ⟨_ | answer, session⟩
  · rw [hr] at henv
    exact ⟨henv, hs.trees, hs.values⟩
  · rw [hr] at henv hanswer
    refine ⟨henv, fun t ht => ?_, fun v hv => ?_⟩
    · exact (List.mem_append.mp ht).elim (hanswer.trees t) (hs.trees t)
    · exact (List.mem_append.mp hv).elim (hanswer.values v) (hs.values v)

theorem Reachable.sound (hr : h.Reachable) : h.Sound := by
  induction hr with
  | new units config => exact ⟨Environment.sound_new units config, nofun, nofun⟩
  | after _ r ha ih => exact ih.after r ha

/-- No request fails because of a slot that does not exist, a `break` without its loop or a vector of the
wrong shape. Nor does evaluation ever give a builtin a number of arguments that it does not accept: whatever
the builtins did with those, all results would be the same. -/
theorem Reachable.static_scoping (hr : h.Reachable) :
    (∀ r : Request, r.Allowed h → ∀ e, (r.perform.run.run h.session).1 = .error e → e.isScopeFault = false) ∧
    ∀ primitive, h.session.env.Computes primitive →
      let altered := h.session.env.machineWith primitive
      let machine := h.session.env.machine
      (∀ t ∈ h.trees, Eval.tree altered .empty t = Eval.tree machine .empty t) ∧
      (∀ id args, (∀ v ∈ args, h.Holds v) →
        Eval.callFunction altered id args = Eval.callFunction machine id args) ∧
      ∀ f captured args, h.Holds (.function f captured) → (∀ v ∈ args, h.Holds v) →
        Eval.callLambda altered f captured args = Eval.callLambda machine f captured args := by
  have hs := hr.sound
  refine ⟨fun r ha e he => ?_, fun primitive hp => ⟨fun t ht => ?_, fun id args ha => ?_, ?_⟩⟩
  · have hanswer := (hs.perform r ha h.session hs.env).2
    rw [he] at hanswer
    exact hanswer
  · exact (hs.env.evaluate_sure hp (hs.trees t ht)).1
  · exact (hs.env.call_sure hp id fun v hv => hs.holds (ha v hv)).1
  · intro f captured args hf ha
    exact (hs.env.callLambda_sure hp (hs.holds hf) fun v hv => hs.holds (ha v hv)).1

/-- A global variable keeps an anonymous function that captured a local variable: its value is there when the function is
called, and a call with too many arguments fails for another reason. -/
theorem static_scoping_of_capture :
    let define : Request := .execute "f(x) = \x7by = x; return z => z + y\x7d".toList
    let keep : Request := .execute "g = f(\"a\")".toList
    let h := ((Host.new .si {}).after define).after keep
    let outcome (r : Request) := (r.perform.run.run h.session).1
    (outcome (.execute "g(\"b\")".toList)).toOption.map (·.values.map Value.string?) = some [some "ba".toList] ∧
      ∃ e, outcome (.execute "g(\"b\",\"c\")".toList) = .error e ∧ e.isScopeFault = false := by
  intro define keep h outcome
  have hreachable : h.Reachable := .after (.after (.new .si {}) define trivial) keep trivial
  have hvalue : (outcome (.execute "g(\"b\")".toList)).toOption.map (·.values.map Value.string?) =
      some [some "ba".toList] := by
    simp only [outcome, h, define, keep, session_after, Host.new]
    unfold Request.perform Session.execute Session.evaluateText Session.parse Session.defineFunction Session.parseBody
    unfold parseBlock parseExpression parseExpression
    decide +kernel
  have hfails : (outcome (.execute "g(\"b\",\"c\")".toList)).toOption.isNone := by
    simp only [outcome, h, define, keep, session_after, Host.new]
    unfold Request.perform Session.execute Session.evaluateText Session.parse Session.defineFunction Session.parseBody
    unfold parseBlock parseExpression parseExpression
    decide +kernel
  have hscoping := (Reachable.static_scoping hreachable).1 (.execute "g(\"b\",\"c\")".toList) trivial
  refine ⟨hvalue, ?_⟩
  cases houtcome : outcome (.execute "g(\"b\",\"c\")".toList) with
  | ok answer =>
    rw [houtcome] at hfails
    cases hfails
  | error e => exact ⟨e, rfl, hscoping e houtcome⟩

end Host
end Reckoner
