import Reckoner.Eval.Block
import Reckoner.Proofs.Outcome

/-! The limit on the rounds of a loop. It only cuts evaluations off: what does not run into it comes to the same
under every larger limit, and no loop runs its body more often than the limit says. -/
namespace Reckoner

def Environment.withLoopLimit (env : Environment) (limit : Nat) : Environment :=
  { env with config := { env.config with maxLoopRounds := limit } }

namespace Eval

/-- Unless the first computation is cut off at the limit, the second one does the same. -/
def Outlasts {α : Type} (limit : Nat) (x y : Eval α) : Prop :=
  ∀ out, (x.run.run out).1 = .error (.infiniteLoop limit) ∨ y.run.run out = x.run.run out

namespace Outlasts
variable {α β : Type} {limit : Nat} {x y : Eval α} {f g : α → Eval β}

private theorem refl (x : Eval α) : Outlasts limit x x := fun _ => .inr rfl

private theorem cut (y : Eval α) : Outlasts limit (throw (.infiniteLoop limit)) y := fun _ => .inl rfl

private theorem bind (hx : Outlasts limit x y) (hf : ∀ a, Outlasts limit (f a) (g a)) :
    Outlasts limit (x >>= f) (y >>= g) := by
  intro out
  rw [run_bind, run_bind]
  rcases hx out with hcut | hsame
  · rw [hcut]
    exact .inl rfl
  · rw [hsame]
    cases (x.run.run out).1 with
    | ok a => exact hf a _
    | error e => exact .inr rfl

private theorem ite {c : Prop} [Decidable c] {x' y' : Eval α} (h : Outlasts limit x y) (h' : Outlasts limit x' y') :
    Outlasts limit (if c then x else x') (if c then y else y') := by
  by_cases hc : c
  · rw [if_pos hc, if_pos hc]
    exact h
  · rw [if_neg hc, if_neg hc]
    exact h'

end Outlasts

/-- The second machine differs from the first one in that its loops may run more rounds, and the bodies of
functions outlast those of the first. -/
structure Machine.Relaxes (limit : Nat) (m m' : Machine) : Prop where
  env : m'.env = m.env.withLoopLimit m'.env.config.maxLoopRounds
  limit_eq : m.env.config.maxLoopRounds = limit
  le : limit ≤ m'.env.config.maxLoopRounds
  primitive : m'.primitive = m.primitive
  invoke (code : Block) (args : List Value) : Outlasts limit (m.invoke code args) (m'.invoke code args)

namespace Machine.Relaxes
variable {limit : Nat} {m m' : Machine}

private theorem functions (h : m.Relaxes limit m') : m'.env.functions = m.env.functions := by
  rw [h.env]
  rfl

private theorem globals (h : m.Relaxes limit m') : m'.env.globals = m.env.globals := by
  rw [h.env]
  rfl

private theorem maxVectorCells (h : m.Relaxes limit m') :
    m'.env.config.maxVectorCells = m.env.config.maxVectorCells := by
  rw [h.env]
  rfl

private theorem format (h : m.Relaxes limit m') (v : Value) : m'.env.format v = m.env.format v := by
  rw [h.env]
  rfl

end Machine.Relaxes

section
variable {limit : Nat} {m m' : Machine} (h : m.Relaxes limit m')
include h

private theorem callFunction_outlasts (id : Nat) (args : List Value) :
    Outlasts limit (callFunction m id args) (callFunction m' id args) := by
  unfold callFunction
  rw [h.functions]
  cases m.env.functions.entry? id with
  | none => exact .refl _
  | some entry => exact .ite (h.invoke entry.2.body args) (.refl _)

private theorem callLambda_outlasts (f : Lambda) (captured args : List Value) :
    Outlasts limit (callLambda m f captured args) (callLambda m' f captured args) :=
  .ite (h.invoke f.body (args ++ captured)) (.refl _)

private theorem primitive_outlasts (op : Builtin) (args : List Value) :
    Outlasts limit (ofExcept (m.primitive op args)) (ofExcept (m'.primitive op args)) := by
  rw [h.primitive]
  exact .refl _

private theorem apply_outlasts (op : Builtin) (args : List Value) :
    Outlasts limit (apply m op args) (apply m' op args) := by
  -- a builtin that `run` is given by name takes one argument less
  induction args generalizing op with
  | nil =>
    unfold apply
    split
    · exact .refl _
    all_goals first | contradiction | exact primitive_outlasts h _ _
  | cons v args ih =>
    unfold apply
    split
    · contradiction
    · rename_i hargs
      obtain ⟨rfl, rfl⟩ := List.cons.inj hargs
      exact callLambda_outlasts h _ _ _
    · rename_i hargs
      obtain ⟨rfl, rfl⟩ := List.cons.inj hargs
      rw [h.functions]
      split
      · exact callFunction_outlasts h _ _
      · split
        · exact .refl _
        · exact .ite ((Outlasts.refl _).bind fun _ => ih _) (.refl _)
    · exact .refl _
    · rw [h.format]
      exact .refl _
    · exact primitive_outlasts h _ _

end

section
variable {limit : Nat} {m m' : Machine}

mutual

private theorem tree_outlasts (h : m.Relaxes limit m') (frame : Frame) :
    (t : Tree) → Outlasts limit (tree m frame t) (tree m' frame t)
  | .literal _ | .argument _ | .localVariable _ | .function _ _ => by
    unfold tree
    exact .refl _
  | .globalVariable index => by
    unfold tree
    rw [h.globals]
    exact .refl _
  | .builtin op args => by
    unfold tree
    exact (checkedArgs_outlasts h frame op 0 args).bind fun vs => apply_outlasts h op vs
  | .call id args => by
    unfold tree
    exact (trees_outlasts h frame args).bind fun vs => callFunction_outlasts h id vs
  | .vector width height ts => by
    unfold tree
    rw [h.maxVectorCells]
    exact (Outlasts.refl _).bind fun _ => (cells_outlasts h frame 1 ts).bind fun _ => .refl _

theorem trees_outlasts (h : m.Relaxes limit m') (frame : Frame) : (ts : List Tree) →
    Outlasts limit (trees m frame ts) (trees m' frame ts)
  | [] => .refl _
  | t :: ts => by
    unfold trees
    exact (tree_outlasts h frame t).bind fun _ => (trees_outlasts h frame ts).bind fun _ => .refl _

theorem checkedArgs_outlasts (h : m.Relaxes limit m') (frame : Frame) (op : Builtin) (position : Nat) : (ts : List Tree) →
    Outlasts limit (checkedArgs m frame op position ts) (checkedArgs m' frame op position ts)
  | [] => .refl _
  | t :: ts => by
    unfold checkedArgs
    refine (tree_outlasts h frame t).bind fun _ => (Outlasts.refl _).bind fun _ => ?_
    exact (checkedArgs_outlasts h frame op (position + 1) ts).bind fun _ => .refl _

theorem cells_outlasts (h : m.Relaxes limit m') (frame : Frame) (position : Nat) : (ts : List Tree) →
    Outlasts limit (cells m frame position ts) (cells m' frame position ts)
  | [] => .refl _
  | t :: ts => by
    unfold cells
    refine (tree_outlasts h frame t).bind fun _ => (Outlasts.refl _).bind fun _ => ?_
    exact (cells_outlasts h frame (position + 1) ts).bind fun _ => .refl _

end

end

/-- More rounds outlast fewer. -/
private theorem loop_outlasts {limit limit' : Nat} {condition condition' : Frame → Eval Bool}
    {body body' : Frame → Eval (Flow × Frame)} (hc : ∀ frame, Outlasts limit (condition frame) (condition' frame))
    (hb : ∀ frame, Outlasts limit (body frame) (body' frame)) {rounds rounds' : Nat} (hr : rounds ≤ rounds')
    (frame : Frame) :
    Outlasts limit (loop limit condition body rounds frame) (loop limit' condition' body' rounds' frame) := by
  induction rounds generalizing rounds' frame with
  | zero =>
    -- where the condition still holds, the first loop is cut off
    cases rounds' <;> unfold loop <;> refine (hc frame).bind fun holds => ?_
    all_goals cases holds with
      | true => exact .cut _
      | false => exact .refl _
  | succ rounds ih =>
    cases rounds' with
    | zero => exact absurd hr (Nat.not_succ_le_zero _)
    | succ rounds' =>
      unfold loop
      refine (hc frame).bind fun holds => .ite ((hb frame).bind fun r => ?_) (.refl _)
      obtain ⟨flow, next⟩ := r
      cases flow with
      | giveBack v | leaveLoop => exact .refl _
      | next | nextRound => exact ih (Nat.le_of_succ_le_succ hr) next

section
variable {limit : Nat} {m m' : Machine}

mutual

private theorem block_outlasts (h : m.Relaxes limit m') (frame : Frame) : (b : Block) →
    Outlasts limit (block m frame b) (block m' frame b)
  | ⟨list, _, _, _⟩ => by
    unfold block
    exact actions_outlasts h false frame list

theorem actions_outlasts (h : m.Relaxes limit m') (taken : Bool) (frame : Frame) : (list : List Action) →
    Outlasts limit (actions m taken frame list) (actions m' taken frame list)
  | [] => .refl _
  | first :: rest => by
    unfold actions
    refine (action_outlasts h taken frame first).bind fun r => ?_
    obtain ⟨flow, taken, next⟩ := r
    cases flow with
    | next => exact actions_outlasts h taken next rest
    | giveBack v | leaveLoop | nextRound => exact .refl _

theorem action_outlasts (h : m.Relaxes limit m') (taken : Bool) (frame : Frame) : (a : Action) →
    Outlasts limit (action m taken frame a) (action m' taken frame a)
  | .compute t | .giveBack t | .assign _ t => by
    unfold action
    exact (tree_outlasts h frame t).bind fun _ => .refl _
  | .when condition code => by
    unfold action
    refine (tree_outlasts h frame condition).bind fun v => .ite ?_ (.refl _)
    exact (block_outlasts h frame code).bind fun _ => .refl _
  | .otherwise code => by
    unfold action
    exact .ite (.refl _) ((block_outlasts h frame code).bind fun _ => .refl _)
  | .loop condition code => by
    have hcondition (frame : Frame) :=
      (tree_outlasts h frame condition).bind (f := fun v => return v.truthy) fun _ => .refl _
    unfold action
    rw [h.limit_eq]
    exact (loop_outlasts hcondition (fun frame => block_outlasts h frame code) h.le frame).bind fun _ => .refl _
  | .leaveLoop | .nextRound => .refl _

end

private theorem wholeBlock_outlasts (h : m.Relaxes limit m') (code : Block) (args : List Value) :
    Outlasts limit (wholeBlock m code args) (wholeBlock m' code args) := by
  unfold wholeBlock
  exact (block_outlasts h _ code).bind fun _ => .refl _

end

/-- Nothing that evaluation rests on hangs on the limit but the loops. -/
private theorem body_relaxes (env : Environment) {limit limit' : Nat} (hl : limit ≤ limit') (primitive : Primitive)
    (depth : Nat) :
    Machine.Relaxes limit ⟨env.withLoopLimit limit, primitive, body (env.withLoopLimit limit) primitive depth⟩
      ⟨env.withLoopLimit limit', primitive, body (env.withLoopLimit limit') primitive depth⟩ := by
  induction depth with
  | zero => exact ⟨rfl, rfl, hl, rfl, fun _ _ => .refl _⟩
  | succ depth ih =>
    refine ⟨rfl, rfl, hl, rfl, fun code args => ?_⟩
    unfold body
    cases code.singleReturn? with
    | some t => exact tree_outlasts ih _ t
    | none => exact wholeBlock_outlasts ih code args

section
variable (condition : Frame → Eval Bool) (body : Frame → Eval (Flow × Frame))

/-- So many rounds lead from the first frame and output to the second. Behind each the condition is looked at
again. -/
inductive Rounds : Nat → Frame × Output → Frame × Output → Prop
  | none {s : Frame × Output} : Rounds 0 s s
  | next {n : Nat} {frame next : Frame} {out between out' : Output} {flow : Flow} {t : Frame × Output} :
    (condition frame).run.run out = (.ok true, between) →
    (body frame).run.run between = (.ok (flow, next), out') → flow = .next ∨ flow = .nextRound →
    Rounds n (next, out') t → Rounds (n + 1) (frame, out) t

/-- How a loop ends where it looks at its condition, and whether its body runs once more for that. -/
inductive EndsLoop : Frame × Output → Nat → Except RuntimeError (Flow × Frame) × Output → Prop
  | conditionFails {frame : Frame} {out out' : Output} {e : RuntimeError} :
    (condition frame).run.run out = (.error e, out') → EndsLoop (frame, out) 0 (.error e, out')
  | done {frame : Frame} {out out' : Output} :
    (condition frame).run.run out = (.ok false, out') → EndsLoop (frame, out) 0 (.ok (.next, frame), out')
  | bodyFails {frame : Frame} {out between out' : Output} {e : RuntimeError} :
    (condition frame).run.run out = (.ok true, between) → (body frame).run.run between = (.error e, out') →
    EndsLoop (frame, out) 1 (.error e, out')
  | givesBack {frame next : Frame} {out between out' : Output} {v : Value} :
    (condition frame).run.run out = (.ok true, between) →
    (body frame).run.run between = (.ok (.giveBack v, next), out') →
    EndsLoop (frame, out) 1 (.ok (.giveBack v, next), out')
  | leaves {frame next : Frame} {out between out' : Output} :
    (condition frame).run.run out = (.ok true, between) →
    (body frame).run.run between = (.ok (.leaveLoop, next), out') →
    EndsLoop (frame, out) 1 (.ok (.next, next), out')

/-- What a loop comes to: it ends after at most `rounds` runs of its body, or its condition still holds behind so
many and it is cut off. -/
inductive ComesTo (limit rounds : Nat) (s : Frame × Output) : Except RuntimeError (Flow × Frame) × Output → Prop
  | ended {n k : Nat} {t : Frame × Output} {r : Except RuntimeError (Flow × Frame) × Output} :
    Rounds condition body n s t → EndsLoop condition body t k r → n + k ≤ rounds → ComesTo limit rounds s r
  | cutOff {frame : Frame} {out out' : Output} :
    Rounds condition body rounds s (frame, out) → (condition frame).run.run out = (.ok true, out') →
    ComesTo limit rounds s (.error (.infiniteLoop limit), out')

end

section
variable {condition : Frame → Eval Bool} {body : Frame → Eval (Flow × Frame)} {limit : Nat}

/-- Where the condition holds, the body runs, and what it ends with tells how the loop goes on. -/
private theorem loop_again {rounds : Nat} {frame : Frame} {out between : Output}
    (hc : (condition frame).run.run out = (.ok true, between)) :
    (loop limit condition body (rounds + 1) frame).run.run out =
      match (body frame).run.run between with
      | (.error e, out') => (.error e, out')
      | (.ok (.giveBack v, next), out') => (.ok (.giveBack v, next), out')
      | (.ok (.leaveLoop, next), out') => (.ok (.next, next), out')
      | (.ok (.next, next), out') => (loop limit condition body rounds next).run.run out'
      | (.ok (.nextRound, next), out') => (loop limit condition body rounds next).run.run out' := by
  rw [loop, run_bind, hc]
  simp only [if_true]
  rw [run_bind]
  rcases (body frame).run.run between with ⟨_ | ⟨_ | _ | _ | _, next⟩, out'⟩ <;> rfl

private theorem loop_rounds {n : Nat} {s t : Frame × Output} (h : Rounds condition body n s t) (rounds : Nat) :
    (loop limit condition body (n + rounds) s.1).run.run s.2 =
      (loop limit condition body rounds t.1).run.run t.2 := by
  induction h with
  | none => rw [Nat.zero_add]
  | next hc hb hflow _ ih =>
    rw [← ih, Nat.add_right_comm, loop_again hc, hb]
    rcases hflow with rfl | rfl <;> rfl

private theorem loop_ends {k : Nat} {s : Frame × Output} {r : Except RuntimeError (Flow × Frame) × Output}
    (h : EndsLoop condition body s k r) (rounds : Nat) :
    (loop limit condition body (k + rounds) s.1).run.run s.2 = r := by
  cases h with
  | conditionFails hc | done hc =>
    rw [Nat.zero_add]
    cases rounds <;> rw [loop, run_bind, hc] <;> rfl
  | bodyFails hc hb | givesBack hc hb | leaves hc hb => rw [Nat.add_comm, loop_again hc, hb]

/-- A loop with one round more does one round first. -/
private theorem ComesTo.round {rounds : Nat} {frame next : Frame} {out between out' : Output} {flow : Flow}
    {r : Except RuntimeError (Flow × Frame) × Output} (hc : (condition frame).run.run out = (.ok true, between))
    (hb : (body frame).run.run between = (.ok (flow, next), out')) (hflow : flow = .next ∨ flow = .nextRound)
    (h : ComesTo condition body limit rounds (next, out') r) :
    ComesTo condition body limit (rounds + 1) (frame, out) r := by
  cases h with
  | ended hrounds hends hle => exact .ended (.next hc hb hflow hrounds) hends (by omega)
  | cutOff hrounds hholds => exact .cutOff (.next hc hb hflow hrounds) hholds

private theorem loop_comesTo (rounds : Nat) (frame : Frame) (out : Output) :
    ComesTo condition body limit rounds (frame, out) ((loop limit condition body rounds frame).run.run out) := by
  induction rounds generalizing frame out with
  | zero =>
    rcases hc : (condition frame).run.run out with ⟨_ | _ | _, between⟩ <;> rw [loop, run_bind, hc]
    · exact .ended .none (.conditionFails hc) (Nat.le_refl 0)
    · exact .ended .none (.done hc) (Nat.le_refl 0)
    · exact .cutOff .none hc
  | succ rounds ih =>
    rcases hc : (condition frame).run.run out with ⟨_ | _ | _, between⟩
    · rw [loop, run_bind, hc]
      exact .ended .none (.conditionFails hc) (Nat.zero_le _)
    · rw [loop, run_bind, hc]
      exact .ended .none (.done hc) (Nat.zero_le _)
    · rw [loop_again hc]
      rcases hb : (body frame).run.run between with ⟨_ | ⟨flow, next⟩, out'⟩
      · exact .ended .none (.bodyFails hc hb) (Nat.le_add_left 1 rounds)
      · cases flow with
        | giveBack v => exact .ended .none (.givesBack hc hb) (Nat.le_add_left 1 rounds)
        | leaveLoop => exact .ended .none (.leaves hc hb) (Nat.le_add_left 1 rounds)
        | next => exact (ih next out').round hc hb (.inl rfl)
        | nextRound => exact (ih next out').round hc hb (.inr rfl)

/-- A loop does what its rounds and its end come to, and nothing else. -/
private theorem loop_eq_iff {rounds : Nat} {frame : Frame} {out : Output}
    {r : Except RuntimeError (Flow × Frame) × Output} :
    (loop limit condition body rounds frame).run.run out = r ↔
      ComesTo condition body limit rounds (frame, out) r := by
  refine ⟨fun h => h ▸ loop_comesTo rounds frame out, fun h => ?_⟩
  cases h with
  | @ended n k t _ hrounds hends hle =>
    obtain ⟨rest, rfl⟩ := Nat.exists_eq_add_of_le hle
    rw [Nat.add_assoc]
    exact (loop_rounds hrounds _).trans (loop_ends hends rest)
  | cutOff hrounds hholds =>
    refine (loop_rounds hrounds 0).trans ?_
    rw [loop, run_bind, hholds]
    rfl

end

/-- A statement is a loop of its condition and its body, and keeps what the last `if` found. -/
private theorem run_action_loop (m : Machine) (taken : Bool) (frame : Frame) (condition : Tree) (code : Block)
    (out : Output) :
    let outcome := (loop m.env.config.maxLoopRounds (fun frame => Value.truthy <$> tree m frame condition)
      (fun frame => block m frame code) m.env.config.maxLoopRounds frame).run.run out
    (action m taken frame (.loop condition code)).run.run out =
      (outcome.1.map fun (flow, next) => (flow, taken, next), outcome.2) := by
  have hcondition : (fun frame => Value.truthy <$> tree m frame condition) =
      fun frame => do return (← tree m frame condition).truthy :=
    funext fun frame => map_eq_pure_bind _ _
  unfold action
  simp only
  rw [run_bind, hcondition]
  rcases (loop _ _ _ _ frame).run.run out with ⟨_ | r, out'⟩ <;> rfl

/-- The limit on the rounds of loops only cuts evaluations off. What does not run into it comes to the same under
every larger limit and prints the same. A loop comes to what it would come to without a limit, as long as its body
runs at most so many times for that; behind so many rounds it is cut off only if its condition still holds. -/
theorem loop_limit_cuts_off (env : Environment) {limit limit' : Nat} (hl : limit ≤ limit') :
    (∀ frame t out r, ((env.withLoopLimit limit).evaluate frame t).run.run out = r →
      r.1 ≠ .error (.infiniteLoop limit) → ((env.withLoopLimit limit').evaluate frame t).run.run out = r) ∧
    ∀ m : Machine, m.env = env.withLoopLimit limit → ∀ taken frame condition code out result out',
      (action m taken frame (.loop condition code)).run.run out =
          (result.map fun (flow, next) => (flow, taken, next), out') ↔
        ComesTo (fun frame => Value.truthy <$> tree m frame condition) (fun frame => block m frame code) limit limit
          (frame, out) (result, out') := by
  constructor
  · rintro frame t out r rfl hcut
    have hbody := body_relaxes env hl (Value.applyBuiltin env.config) env.config.maxCallDepth
    exact (tree_outlasts hbody frame t out).resolve_left hcut
  · intro m hm taken frame condition code out result out'
    have hlimit : m.env.config.maxLoopRounds = limit := by rw [hm]; rfl
    rw [← loop_eq_iff, run_action_loop, hlimit, Prod.ext_iff, Prod.ext_iff]
    have hinjective : Function.Injective fun r : Except RuntimeError (Flow × Frame) =>
        r.map fun r => (r.1, taken, r.2) := by
      rintro (_ | ⟨flow, next⟩) (_ | ⟨flow', next'⟩) h <;> simp_all [Except.map]
    exact and_congr_left fun _ => hinjective.eq_iff

/-- A loop that needs two rounds, under limits of two and of five. -/
theorem loop_limit_cuts_off_beyond_need :
    let turn : Block := ⟨[.assign (.argument 0) (.argument 1), .assign (.argument 1) (.literal (.string []))], [], 0, 0⟩
    let code : Block := ⟨[.loop (.argument 0) turn, .giveBack (.argument 1)], [], 0, 0⟩
    let t : Tree := .builtin .run [.function ⟨0, [['x'], ['y']], code⟩ 0, .literal (.string ['a']),
      .literal (.string ['b'])]
    let env : Environment := {}
    let m := (env.withLoopLimit 2).machine
    2 ≤ 5 ∧ ((env.withLoopLimit 2).evaluate .empty t).run.run #[] = (.ok (.string []), #[]) ∧
      ((env.withLoopLimit 5).evaluate .empty t).run.run #[] = (.ok (.string []), #[]) ∧
      ComesTo (fun frame => Value.truthy <$> tree m frame (.argument 0)) (fun frame => block m frame turn) 2 2
        (⟨[.string ['a'], .string ['b']], []⟩, #[]) (.ok (.next, ⟨[.string [], .string []], []⟩), #[]) := by
  intro turn code t env m
  have htwo : ((env.withLoopLimit 2).evaluate .empty t).run.run #[] = (.ok (.string []), #[]) := by
    with_unfolding_all rfl
  have hrun : (action m false ⟨[.string ['a'], .string ['b']], []⟩ (.loop (.argument 0) turn)).run.run #[] =
      (.ok (.next, false, ⟨[.string [], .string []], []⟩), #[]) := by
    with_unfolding_all rfl
  have hlimit := loop_limit_cuts_off env (show 2 ≤ 5 by decide)
  exact ⟨by decide, htwo, hlimit.1 .empty t #[] _ htwo nofun, (hlimit.2 m rfl _ _ _ _ _ (.ok _) _).mp hrun⟩

end Eval
end Reckoner
