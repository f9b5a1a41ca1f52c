import Reckoner.Proofs.Scoping.Eval

/-! Running scoped blocks and calling functions with scoped bodies: no slot is missing, and no `break` or
`continue` leaves its function body. -/
namespace Reckoner

def Flow.Fits (inLoop : Bool) : Flow → Prop
  | .next => True
  | .giveBack v => v.Sound
  | .leaveLoop | .nextRound => inLoop

private theorem Flow.Fits.of_false {flow : Flow} (inLoop : Bool) (h : flow.Fits false) : flow.Fits inLoop := by
  cases flow with
  | next => trivial
  | giveBack v => exact h
  | leaveLoop | nextRound => exact absurd h Bool.false_ne_true

def Target.Exists (args room : Nat) : Target → Prop
  | .argument index => index < args
  | .localVariable slot => slot < room

namespace Frame.Fits
variable {frame : Frame} {args room : Nat}

private theorem assign {target : Target} {v : Value} (hf : frame.Fits args room) (hv : v.Sound)
    (ht : target.Exists args room) :
    ∃ next, frame.assign target v = .ok next ∧ next.Fits args room := by
  cases target with
  | argument index =>
    refine ⟨_, if_pos (hf.arguments.symm ▸ ht), by simp [hf.arguments], hf.locals, fun w hw => ?_⟩
    rcases List.mem_append.mp hw with hw | hw
    · rcases List.mem_or_eq_of_mem_set hw with hw | rfl
      · exact hf.sound w (List.mem_append_left _ hw)
      · exact hv
    · exact hf.sound w (List.mem_append_right _ hw)
  | localVariable slot =>
    refine ⟨_, if_pos (hf.locals.symm ▸ ht), hf.arguments, by simp [hf.locals], fun w hw => ?_⟩
    rcases List.mem_append.mp hw with hw | hw
    · exact hf.sound w (List.mem_append_left _ hw)
    · rcases List.mem_or_eq_of_mem_set hw with hw | rfl
      · exact hf.sound w (List.mem_append_right _ hw)
      · exact hv

end Frame.Fits

/-- The target of an assignment exists in every frame with room for the scope behind it. -/
private theorem Scope.Assigns.exists {s s' : Scope} {name : Text} {target : Target} (h : s.Assigns name target s')
    (hs : s.locals.length ≤ s.frameSize) {room : Nat} (hr : s'.frameSize ≤ room) :
    target.Exists s.params.length room := by
  cases h with
  | argument h => exact argument?_lt h
  | localVariable _ h => exact Nat.lt_of_lt_of_le (local?_lt h) (Nat.le_trans hs hr)
  | declared =>
    have hlen : s.locals.length + 1 ≤ (s.declare name).2.frameSize := by
      simp only [declare, List.length_append, List.length_singleton]
      exact Nat.le_max_right s.frameSize _
    exact Nat.le_trans hlen hr

namespace Eval
variable {m m' : Machine}

private theorem loop_sure {args room limit : Nat} {condition condition' : Frame → Eval Bool}
    {body body' : Frame → Eval (Flow × Frame)}
    (hc : ∀ frame : Frame, frame.Fits args room → Sure (condition frame) (condition' frame) fun _ => True)
    (hb : ∀ frame : Frame, frame.Fits args room →
      Sure (body frame) (body' frame) fun r => r.1.Fits true ∧ r.2.Fits args room)
    (rounds : Nat) {frame : Frame} (hf : frame.Fits args room) :
    Sure (loop limit condition body rounds frame) (loop limit condition' body' rounds frame)
      fun r => r.1.Fits false ∧ r.2.Fits args room := by
  induction rounds generalizing frame with
  | zero =>
    unfold loop
    refine (hc frame hf).bind fun holds _ => ?_
    cases holds with
    | true => exact .throw rfl
    | false => exact .pure ⟨trivial, hf⟩
  | succ rounds ih =>
    unfold loop
    refine (hc frame hf).bind fun holds _ => ?_
    cases holds with
    | true =>
      refine (hb frame hf).bind fun r hr => ?_
      obtain ⟨flow, next⟩ := r
      cases flow with
      | giveBack v => exact .pure ⟨hr.1, hr.2⟩
      | leaveLoop => exact .pure ⟨trivial, hr.2⟩
      | nextRound | next => exact ih hr.2
    | false => exact .pure ⟨trivial, hf⟩

mutual

private theorem block_sure (h : m.Agrees m') {s s' : Scope} {frame : Frame} {room : Nat}
    (hs : s.locals.length ≤ s.frameSize) (hr : s'.frameSize ≤ room) (hf : frame.Fits s.params.length room) :
    (b : Block) → b.Scoped s s' → Sure (block m frame b) (block m' frame b)
      fun r => r.1.Fits s.inLoop ∧ r.2.Fits s.params.length room
  | ⟨list, _, _, _⟩, hb => by
    obtain ⟨last, ha, -, -, -, rfl⟩ := hb
    unfold block
    exact actions_sure h hs (show last.frameSize ≤ room from hr) hf false list ha

theorem actions_sure (h : m.Agrees m') {s s' : Scope} {previous : Option Action} {frame : Frame} {room : Nat}
    (hs : s.locals.length ≤ s.frameSize) (hr : s'.frameSize ≤ room) (hf : frame.Fits s.params.length room)
    (taken : Bool) : (list : List Action) → Action.AllScoped s previous list s' →
      Sure (actions m taken frame list) (actions m' taken frame list)
        fun r => r.1.Fits s.inLoop ∧ r.2.Fits s.params.length room
  | [], _ => .pure ⟨trivial, hf⟩
  | a :: rest, ha => by
    obtain ⟨-, next, ha, hrest⟩ := ha
    have hn := ha.extends
    have hl := hrest.extends
    unfold actions
    refine (action_sure h hs (Nat.le_trans hl.frameSize hr) hf taken a ha).bind fun r hr' => ?_
    obtain ⟨flow, taken', frame'⟩ := r
    cases flow with
    | next =>
      have := actions_sure h (hn.room hs) hr (hn.params ▸ hr'.2) taken' rest hrest
      rwa [hn.params, hn.inLoop] at this
    | giveBack v => exact .pure hr'
    | leaveLoop => exact .pure hr'
    | nextRound => exact .pure hr'

theorem action_sure (h : m.Agrees m') {s s' : Scope} {previous : Option Action} {frame : Frame} {room : Nat}
    (hs : s.locals.length ≤ s.frameSize) (hr : s'.frameSize ≤ room) (hf : frame.Fits s.params.length room)
    (taken : Bool) : (a : Action) → a.Scoped s previous s' →
      Sure (action m taken frame a) (action m' taken frame a)
        fun r => r.1.Fits s.inLoop ∧ r.2.2.Fits s.params.length room
  | .compute t, ha => by
    obtain ⟨ht, rfl⟩ := ha
    unfold action
    exact (tree_sure h hf (Nat.le_trans hs hr) t ht).bind fun _ _ => .pure ⟨trivial, hf⟩
  | .giveBack t, ha => by
    obtain ⟨ht, rfl⟩ := ha
    unfold action
    exact (tree_sure h hf (Nat.le_trans hs hr) t ht).bind fun _ hv => .pure ⟨hv, hf⟩
  | .assign target t, ha => by
    have he := ha.extends
    obtain ⟨ht, name, -, -, hn⟩ := ha
    unfold action
    refine (tree_sure h hf (Nat.le_trans hs (Nat.le_trans he.frameSize hr)) t ht).bind fun v hv => ?_
    obtain ⟨next, hnext, hfits⟩ := hf.assign hv (hn.exists hs hr)
    rw [hnext]
    have hok : Safe (.ok next) (· = next) := rfl
    exact (Sure.lift hok).bind fun f hf => .pure ⟨trivial, hf ▸ hfits⟩
  | .when condition body, ha => by
    have he := Block.Scoped.extends ha.2
    unfold action
    refine (tree_sure h hf (Nat.le_trans hs (Nat.le_trans he.frameSize hr)) condition ha.1).bind
      fun v _ => ?_
    split
    · exact (block_sure h hs hr hf body ha.2).bind fun _ hb => .pure hb
    · exact .pure ⟨trivial, hf⟩
  | .otherwise body, ha => by
    unfold action
    split
    · exact .pure ⟨trivial, hf⟩
    · exact (block_sure h hs hr hf body ha.2).bind fun _ hb => .pure hb
  | .loop condition body, ha => by
    have he := ha.extends
    obtain ⟨ht, inner, hb, rfl⟩ := ha
    unfold action
    rw [← h.env]
    have hc (f : Frame) (hf : f.Fits s.params.length room) :=
      (tree_sure h hf (Nat.le_trans hs (Nat.le_trans he.frameSize hr)) condition ht).bind
        fun v _ => Sure.pure (a := v.truthy) (Q := fun _ => True) trivial
    have hbody (f : Frame) (hf : f.Fits s.params.length room) :=
      block_sure (s := { s with inLoop := true }) h hs (show inner.frameSize ≤ room from hr) hf body hb
    exact (loop_sure hc hbody _ hf).bind fun r hr => .pure ⟨hr.1.of_false _, hr.2⟩
  | .leaveLoop, ha => .pure ⟨ha.1, hf⟩
  | .nextRound, ha => .pure ⟨ha.1, hf⟩

end

/-- A body runs in a frame of its own size: it gives back a value, or falls through and gives back
zero. -/
private theorem wholeBlock_sure (h : m.Agrees m') {names : List Text} {body : Block} {args : List Value}
    (hb : body.IsBody names) (hl : args.length = names.length) (ha : ∀ v ∈ args, v.Sound) :
    Sure (wholeBlock m body args) (wholeBlock m' body args) Value.Sound := by
  obtain ⟨pending, last, hb⟩ := hb
  have hsize : last.frameSize = body.frameSize := hb.frameSize_eq
  have hf : Frame.Fits ⟨args, List.replicate body.frameSize .zero⟩ names.length body.frameSize := by
    refine ⟨hl, List.length_replicate, fun v hv => ?_⟩
    rcases List.mem_append.mp hv with hv | hv
    · exact ha v hv
    · rw [List.eq_of_mem_replicate hv]
      trivial
  unfold wholeBlock
  refine (block_sure (s := .function names pending) h (Nat.le_refl 0) (Nat.le_of_eq hsize) hf body hb).bind
    fun r hr => ?_
  obtain ⟨flow, frame⟩ := r
  cases flow with
  | giveBack v => exact .pure hr.1
  | next => exact .pure trivial
  | leaveLoop | nextRound => exact absurd hr.1 (by simp [Flow.Fits, Scope.function])

/-- Nested calls to any depth. -/
theorem body_agrees {env : Environment} (he : env.Sound) {primitive primitive' : Primitive}
    (hp : ∀ op args, op.arity.accepts args.length → (∀ v ∈ args, Value.Sound v) →
      Sure (ofExcept (primitive op args)) (ofExcept (primitive' op args)) Value.Sound) (depth : Nat) :
    Machine.Agrees ⟨env, primitive, body env primitive depth⟩ ⟨env, primitive', body env primitive' depth⟩ := by
  induction depth with
  | zero => exact ⟨rfl, he, hp, fun _ _ _ _ _ _ => .throw rfl⟩
  | succ depth ih =>
    refine ⟨rfl, he, hp, fun names code args hb hl ha => ?_⟩
    simp only [body]
    cases hs : code.singleReturn? with
    | none => exact wholeBlock_sure ih hb hl ha
    | some t =>
      have hf : Frame.Fits ⟨args, []⟩ names.length 0 := ⟨hl, rfl, by simpa using ha⟩
      exact tree_sure (s := .function names none) ih hf (Nat.le_refl 0) t (hb.singleReturn hs)

end Eval
end Reckoner
