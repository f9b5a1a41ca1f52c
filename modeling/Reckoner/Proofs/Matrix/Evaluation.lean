import Reckoner.Proofs.Matrix.Elimination
import Reckoner.Proofs.Matrix.Shapes
import Reckoner.Proofs.Scoping.Session

/-! Vectors in evaluation. From functions, variables and arguments whose vectors are filled, trees and calls make no
vector that is not, so that no operation on them reads or writes by an index that is out of range. -/
namespace Reckoner

structure Environment.Shaped (env : Environment) : Prop where
  functions : env.functions.All fun f => f.body.Shaped
  globals : env.globals.All Value.Shaped

structure Frame.Shaped (frame : Frame) : Prop where
  arguments : ∀ v ∈ frame.arguments, v.Shaped
  locals : ∀ v ∈ frame.locals, v.Shaped

def Flow.Shaped : Flow → Prop
  | .giveBack v => v.Shaped
  | .next | .leaveLoop | .nextRound => True

private theorem Frame.Shaped.assign {frame next : Frame} (hf : frame.Shaped) {v : Value} (hv : v.Shaped)
    {target : Target}
    (h : frame.assign target v = .ok next) : next.Shaped := by
  have hset {values : List Value} (hvalues : ∀ w ∈ values, w.Shaped) (index : Nat) :
      ∀ w ∈ values.set index v, w.Shaped := fun w hw =>
    (List.mem_or_eq_of_mem_set hw).elim (hvalues w) fun heq => heq ▸ hv
  unfold Frame.assign at h
  split at h
  · split at h
    · cases h
      exact ⟨hset hf.arguments _, hf.locals⟩
    · cases h
  · split at h
    · cases h
      exact ⟨hf.arguments, hset hf.locals _⟩
    · cases h

namespace Eval

/-- Whatever the computation gives, if it gives a value, then one with the property. -/
abbrev Gives {α : Type} (x : Eval α) (Q : α → Prop) : Prop := Always (fun _ => True) x Q

private theorem Gives.any {α : Type} (x : Eval α) : Gives x fun _ => True := (Keeps.returned x).mono fun _ _ => trivial

structure Machine.Shaped (m : Machine) : Prop where
  env : m.env.Shaped
  primitive (op : Builtin) (args : List Value) : (∀ v ∈ args, v.Shaped) → Makes (m.primitive op args) Value.Shaped
  invoke (body : Block) (args : List Value) : body.Shaped → (∀ v ∈ args, v.Shaped) →
    Gives (m.invoke body args) Value.Shaped

variable {m : Machine}

private theorem callFunction_shaped (h : m.Shaped) (id : Nat) {args : List Value} (ha : ∀ v ∈ args, v.Shaped) :
    Gives (callFunction m id args) Value.Shaped := by
  unfold callFunction
  split
  · exact .throw trivial
  · rename_i hentry
    exact .ite (fun _ => h.invoke _ _ (h.env.functions.entry? hentry) ha) fun _ => .throw trivial

private theorem callLambda_shaped (h : m.Shaped) {f : Lambda} {captured args : List Value}
    (hf : (Value.function f captured).Shaped) (ha : ∀ v ∈ args, v.Shaped) :
    Gives (callLambda m f captured args) Value.Shaped := by
  cases f with | mk label params body => ?_
  obtain ⟨hbody, hcaptured⟩ := hf
  refine .ite (fun _ => h.invoke _ _ hbody fun v hv => ?_) fun _ => .throw trivial
  exact (List.mem_append.mp hv).elim (ha v) (Value.allShaped_iff.mp hcaptured v)

private theorem apply_shaped (h : m.Shaped) (op : Builtin) {args : List Value} (ha : ∀ v ∈ args, v.Shaped) :
    Gives (apply m op args) Value.Shaped := by
  induction args generalizing op with
  | nil =>
    unfold apply
    split
    · exact .throw trivial
    all_goals first | contradiction | exact .lift (h.primitive _ _ ha)
  | cons v args ih =>
    have hargs : ∀ w ∈ args, w.Shaped := fun w hw => ha w (List.mem_cons_of_mem _ hw)
    unfold apply
    split
    · contradiction
    · rename_i hr
      obtain ⟨rfl, rfl⟩ := List.cons.inj hr
      exact callLambda_shaped h (ha _ List.mem_cons_self) hargs
    · rename_i hr
      obtain ⟨rfl, rfl⟩ := List.cons.inj hr
      split
      · exact callFunction_shaped h _ hargs
      · split
        · exact .throw trivial
        · exact .ite (fun _ => (Gives.any _).bind fun _ _ => ih _ hargs) fun _ => .throw trivial
    · exact .throw trivial
    · rename_i hr
      obtain ⟨rfl, rfl⟩ := List.cons.inj hr
      exact (Gives.any _).bind fun _ _ => .pure (ha _ List.mem_cons_self)
    · exact .lift (h.primitive _ _ ha)

private theorem slot_shaped {values : List Value} (hvalues : ∀ v ∈ values, v.Shaped) (index : Nat) (e : RuntimeError) :
    Gives (slot values index e) Value.Shaped := by
  unfold slot
  split
  · rename_i hv
    exact .pure (hvalues _ (List.mem_of_getElem? hv))
  · exact .throw trivial

section
variable {frame : Frame}

mutual

private theorem tree_shaped (h : m.Shaped) (hf : frame.Shaped) :
    (t : Tree) → t.Shaped → Gives (tree m frame t) Value.Shaped
  | .literal v, ht => .pure ht
  | .argument index, _ => slot_shaped hf.arguments index _
  | .localVariable index, _ => slot_shaped hf.locals index _
  | .globalVariable index, _ => by
    unfold tree
    split
    · rename_i hv
      exact .pure (h.env.globals.get? hv)
    · exact .throw trivial
  | .builtin op args, ht => by
    unfold tree
    exact (checkedArgs_shaped h hf op 0 args ht).bind fun _ hvs => apply_shaped h op hvs
  | .call id args, ht => by
    unfold tree
    exact (trees_shaped h hf args ht).bind fun _ hvs => callFunction_shaped h id hvs
  | .vector width height ts, _ => by
    unfold tree
    refine (Gives.any _).bind fun _ _ => (Gives.any _).bind fun ns _ => ?_
    split
    · rename_i hm
      exact .pure (Matrix.ofCells?_wellFormed hm)
    · exact .throw trivial
  | .function ⟨_, _, body⟩ width, ht => by
    unfold tree
    refine .pure ⟨ht, Value.allShaped_iff.mpr fun v hv => ?_⟩
    exact (List.mem_append.mp (List.mem_of_mem_take hv)).elim (hf.arguments v) (hf.locals v)

theorem trees_shaped (h : m.Shaped) (hf : frame.Shaped) : (ts : List Tree) → Tree.AllShaped ts →
    Gives (trees m frame ts) fun vs => ∀ v ∈ vs, v.Shaped
  | [], _ => .pure (by simp)
  | t :: ts, ht => by
    unfold trees
    refine (tree_shaped h hf t ht.1).bind fun v hv => (trees_shaped h hf ts ht.2).bind fun vs hvs => ?_
    exact .pure (List.forall_mem_cons.mpr ⟨hv, hvs⟩)

theorem checkedArgs_shaped (h : m.Shaped) (hf : frame.Shaped) (op : Builtin) (position : Nat) :
    (ts : List Tree) → Tree.AllShaped ts → Gives (checkedArgs m frame op position ts) fun vs => ∀ v ∈ vs, v.Shaped
  | [], _ => .pure (by simp)
  | t :: ts, ht => by
    unfold checkedArgs
    refine (tree_shaped h hf t ht.1).bind fun v hv => (Gives.any _).bind fun _ _ => ?_
    refine (checkedArgs_shaped h hf op (position + 1) ts ht.2).bind fun vs hvs => ?_
    exact .pure (List.forall_mem_cons.mpr ⟨hv, hvs⟩)

end

end

private theorem loop_shaped {frame : Frame} {limit : Nat} {condition : Frame → Eval Bool}
    {body : Frame → Eval (Flow × Frame)}
    (hbody : ∀ frame : Frame, frame.Shaped → Gives (body frame) fun r => r.1.Shaped ∧ r.2.Shaped)
    (rounds : Nat) (hf : frame.Shaped) :
    Gives (loop limit condition body rounds frame) fun r => r.1.Shaped ∧ r.2.Shaped := by
  induction rounds generalizing frame with
  | zero =>
    unfold loop
    exact (Gives.any _).bind fun _ _ => .ite (fun _ => .throw trivial) fun _ => .pure ⟨trivial, hf⟩
  | succ rounds ih =>
    unfold loop
    refine (Gives.any _).bind fun _ _ => .ite (fun _ => (hbody frame hf).bind fun r hr => ?_) fun _ =>
      .pure ⟨trivial, hf⟩
    obtain ⟨flow, next⟩ := r
    cases flow with
    | giveBack v => exact .pure hr
    | leaveLoop => exact .pure ⟨trivial, hr.2⟩
    | nextRound | next => exact ih hr.2

mutual

private theorem block_shaped (h : m.Shaped) {frame : Frame} (hf : frame.Shaped) : (b : Block) → b.Shaped →
    Gives (block m frame b) fun r => r.1.Shaped ∧ r.2.Shaped
  | ⟨list, _, _, _⟩, hb => by
    unfold block
    exact actions_shaped h hf false list hb

theorem actions_shaped (h : m.Shaped) {frame : Frame} (hf : frame.Shaped) (taken : Bool) : (list : List Action) →
    Action.AllShaped list → Gives (actions m taken frame list) fun r => r.1.Shaped ∧ r.2.Shaped
  | [], _ => .pure ⟨trivial, hf⟩
  | a :: rest, ha => by
    unfold actions
    refine (action_shaped h hf taken a ha.1).bind fun r hr => ?_
    obtain ⟨flow, taken', frame'⟩ := r
    cases flow with
    | next => exact actions_shaped h hr.2 taken' rest ha.2
    | giveBack v | leaveLoop | nextRound => exact .pure hr

theorem action_shaped (h : m.Shaped) {frame : Frame} (hf : frame.Shaped) (taken : Bool) : (a : Action) → a.Shaped →
    Gives (action m taken frame a) fun r => r.1.Shaped ∧ r.2.2.Shaped
  | .compute t, ha => by
    unfold action
    exact (Gives.any _).bind fun _ _ => .pure ⟨trivial, hf⟩
  | .giveBack t, ha => by
    unfold action
    exact (tree_shaped h hf t ha).bind fun _ hv => .pure ⟨hv, hf⟩
  | .assign target t, ha => by
    unfold action
    refine (tree_shaped h hf t ha).bind fun v hv => ?_
    have hassign : Makes (frame.assign target v) Frame.Shaped := by
      cases hnext : frame.assign target v with
      | error e => trivial
      | ok next => exact hf.assign hv hnext
    exact (Keeps.lift hassign).bind fun _ hnext => .pure ⟨trivial, hnext⟩
  | .when condition body, ha => by
    unfold action
    refine (Gives.any _).bind fun _ _ => .ite (fun _ => ?_) fun _ => .pure ⟨trivial, hf⟩
    exact (block_shaped h hf body ha.2).bind fun _ hr => .pure hr
  | .otherwise body, ha => by
    unfold action
    refine .ite (fun _ => .pure ⟨trivial, hf⟩) fun _ => ?_
    exact (block_shaped h hf body ha).bind fun _ hr => .pure hr
  | .loop condition body, ha => by
    unfold action
    exact (loop_shaped (fun _ hf => block_shaped h hf body ha.2) _ hf).bind fun _ hr => .pure hr
  | .leaveLoop, _ => .pure ⟨trivial, hf⟩
  | .nextRound, _ => .pure ⟨trivial, hf⟩

end

private theorem wholeBlock_shaped (h : m.Shaped) {body : Block} (hb : body.Shaped) {args : List Value}
    (ha : ∀ v ∈ args, v.Shaped) : Gives (wholeBlock m body args) Value.Shaped := by
  have hlocals (v : Value) (hv : v ∈ List.replicate body.frameSize Value.zero) : v.Shaped := by
    rw [List.eq_of_mem_replicate hv]
    trivial
  unfold wholeBlock
  refine (block_shaped h ⟨ha, hlocals⟩ body hb).bind fun r hr => ?_
  obtain ⟨flow, frame⟩ := r
  cases flow with
  | giveBack v => exact .pure hr.1
  | next => exact .pure trivial
  | leaveLoop | nextRound => exact .throw trivial

private theorem singleReturn?_shaped {body : Block} (hb : body.Shaped) {t : Tree} (ht : body.singleReturn? = some t) :
    t.Shaped := by
  obtain ⟨actions, locals, _, _⟩ := body
  unfold Block.singleReturn? at ht
  split at ht
  · rename_i hactions _
    cases ht
    obtain rfl : actions = _ := hactions
    exact hb.1
  · cases ht

/-- Nested calls to any depth. -/
private theorem body_shaped {env : Environment} (he : env.Shaped) {primitive : Primitive}
    (hp : ∀ op args, (∀ v ∈ args, Value.Shaped v) → Makes (primitive op args) Value.Shaped) (depth : Nat) :
    Machine.Shaped ⟨env, primitive, body env primitive depth⟩ := by
  induction depth with
  | zero => exact ⟨he, hp, fun _ _ _ _ => .throw trivial⟩
  | succ depth ih =>
    refine ⟨he, hp, fun code args hb ha => ?_⟩
    simp only [body]
    cases hs : code.singleReturn? with
    | none => exact wholeBlock_shaped ih hb ha
    | some t => exact tree_shaped ih ⟨ha, by simp⟩ t (singleReturn?_shaped hb hs)

end Eval

namespace Matrix
variable {limit width height : Nat} (h : 0xffffffffffffffff < width * height)
include h

/-- Before any cell is computed a shape is refused whose cells a word cannot count. -/
private theorem room_of_overflow : room limit width height = .error (.allocationFailed 0xffffffffffffffff) := if_pos h

private theorem combine_of_overflow {extent : Extent} {a b : Matrix} (hwidth : extent.of a.width b.width = width)
    (hheight : extent.of a.height b.height = height) (f : Number → Number → Except RuntimeError Number)
    (hshape : ¬(a.width = width ∧ a.height = height)) :
    a.combine limit extent f b = .error (.allocationFailed 0xffffffffffffffff) :=
  combine_error hwidth hheight f hshape (room_of_overflow h)

private theorem mul_of_overflow {a b : Matrix} (hinner : a.width = b.height) (hwidth : b.width = width)
    (hheight : a.height = height) : a.mul limit b = .error (.allocationFailed 0xffffffffffffffff) := by
  subst hwidth hheight
  rw [mul, if_neg (not_not.mpr hinner), tabulate_error _ (room_of_overflow h)]

private theorem tree_of_overflow (m : Eval.Machine) (frame : Frame) (cells : List Tree) (out : Output) :
    (Eval.tree m frame (.vector width height cells)).run.run out =
      (.error (.allocationFailed 0xffffffffffffffff), out) := by
  unfold Eval.tree
  rw [room_of_overflow h]
  rfl

end Matrix

/-- Every vector has as many cells as its shape says, and none is read or written where it has no cell. From filled
vectors, also in global variables, in the literals of trees and bodies, and among what functions captured, evaluation
makes filled vectors only, and so do builtins and functions when they are called. On filled vectors of any shape,
without rows or columns too, the operations that work by index come to the same when each index is checked, whatever a
failed check would end them with; so do ones that make a vector of their own and the display, which divides by the
width. A vector with more cells than a word can count is refused before one of them is computed. -/
theorem Environment.Shaped.vectors_filled {env : Environment} (h : env.Shaped) :
    ((∀ frame t, frame.Shaped → t.Shaped → ∀ out v,
        ((env.evaluate frame t).run.run out).1 = .ok v → v.Shaped) ∧
      ∀ args, (∀ v ∈ args, v.Shaped) → ∀ out v,
        (∀ op, ((Eval.apply env.machine op args).run.run out).1 = .ok v → v.Shaped) ∧
        (∀ id, ((Eval.callFunction env.machine id args).run.run out).1 = .ok v → v.Shaped) ∧
        ∀ f captured, (Value.function f captured).Shaped →
          ((Eval.callLambda env.machine f captured args).run.run out).1 = .ok v → v.Shaped) ∧
    (∀ (stray : RuntimeError) (limit : Nat),
      (∀ n, Matrix.Checked.identity stray limit n = Matrix.identity limit n) ∧
      ∀ m : Matrix, m.WellFormed →
        Matrix.Checked.transpose stray m = .ok m.transpose ∧ Matrix.Checked.det stray m = m.det ∧
        Matrix.Checked.text stray m = .ok m.text ∧
        ∀ extent f b, Matrix.Checked.combine stray limit extent f m b = m.combine limit extent f b) ∧
    ∀ limit width height, 0xffffffffffffffff < width * height →
      let refused : RuntimeError := .allocationFailed 0xffffffffffffffff
      (∀ n, Matrix.filled limit width height n = .error refused) ∧
      (width = height → Matrix.identity limit width = .error refused) ∧
      (∀ (extent : Matrix.Extent) f (a b : Matrix), extent.of a.width b.width = width →
        extent.of a.height b.height = height → ¬(a.width = width ∧ a.height = height) →
        a.combine limit extent f b = .error refused) ∧
      (∀ a b : Matrix, a.width = b.height → b.width = width → a.height = height → a.mul limit b = .error refused) ∧
      ∀ m frame cells out, (Eval.tree m frame (.vector width height cells)).run.run out = (.error refused, out) := by
  have hmachine : env.machine.Shaped :=
    Eval.body_shaped h (fun op _ => Value.applyBuiltin_shaped env.config op) env.config.maxCallDepth
  have hvalue {x : Eval Value} (hx : Eval.Gives x Value.Shaped) (out : Output) (v : Value)
      (hv : (x.run.run out).1 = .ok v) : v.Shaped := by
    have hends := (hx out trivial).2
    rw [hv] at hends
    exact hends
  refine ⟨⟨fun frame t hf ht => hvalue (Eval.tree_shaped hmachine hf t ht), fun args ha out v =>
      ⟨fun op => hvalue (Eval.apply_shaped hmachine op ha) out v,
        fun id => hvalue (Eval.callFunction_shaped hmachine id ha) out v,
        fun f captured hf => hvalue (Eval.callLambda_shaped hmachine hf ha) out v⟩⟩,
    fun stray limit => ⟨Matrix.Checked.identity_eq limit, fun m hm => ?_⟩, fun limit width height hlarge => ?_⟩
  · exact ⟨Matrix.Checked.transpose_eq hm, Matrix.Checked.det_eq hm, Matrix.Checked.text_eq hm,
      fun extent f _ => Matrix.Checked.combine_eq hm limit extent f⟩
  · have hroom : Matrix.room limit width height = _ := Matrix.room_of_overflow hlarge
    refine ⟨fun n => ?_, fun hsquare => ?_, fun extent f a b hwidth hheight =>
      Matrix.combine_of_overflow hlarge hwidth hheight f, fun a b => Matrix.mul_of_overflow hlarge,
      Matrix.tree_of_overflow hlarge⟩
    · rw [Matrix.filled, hroom]
      rfl
    · subst hsquare
      exact Matrix.tabulate_error _ hroom

/-- The transpose of a vector of three rows without cells. -/
theorem vectors_filled_of_empty_rows :
    let m : Matrix := ⟨0, 3, #[]⟩
    let frame : Frame := ⟨[.vector m], []⟩
    let t : Tree := .builtin .transpose [.argument 0]
    ({} : Environment).Shaped ∧ frame.Shaped ∧ t.Shaped ∧ m.WellFormed ∧
      (∃ v, ((({} : Environment).evaluate frame t).run.run #[]).1 = .ok v ∧ v.Shaped) ∧
      ∀ stray, Matrix.Checked.det stray m = m.det := by
  intro m frame t
  have hm : m.WellFormed := rfl
  have henv : ({} : Environment).Shaped := ⟨Registry.all_empty, Registry.all_empty⟩
  have hframe : frame.Shaped := ⟨List.forall_mem_singleton.mpr hm, by simp [frame]⟩
  have ht : t.Shaped := ⟨trivial, trivial⟩
  have hfilled := henv.vectors_filled
  have hrun : ((({} : Environment).evaluate frame t).run.run #[]).1 = .ok (.vector ⟨3, 0, #[]⟩) := by
    with_unfolding_all rfl
  exact ⟨henv, hframe, ht, hm, ⟨_, hrun, hfilled.1.1 frame t hframe ht #[] _ hrun⟩,
    fun stray => ((hfilled.2.1 stray 0).2 m hm).2.1⟩

end Reckoner
