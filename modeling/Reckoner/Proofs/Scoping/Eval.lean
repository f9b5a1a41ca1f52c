import Reckoner.Proofs.Scoping.Builtins

/-! Evaluation of scoped trees and blocks never runs into a slot that does not exist, a `break` without
its loop or a vector of the wrong shape, and never gives a builtin a number of arguments that it does
not accept. -/
namespace Reckoner

mutual

def Value.Sound : Value → Prop
  | .function f captured => Value.AllSound captured ∧
    ∃ outer : List Text, outer.length = captured.length ∧ f.body.IsBody (f.params ++ outer)
  | _ => True

def Value.AllSound : List Value → Prop
  | [] => True
  | v :: vs => Value.Sound v ∧ Value.AllSound vs

end

namespace Value

private theorem allSound_iff {vs : List Value} : AllSound vs ↔ ∀ v ∈ vs, v.Sound := by
  induction vs with
  | nil => simp [AllSound]
  | cons v vs ih => simp [AllSound, ih]

theorem Plain.sound {v : Value} (h : v.Plain) : v.Sound := by
  cases v with
  | function => exact absurd rfl h
  | number | vector | bignum | string => trivial

end Value

def Registry.All {α : Type} (P : α → Prop) (r : Registry α) : Prop :=
  ∀ entry ∈ r.slots, ∀ name a, entry = some (name, a) → P a

structure Environment.Sound (env : Environment) : Prop where
  functions : env.functions.All fun f => f.body.IsBody f.params
  globals : env.globals.All Value.Sound

namespace Registry
variable {α : Type} {P : α → Prop} {r : Registry α}

theorem All.entry? (h : r.All P) {slot : Nat} {name : Text} {a : α} (he : r.entry? slot = some (name, a)) :
    P a := by
  have hs := Option.join_eq_some_iff.mp he
  exact h _ (List.mem_of_getElem? hs) name a rfl

theorem All.get? (h : r.All P) {slot : Nat} {a : α} (hg : r.get? slot = some a) : P a := by
  obtain ⟨⟨name, a⟩, he, rfl⟩ := Option.map_eq_some_iff.mp hg
  exact h.entry? he

theorem All.find? (h : r.All P) {name : Text} {a : α} (hf : r.find? name = some a) : P a := by
  obtain ⟨slot, -, hg⟩ := Option.bind_eq_some_iff.mp hf
  exact h.get? hg

end Registry

namespace Eval

/-- Both computations are the same, and they end with a value in `Q` or an error that is no scope
fault. -/
def Sure {α : Type} (x y : Eval α) (Q : α → Prop) : Prop :=
  x = y ∧ Keeps (fun _ => True) (fun e => e.isScopeFault = false) x Q

namespace Sure
variable {α β : Type} {x y : Eval α} {f g : α → Eval β} {P Q : α → Prop} {R : β → Prop}

theorem pure {a : α} (h : Q a) : Sure (Pure.pure a) (Pure.pure a) Q := ⟨rfl, .pure h⟩

theorem throw {e : RuntimeError} (h : e.isScopeFault = false) :
    Sure (MonadExcept.throw e : Eval α) (MonadExcept.throw e) Q := ⟨rfl, .throw h⟩

theorem lift {r : Except RuntimeError α} (h : Safe r Q) : Sure (ofExcept r) (ofExcept r) Q :=
  ⟨rfl, .lift h⟩

theorem bind (hx : Sure x y Q) (hf : ∀ a, Q a → Sure (f a) (g a) R) : Sure (x >>= f) (y >>= g) R := by
  obtain ⟨rfl, hx⟩ := hx
  refine ⟨?_, hx.bind fun a ha => (hf a ha).2⟩
  refine funext fun s => ?_
  have h := (hx s trivial).2
  change (x >>= f).run.run s = (x >>= g).run.run s
  rw [run_bind, run_bind]
  split
  · rename_i a ha
    rw [ha] at h
    rw [(hf a h).1]
  · rfl

end Sure

/-- The two machines differ at most in how builtins compute on a number of arguments that they do not
accept, and in how bodies run that no function has. -/
structure Machine.Agrees (m m' : Machine) : Prop where
  env : m.env = m'.env
  sound : m.env.Sound
  primitive (op : Builtin) (args : List Value) : op.arity.accepts args.length → (∀ v ∈ args, v.Sound) →
    Sure (ofExcept (m.primitive op args)) (ofExcept (m'.primitive op args)) Value.Sound
  invoke (names : List Text) (body : Block) (args : List Value) : body.IsBody names →
    args.length = names.length → (∀ v ∈ args, v.Sound) → Sure (m.invoke body args) (m'.invoke body args) Value.Sound

end Eval

/-- A frame with so many sound arguments and so many sound local variables. -/
structure Frame.Fits (frame : Frame) (args room : Nat) : Prop where
  arguments : frame.arguments.length = args
  locals : frame.locals.length = room
  sound : ∀ v ∈ frame.arguments ++ frame.locals, v.Sound

namespace Eval
variable {m m' : Machine}

theorem callFunction_sure (h : m.Agrees m') (id : Nat) {args : List Value} (ha : ∀ v ∈ args, v.Sound) :
    Sure (callFunction m id args) (callFunction m' id args) Value.Sound := by
  unfold callFunction
  rw [← h.env]
  cases he : m.env.functions.entry? id with
  | none => exact .throw rfl
  | some entry =>
    obtain ⟨name, f⟩ := entry
    by_cases hl : args.length = f.params.length
    · simp only [hl, if_true]
      exact h.invoke _ _ _ (h.sound.functions.entry? he) hl ha
    · simp only [hl, if_false]
      exact .throw rfl

theorem callLambda_sure (h : m.Agrees m') {f : Lambda} {captured args : List Value}
    (hf : (Value.function f captured).Sound) (ha : ∀ v ∈ args, v.Sound) :
    Sure (callLambda m f captured args) (callLambda m' f captured args) Value.Sound := by
  obtain ⟨hc, outer, ho, hb⟩ := hf
  unfold callLambda
  by_cases hl : args.length = f.params.length
  · simp only [hl, if_true]
    refine h.invoke _ _ _ hb (by simp [hl, ho]) fun v hv => ?_
    rcases List.mem_append.mp hv with hv | hv
    · exact ha v hv
    · exact Value.allSound_iff.mp hc v hv
  · simp only [hl, if_false]
    exact .throw rfl

private theorem checkKind_safe (op : Builtin) (position : Nat) (v : Value) : Safe (checkKind op position v) := by
  unfold checkKind
  exact .ite (fun _ => trivial) fun _ => rfl

private theorem checkKinds_safe (op : Builtin) (position : Nat) (vs : List Value) :
    Safe (checkKinds op position vs) := by
  induction vs generalizing position with
  | nil => trivial
  | cons v vs ih => exact (checkKind_safe op position v).bind fun _ _ => ih _

private theorem print_sure (line : Text) : Sure (print line) (print line) fun _ => True :=
  ⟨rfl, fun _ _ => ⟨trivial, trivial⟩⟩

private theorem apply_sure (h : m.Agrees m') (op : Builtin) (args : List Value)
    (hc : op.arity.accepts args.length) (ha : ∀ v ∈ args, v.Sound) :
    Sure (apply m op args) (apply m' op args) Value.Sound := by
  induction args generalizing op with
  | nil =>
    unfold apply
    split
    · exact .throw rfl
    all_goals first | contradiction | exact h.primitive _ _ hc ha
  | cons v args ih =>
    have hargs : ∀ w ∈ args, w.Sound := fun w hw => ha w (List.mem_cons_of_mem _ hw)
    unfold apply
    split
    · contradiction
    · rename_i f captured rest hr
      obtain ⟨rfl, rfl⟩ := List.cons.inj hr
      exact callLambda_sure h (ha _ List.mem_cons_self) hargs
    · rename_i name rest hr
      obtain ⟨rfl, rfl⟩ := List.cons.inj hr
      rw [← h.env]
      split
      · exact callFunction_sure h _ hargs
      · split
        · exact .throw rfl
        · rename_i op _
          by_cases hc : op.arity.accepts args.length
          · simp only [hc, if_true]
            exact (Sure.lift (checkKinds_safe op 0 args)).bind fun _ _ => ih op hc hargs
          · simp only [hc]
            exact .throw rfl
    · exact .throw rfl
    · rename_i w hr
      obtain ⟨rfl, rfl⟩ := List.cons.inj hr
      rw [← h.env]
      exact (print_sure _).bind fun _ _ => .pure (ha _ List.mem_cons_self)
    · exact h.primitive _ _ hc ha

private theorem slot_sure {α : Type} {Q : α → Prop} {values : List α} {index : Nat} (e : RuntimeError)
    (hi : index < values.length) (hq : ∀ a ∈ values, Q a) :
    Sure (slot values index e) (slot values index e) Q := by
  unfold slot
  rw [List.getElem?_eq_getElem hi]
  exact .pure (hq _ (List.getElem_mem hi))

private theorem numberArg_sure (function : Text) (position : Nat) (v : Value) :
    Sure (ofExcept (Value.numberArg function position v)) (ofExcept (Value.numberArg function position v))
      fun _ => True :=
  .lift (Value.numberArg_safe function position v)

section
variable {s : Scope} {frame : Frame} {room : Nat}

mutual

theorem tree_sure (h : m.Agrees m') (hf : frame.Fits s.params.length room) (hr : s.locals.length ≤ room) :
    (t : Tree) → t.Scoped s → Sure (tree m frame t) (tree m' frame t) Value.Sound
  | .literal v, ht => .pure (Value.Plain.sound ht)
  | .argument index, ht =>
    slot_sure _ (hf.arguments ▸ ht) fun v hv => hf.sound v (List.mem_append_left _ hv)
  | .localVariable slot, ht =>
    slot_sure _ (hf.locals ▸ Nat.lt_of_lt_of_le ht hr) fun v hv => hf.sound v (List.mem_append_right _ hv)
  | .globalVariable slot, _ => by
    unfold tree
    rw [← h.env]
    split
    · rename_i v hv
      exact .pure (h.sound.globals.get? hv)
    · exact .throw rfl
  | .builtin op args, ht => by
    unfold tree
    refine (checkedArgs_sure h hf hr op 0 args ht.2).bind fun vs hvs => ?_
    exact apply_sure h op vs (hvs.1 ▸ ht.1) hvs.2
  | .call id args, ht => by
    unfold tree
    exact (trees_sure h hf hr args ht).bind fun vs hvs => callFunction_sure h id hvs.2
  | .vector width height ts, ht => by
    unfold tree
    rw [h.env]
    refine (Sure.lift (Matrix.room_safe _ width height)).bind fun _ hcount => ?_
    refine (cells_sure h hf hr 1 ts ht.2).bind fun ns hns => ?_
    have hfill : Matrix.ofCells? width height ns.toArray = some ⟨width, height, ns.toArray⟩ := by
      rw [Matrix.ofCells?, if_pos]
      rw [List.size_toArray, hns, ht.1]
      exact ⟨rfl, hcount⟩
    rw [hfill]
    exact .pure trivial
  | .function ⟨label, params, body⟩ width, ht => by
    unfold tree
    obtain ⟨rfl, pending, last, hb⟩ := ht
    refine .pure ⟨Value.allSound_iff.mpr fun v hv => hf.sound v (List.mem_of_mem_take hv), ?_⟩
    refine ⟨s.params ++ s.locals, ?_, pending, last, by rw [← List.append_assoc]; exact hb⟩
    simp only [Frame.capture, List.length_take, List.length_append, hf.arguments, hf.locals,
      Scope.captureWidth]
    omega

theorem trees_sure (h : m.Agrees m') (hf : frame.Fits s.params.length room) (hr : s.locals.length ≤ room) :
    (ts : List Tree) → Tree.AllScoped s ts →
      Sure (trees m frame ts) (trees m' frame ts) fun vs => vs.length = ts.length ∧ ∀ v ∈ vs, v.Sound
  | [], _ => .pure ⟨rfl, by simp⟩
  | t :: ts, ht => by
    unfold trees
    refine (tree_sure h hf hr t ht.1).bind fun v hv => ?_
    refine (trees_sure h hf hr ts ht.2).bind fun vs hvs => ?_
    exact .pure ⟨by simp [hvs.1], by simpa using ⟨hv, hvs.2⟩⟩

theorem checkedArgs_sure (h : m.Agrees m') (hf : frame.Fits s.params.length room)
    (hr : s.locals.length ≤ room) (op : Builtin) (position : Nat) :
    (ts : List Tree) → Tree.AllScoped s ts →
      Sure (checkedArgs m frame op position ts) (checkedArgs m' frame op position ts)
        fun vs => vs.length = ts.length ∧ ∀ v ∈ vs, v.Sound
  | [], _ => .pure ⟨rfl, by simp⟩
  | t :: ts, ht => by
    unfold checkedArgs
    refine (tree_sure h hf hr t ht.1).bind fun v hv => ?_
    refine (Sure.lift (checkKind_safe op position v)).bind fun _ _ => ?_
    refine (checkedArgs_sure h hf hr op (position + 1) ts ht.2).bind fun vs hvs => ?_
    exact .pure ⟨by simp [hvs.1], by simpa using ⟨hv, hvs.2⟩⟩

theorem cells_sure (h : m.Agrees m') (hf : frame.Fits s.params.length room)
    (hr : s.locals.length ≤ room) (position : Nat) :
    (ts : List Tree) → Tree.AllScoped s ts →
      Sure (cells m frame position ts) (cells m' frame position ts) fun ns => ns.length = ts.length
  | [], _ => .pure rfl
  | t :: ts, ht => by
    unfold cells
    refine (tree_sure h hf hr t ht.1).bind fun v _ => ?_
    refine (numberArg_sure _ position v).bind fun n _ => ?_
    refine (cells_sure h hf hr (position + 1) ts ht.2).bind fun ns hns => ?_
    exact .pure (by simp [hns])

end

end
end Eval
end Reckoner
