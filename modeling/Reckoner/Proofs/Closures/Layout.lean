import Reckoner.Proofs.Outcome
import Reckoner.Proofs.Scoping.Basic
import Mathlib.Data.List.Nodup

/-! The layout of a frame: which of its slots a name resolves to, and the value that the name denotes by that.
An anonymous function lays out its parameters, and behind them all that it captures, in the order of its scope. -/
namespace Reckoner

/-- The slot of the frame that a name resolves to: the first argument of that name, or else the last local
variable. -/
def Scope.frameSlot? (s : Scope) (name : Text) : Option Tree :=
  (s.argument? name).map Tree.argument <|> (s.local? name).map Tree.localVariable

def Tree.IsFrameSlot : Tree → Prop
  | .argument _ | .localVariable _ => True
  | _ => False

def Ambient.ReadsUnit (ambient : Ambient) (env : Environment) (name : Text) : Prop :=
  ambient.units = true ∧ (env.units.lookup name).isSome

namespace Frame

structure Matches (frame : Frame) (s : Scope) : Prop where
  arguments : frame.arguments.length = s.params.length
  locals : s.locals.length ≤ frame.locals.length

def value? (frame : Frame) : Tree → Option Value
  | .argument index => frame.arguments[index]?
  | .localVariable slot => frame.locals[slot]?
  | _ => none

/-- The name resolves to one slot of the frame, alone and before an argument list, and the value is in that slot. -/
def Denotes (frame : Frame) (s : Scope) (name : Text) (v : Value) : Prop :=
  ∃ t, s.frameSlot? name = some t ∧
    (∀ env ambient position, ¬ambient.ReadsUnit env name → s.resolve env ambient name position = .ok t) ∧
    (∀ env count position, s.callee env name count position = .ok (.value t)) ∧ ∀ m, Eval.tree m frame t = pure v

end Frame

private theorem idxOf?_append (xs ys : List Text) (name : Text) :
    (xs ++ ys).idxOf? name = (xs.idxOf? name).or ((ys.idxOf? name).map (· + xs.length)) :=
  List.findIdx?_append

/-- Where the names differ, the position of a name is the only one. -/
private theorem idxOf?_eq_some_of_nodup {names : List Text} (h : names.Nodup) {name : Text} {i : Nat} :
    names.idxOf? name = some i ↔ names[i]? = some name := by
  rw [List.idxOf?_eq_some_iff, List.getElem?_eq_some_iff]
  constructor
  · rintro ⟨hi, hname, -⟩
    exact ⟨hi, hname⟩
  · rintro ⟨hi, hname⟩
    refine ⟨hi, hname, fun j hj hsame => ?_⟩
    exact Nat.ne_of_lt hj (h.getElem_inj_iff.mp (hsame.trans hname.symm))

namespace Scope
variable {s s' : Scope} {name : Text} {t : Tree}

/-- Where the local variables differ, the last one of a name is the first one. -/
private theorem local?_eq_idxOf? (h : s.locals.Nodup) (name : Text) : s.local? name = s.locals.idxOf? name := by
  have hreverse := List.nodup_reverse.mpr h
  ext slot
  unfold local?
  rw [idxOf?_eq_some_of_nodup h, Option.map_eq_some_iff]
  simp only [idxOf?_eq_some_of_nodup hreverse]
  constructor
  · rintro ⟨k, hk, rfl⟩
    have hlt : k < s.locals.length := by
      rw [← List.length_reverse]
      exact (List.getElem?_eq_some_iff.mp hk).1
    rwa [List.getElem?_reverse hlt] at hk
  · intro hslot
    have hlt := (List.getElem?_eq_some_iff.mp hslot).1
    refine ⟨s.locals.length - 1 - slot, ?_, by omega⟩
    rw [List.getElem?_reverse (by omega)]
    rwa [show s.locals.length - 1 - (s.locals.length - 1 - slot) = slot by omega]

/-- Slots of the frame come before global variables. -/
private theorem slot?_eq (s : Scope) (env : Environment) (name : Text) :
    s.slot? env name = (s.frameSlot? name <|> (env.globals.lookup name).map Tree.globalVariable) := by
  unfold slot? frameSlot?
  cases s.argument? name <;> rfl

private theorem frameSlot?_isFrameSlot (h : s.frameSlot? name = some t) : t.IsFrameSlot := by
  unfold frameSlot? at h
  cases ha : s.argument? name with
  | some index =>
    rw [ha] at h
    obtain rfl := Option.some.inj h
    trivial
  | none =>
    rw [ha] at h
    obtain ⟨slot, -, rfl⟩ := Option.map_eq_some_iff.mp h
    trivial

/-- The names with a slot of the frame are those of arguments and local variables. -/
private theorem frameSlot?_isSome_iff (s : Scope) (name : Text) :
    (s.frameSlot? name).isSome ↔ name ∈ s.params ∨ name ∈ s.locals := by
  unfold frameSlot? argument? local?
  rw [← List.isSome_idxOf?, show name ∈ s.locals ↔ name ∈ s.locals.reverse from List.mem_reverse.symm, ← List.isSome_idxOf?]
  cases s.params.idxOf? name <;> cases s.locals.reverse.idxOf? name <;> simp

private theorem slot?_of_frameSlot? (h : s.frameSlot? name = some t) (env : Environment) :
    s.slot? env name = some t := by
  rw [slot?_eq, h]
  rfl

private theorem resolve_of_frameSlot? (h : s.frameSlot? name = some t) {env : Environment} {ambient : Ambient}
    (hunit : ¬ambient.ReadsUnit env name) (position : Nat) : s.resolve env ambient name position = .ok t := by
  have hnone : (if ambient.units then (env.units.lookup name).map fun m =>
      Tree.number ((Number.real m.multiplier).withDimension m.dimension) else none) = none := by
    split
    · rw [Option.map_eq_none_iff, ← Option.not_isSome_iff_eq_none]
      exact fun hsome => hunit ⟨‹_›, hsome⟩
    · rfl
  unfold resolve
  simp only
  rw [hnone, slot?_of_frameSlot? h env]
  rfl

private theorem callee_of_frameSlot? (h : s.frameSlot? name = some t) (env : Environment) (count position : Nat) :
    s.callee env name count position = .ok (.value t) := by
  unfold callee
  rw [slot?_of_frameSlot? h env]

/-- What resolves to a slot of the frame is the name of an argument or a local variable. -/
private theorem isSome_frameSlot?_of_resolve {env : Environment} {ambient : Ambient} {position : Nat}
    (h : s.resolve env ambient name position = .ok t) (ht : t.IsFrameSlot) : (s.frameSlot? name).isSome := by
  unfold resolve at h
  simp only at h
  split at h
  · rename_i u hu
    obtain rfl := Except.ok.inj h
    rw [slot?_eq] at hu
    simp only [Option.orElse_eq_orElse, Option.orElse_eq_or, Option.or_eq_some_iff] at hu
    rcases hu with hu | ⟨-, (hu | ⟨-, hu⟩) | ⟨-, hu | ⟨-, hu⟩⟩⟩
    · split at hu
      · obtain ⟨m, -, rfl⟩ := Option.map_eq_some_iff.mp hu
        exact ht.elim
      · exact nomatch hu
    · exact Option.isSome_of_mem hu
    · obtain ⟨slot, -, rfl⟩ := Option.map_eq_some_iff.mp hu
      exact ht.elim
    · split at hu
      · obtain rfl := Option.some.inj hu
        exact ht.elim
      · exact nomatch hu
    · obtain ⟨n, -, rfl⟩ := Option.map_eq_some_iff.mp hu
      exact ht.elim
  · exact nomatch h

/-- A name resolves to a slot of the frame exactly when it is the name of an argument or a local variable; when
names are read as units first, this is so for the others. -/
theorem resolve_isFrameSlot_iff (s : Scope) {env : Environment} {ambient : Ambient} {name : Text}
    (hunit : ¬ambient.ReadsUnit env name) (position : Nat) :
    (∃ t, s.resolve env ambient name position = .ok t ∧ t.IsFrameSlot) ↔ name ∈ s.params ∨ name ∈ s.locals := by
  rw [← frameSlot?_isSome_iff]
  constructor
  · rintro ⟨t, hresolve, ht⟩
    exact isSome_frameSlot?_of_resolve hresolve ht
  · intro h
    obtain ⟨t, ht⟩ := Option.isSome_iff_exists.mp h
    exact ⟨t, resolve_of_frameSlot? ht hunit position, frameSlot?_isFrameSlot ht⟩

/-- Behind further declarations every name keeps its slot. -/
theorem Extends.frameSlot? (h : s.Extends s') (hlocals : s'.locals.Nodup) (ht : s.frameSlot? name = some t) :
    s'.frameSlot? name = some t := by
  obtain ⟨more, hmore⟩ := h.locals
  have hbefore : s.locals.Nodup := hlocals.sublist h.locals.sublist
  unfold Scope.frameSlot? at ht ⊢
  rw [local?_eq_idxOf? hbefore] at ht
  rw [local?_eq_idxOf? hlocals, ← hmore, idxOf?_append]
  unfold argument? at ht ⊢
  rw [h.params]
  cases hparam : s.params.idxOf? name with
  | some index =>
    rw [hparam] at ht
    exact ht
  | none =>
    rw [hparam] at ht
    obtain ⟨slot, hslot, rfl⟩ := Option.map_eq_some_iff.mp ht
    rw [hslot]
    rfl

end Scope

namespace Frame
variable {frame : Frame} {s : Scope} {name : Text} {v : Value}

/-- A slot evaluates to the value in it. -/
private theorem tree_eq_of_value? {t : Tree} (h : frame.value? t = some v) (m : Eval.Machine) :
    Eval.tree m frame t = pure v := by
  cases t with
  | argument index =>
    have hv : frame.arguments[index]? = some v := h
    rw [Eval.tree, Eval.slot, hv]
  | localVariable slot =>
    have hv : frame.locals[slot]? = some v := h
    rw [Eval.tree, Eval.slot, hv]
  | _ => cases h

theorem denotes_of_value? {t : Tree} (ht : s.frameSlot? name = some t) (hv : frame.value? t = some v) :
    frame.Denotes s name v :=
  ⟨t, ht, fun _ _ position hunit => Scope.resolve_of_frameSlot? ht hunit position,
    Scope.callee_of_frameSlot? ht, tree_eq_of_value? hv⟩

theorem Denotes.value? (h : frame.Denotes s name v) : ∃ t, s.frameSlot? name = some t ∧ frame.value? t = some v := by
  obtain ⟨t, ht, -, -, htree⟩ := h
  refine ⟨t, ht, ?_⟩
  have hrun := congrArg (fun x : Eval Value => (x.run.run #[]).1) (htree ({} : Environment).machine)
  have hslot {values : List Value} {index : Nat} {error : RuntimeError}
      (hvalue : ((Eval.slot values index error).run.run #[]).1 = .ok v) : values[index]? = some v := by
    unfold Eval.slot at hvalue
    cases hw : values[index]? with
    | some w =>
      rw [hw] at hvalue
      exact congrArg some (Except.ok.inj hvalue)
    | none =>
      rw [hw] at hvalue
      exact nomatch hvalue
  cases t with
  | argument index =>
    simp only [Eval.tree] at hrun
    exact hslot hrun
  | localVariable slot =>
    simp only [Eval.tree] at hrun
    exact hslot hrun
  | _ => exact (Scope.frameSlot?_isFrameSlot ht).elim

/-- What a function captures are the values of the arguments and then those of the local variables. -/
private theorem Matches.capture (h : frame.Matches s) :
    frame.capture s.captureWidth = frame.arguments ++ frame.locals.take s.locals.length := by
  unfold Frame.capture Scope.captureWidth
  rw [← h.arguments, List.take_append, List.take_of_length_le (Nat.le_add_right _ _), Nat.add_sub_cancel_left]

private theorem Matches.capture_length (h : frame.Matches s) :
    (frame.capture s.captureWidth).length = s.captureWidth := by
  rw [h.capture, List.length_append, List.length_take, Nat.min_eq_left h.locals, h.arguments]
  rfl

/-- What a name denotes stands among the captured values where the name stands in the scope. -/
private theorem Matches.denotes_iff (h : frame.Matches s) (hlocals : s.locals.Nodup) :
    frame.Denotes s name v ↔ ∃ i, (s.params ++ s.locals).idxOf? name = some i ∧
      (frame.capture s.captureWidth)[i]? = some v := by
  rw [h.capture, idxOf?_append]
  have hslot : s.frameSlot? name = ((s.params.idxOf? name).map Tree.argument <|>
      (s.locals.idxOf? name).map Tree.localVariable) := by
    unfold Scope.frameSlot?
    rw [Scope.local?_eq_idxOf? hlocals]
    rfl
  cases hparam : s.params.idxOf? name with
  | some index =>
    have hlt : index < frame.arguments.length := h.arguments ▸ (List.idxOf?_eq_some_iff.mp hparam).1
    rw [hparam] at hslot
    simp only [Option.some_or, Option.some.injEq, exists_eq_left', List.getElem?_append_left hlt]
    constructor
    · intro hdenotes
      obtain ⟨t, ht, hv⟩ := hdenotes.value?
      obtain rfl := Option.some.inj (hslot.symm.trans ht)
      exact hv
    · exact denotes_of_value? hslot
  | none =>
    rw [hparam] at hslot
    cases hlocal : s.locals.idxOf? name with
    | some slot =>
      have hlt : slot < s.locals.length := (List.idxOf?_eq_some_iff.mp hlocal).1
      rw [hlocal] at hslot
      simp only [Option.none_or, Option.map_some, Option.some.injEq, exists_eq_left', ← h.arguments]
      rw [List.getElem?_append_right (Nat.le_add_left _ _), Nat.add_sub_cancel, List.getElem?_take_of_lt hlt]
      constructor
      · intro hdenotes
        obtain ⟨t, ht, hv⟩ := hdenotes.value?
        obtain rfl := Option.some.inj (hslot.symm.trans ht)
        exact hv
      · exact denotes_of_value? hslot
    | none =>
      rw [hlocal] at hslot
      constructor
      · rintro ⟨t, ht, -⟩
        exact nomatch hslot.symm.trans ht
      · rintro ⟨i, hi, -⟩
        exact nomatch hi

/-- Every name in sight denotes a value. -/
theorem Matches.denotes (h : frame.Matches s) (hlocals : s.locals.Nodup) (hname : name ∈ s.params ∨ name ∈ s.locals) :
    ∃ v, frame.Denotes s name v := by
  obtain ⟨i, hi⟩ := Option.isSome_iff_exists.mp (List.isSome_idxOf?.mpr (List.mem_append.mpr hname))
  have hlt := (List.idxOf?_eq_some_iff.mp hi).1
  rw [List.length_append, ← Scope.captureWidth, ← h.capture_length] at hlt
  exact ⟨_, (h.denotes_iff hlocals).mpr ⟨i, hi, List.getElem?_eq_getElem hlt⟩⟩

/-- The frame in which the body of an anonymous function runs: its arguments, and behind them what was captured. -/
def called (frame : Frame) (s : Scope) (args locals : List Value) : Frame :=
  ⟨args ++ frame.capture s.captureWidth, locals⟩

section
variable {params : List Text} {args : List Value}

private theorem Matches.called (h : frame.Matches s) (hargs : args.length = params.length) (locals : List Value) :
    (frame.called s args locals).Matches (Scope.lambda params s) where
  arguments := by
    have hcapture := h.capture_length
    simp only [Frame.called, Scope.lambda, Scope.captureWidth, List.length_append] at hcapture ⊢
    omega
  locals := Nat.zero_le _

/-- In the body of an anonymous function a name stands where it stands among the parameters and what is in sight
around. -/
private theorem Matches.denotes_called_iff (h : frame.Matches s) (hargs : args.length = params.length)
    (locals : List Value) :
    (frame.called s args locals).Denotes (Scope.lambda params s) name v ↔
      ∃ i, (params ++ (s.params ++ s.locals)).idxOf? name = some i ∧
        (args ++ frame.capture s.captureWidth)[i]? = some v := by
  have hmatches := h.called hargs locals
  rw [hmatches.denotes_iff List.nodup_nil, hmatches.capture]
  simp only [Scope.lambda, List.length_nil, List.take_zero, List.append_nil, List.append_assoc]
  rfl

/-- A parameter has the value of its argument. -/
theorem Matches.denotes_param (h : frame.Matches s) (hargs : args.length = params.length) (locals : List Value)
    (hparams : params.Nodup) {j : Nat} (hname : params[j]? = some name) (hvalue : args[j]? = some v) :
    (frame.called s args locals).Denotes (Scope.lambda params s) name v := by
  refine (h.denotes_called_iff hargs locals).mpr ⟨j, ?_, ?_⟩
  · rw [idxOf?_append, (idxOf?_eq_some_of_nodup hparams).mpr hname]
    rfl
  · rw [List.getElem?_append_left (List.getElem?_eq_some_iff.mp hvalue).1]
    exact hvalue

/-- Any other name has the value that it had around the function when the function was made. -/
theorem Matches.denotes_captured (h : frame.Matches s) (hlocals : s.locals.Nodup) (hargs : args.length = params.length)
    (locals : List Value) (hname : name ∉ params) (hvalue : frame.Denotes s name v) :
    (frame.called s args locals).Denotes (Scope.lambda params s) name v := by
  obtain ⟨i, hi, hv⟩ := (h.denotes_iff hlocals).mp hvalue
  refine (h.denotes_called_iff hargs locals).mpr ⟨i + params.length, ?_, ?_⟩
  · rw [idxOf?_append, List.idxOf?_eq_none_iff.mpr hname, hi]
    rfl
  · rw [← hargs, List.getElem?_append_right (Nat.le_add_left _ _), Nat.add_sub_cancel]
    exact hv

end
end Frame
end Reckoner
