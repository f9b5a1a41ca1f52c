import Reckoner.Proofs.FrameUses
import Reckoner.Proofs.Scoping.Statement

/-! Local variables are assigned before they are read: what a block of a function body does hangs on the
slots in sight only, and those are written before they come into sight. -/
namespace Reckoner

/-- Frames for `params` arguments that differ at most in the slots of local variables from `count` on. -/
structure Frame.AgreeBelow (params count : Nat) (f f' : Frame) : Prop where
  arguments : f.arguments = f'.arguments
  params : f.arguments.length = params
  room : f.locals.length = f'.locals.length
  locals : f.locals.take count = f'.locals.take count

namespace Frame.AgreeBelow
variable {params count : Nat} {f f' : Frame}

private theorem mono {fewer : Nat} (h : f.AgreeBelow params count f') (hle : fewer ≤ count) :
    f.AgreeBelow params fewer f' := by
  refine ⟨h.arguments, h.params, h.room, ?_⟩
  rw [← Nat.min_eq_left hle, ← List.take_take, ← List.take_take, h.locals]

private theorem getElem?_eq (h : f.AgreeBelow params count f') {slot : Nat} (hs : slot < count) :
    f.locals[slot]? = f'.locals[slot]? := by
  rw [← List.getElem?_take_of_lt hs, h.locals, List.getElem?_take_of_lt hs]

private theorem capture_eq (h : f.AgreeBelow params count f') :
    f.capture (params + count) = f'.capture (params + count) := by
  unfold capture
  rw [← h.params, List.take_length_add_append, h.arguments, List.take_length_add_append, h.locals]

private theorem assignArgument (h : f.AgreeBelow params count f') (index : Nat) (v : Value) :
    AgreeBelow params count { f with arguments := f.arguments.set index v }
      { f' with arguments := f'.arguments.set index v } :=
  ⟨by rw [h.arguments], by rw [List.length_set, h.params], h.room, h.locals⟩

private theorem assignLocal (h : f.AgreeBelow params count f') (slot : Nat) (v : Value) :
    AgreeBelow params count { f with locals := f.locals.set slot v }
      { f' with locals := f'.locals.set slot v } :=
  ⟨h.arguments, h.params, by simp [h.room], by rw [List.take_set, List.take_set, h.locals]⟩

/-- The first slot out of sight comes into sight when it is assigned. -/
private theorem assignNext (h : f.AgreeBelow params count f') (hc : count < f.locals.length) (v : Value) :
    AgreeBelow params (count + 1) { f with locals := f.locals.set count v }
      { f' with locals := f'.locals.set count v } := by
  refine ⟨h.arguments, h.params, by simp [h.room], ?_⟩
  have hc' : count < f'.locals.length := h.room ▸ hc
  have htake {l : List Value} (hl : count < l.length) :
      (l.set count v).take (count + 1) = l.take count ++ [v] := by
    rw [List.take_add_one, List.take_set_of_le (Nat.le_refl count), List.getElem?_set_self hl,
      Option.toList_some]
  rw [htake hc, htake hc', h.locals]

end Frame.AgreeBelow

/-- Frames that differ at most in slots out of sight. -/
abbrev Frame.AgreeIn (s : Scope) (f f' : Frame) : Prop := f.AgreeBelow s.params.length s.locals.length f'

/-- Both frames take an assignment, or neither does. -/
private theorem Scope.Assigns.agree {s s' : Scope} {name : Text} {target : Target} {f f' : Frame}
    (ht : s.Assigns name target s') (h : f.AgreeIn s f') (v : Value) :
    Coincide Eq (Frame.AgreeIn s') (f.assign target v) (f'.assign target v) := by
  cases ht with
  | @argument index _ =>
    simp only [Frame.assign, ← h.arguments]
    by_cases hi : index < f.arguments.length
    · simp only [if_pos hi]
      exact h.arguments ▸ h.assignArgument index v
    · simp only [if_neg hi]
      exact rfl
  | @localVariable slot _ _ =>
    simp only [Frame.assign, ← h.room]
    by_cases hs : slot < f.locals.length
    · simp only [if_pos hs]
      exact h.assignLocal slot v
    · simp only [if_neg hs]
      exact rfl
  | declared =>
    simp only [Frame.assign, ← h.room]
    by_cases hs : s.locals.length < f.locals.length
    · have hcount : (s.locals ++ [name]).length = s.locals.length + 1 := List.length_append
      simp only [if_pos hs, Scope.declare]
      show Frame.AgreeBelow s.params.length (s.locals ++ [name]).length _ _
      rw [hcount]
      exact h.assignNext hs v
    · simp only [if_neg hs]
      exact rfl

/-- The slots in sight behind a block are those in sight before it. -/
private theorem Block.Scoped.agreeIn {s s' : Scope} {b : Block} (hb : b.Scoped s s') {f f' : Frame}
    (h : f.AgreeIn s f') : f.AgreeIn s' f' := by
  rwa [Frame.AgreeIn, hb.extends.params, hb.locals_eq]

mutual

/-- A tree in scope refers to the arguments and the slots in sight. -/
private theorem Tree.Scoped.agreeOn {s : Scope} {f f' : Frame} (h : f.AgreeIn s f') :
    {t : Tree} → t.Scoped s → f.AgreeOn f' t.uses
  | .literal _, _ | .globalVariable _, _ => List.forall_mem_nil _
  | .argument _, _ => List.forall_mem_singleton.mpr (congrArg (·[_]?) h.arguments)
  | .localVariable _, ht => List.forall_mem_singleton.mpr (h.getElem?_eq ht)
  | .builtin _ _, ht => Tree.AllScoped.agreeOn h ht.2
  | .call _ _, ht => Tree.AllScoped.agreeOn h ht
  | .vector _ _ _, ht => Tree.AllScoped.agreeOn h ht.2
  | .function ⟨_, _, _⟩ _, ht => by
    obtain ⟨rfl, -⟩ := ht
    exact List.forall_mem_singleton.mpr h.capture_eq

theorem Tree.AllScoped.agreeOn {s : Scope} {f f' : Frame} (h : f.AgreeIn s f') :
    {ts : List Tree} → Tree.AllScoped s ts → f.AgreeOn f' (Tree.allUses ts)
  | [], _ => List.forall_mem_nil _
  | _ :: _, hts => List.forall_mem_append.mpr ⟨Tree.Scoped.agreeOn h hts.1, Tree.AllScoped.agreeOn h hts.2⟩

end

namespace Eval
variable {m : Machine} {s : Scope} {f f' : Frame}

/-- A tree reads the arguments and the slots in sight. -/
private theorem tree_eq (h : f.AgreeIn s f') (t : Tree) (ht : t.Scoped s) : tree m f t = tree m f' t :=
  tree_congr t (ht.agreeOn h)

private theorem agree_of_eq {α : Type} {x y : Eval α} (h : x = y) : Agree Eq Eq x y Eq := by
  rintro output _ rfl
  subst h
  refine ⟨rfl, ?_⟩
  cases (x.run.run output).1 <;> rfl

private theorem eq_of_agree {α : Type} {x y : Eval α} (h : Agree Eq Eq x y Eq) : x = y := by
  refine funext fun output => ?_
  obtain ⟨hstate, hresult⟩ := h output output rfl
  refine Prod.ext ?_ hstate
  change (x.run.run output).1 = (y.run.run output).1
  cases hx : (x.run.run output).1 <;> cases hy : (y.run.run output).1 <;> rw [hx, hy] at hresult
  · exact congrArg _ hresult
  · exact hresult.elim
  · exact hresult.elim
  · exact congrArg _ hresult

/-- Two loops over frames in `R` agree when their conditions and bodies do. -/
private theorem loop_agree {R : Frame → Frame → Prop} {limit : Nat} {condition : Frame → Eval Bool}
    {body : Frame → Eval (Flow × Frame)}
    (hc : ∀ f f', R f f' → condition f = condition f')
    (hb : ∀ f f', R f f' → Agree Eq Eq (body f) (body f') fun r r' => r.1 = r'.1 ∧ R r.2 r'.2)
    (rounds : Nat) (f f' : Frame) (h : R f f') :
    Agree Eq Eq (loop limit condition body rounds f) (loop limit condition body rounds f')
      fun r r' => r.1 = r'.1 ∧ R r.2 r'.2 := by
  induction rounds generalizing f f' with
  | zero =>
    unfold loop
    refine (agree_of_eq (hc f f' h)).bind ?_
    rintro holds _ rfl
    cases holds with
    | true => exact .throw rfl
    | false => exact .pure ⟨rfl, h⟩
  | succ rounds ih =>
    unfold loop
    refine (agree_of_eq (hc f f' h)).bind ?_
    rintro holds _ rfl
    cases holds with
    | false => exact .pure ⟨rfl, h⟩
    | true =>
      refine (hb f f' h).bind ?_
      rintro ⟨flow, g⟩ ⟨_, g'⟩ ⟨rfl, hg⟩
      cases flow with
      | giveBack v => exact .pure ⟨rfl, hg⟩
      | leaveLoop => exact .pure ⟨rfl, hg⟩
      | next | nextRound => exact ih g g' hg

mutual

/-- Whatever stands in the slots out of sight, a block does the same. -/
private theorem block_agree {s s' : Scope} {f f' : Frame} (h : f.AgreeIn s f') :
    (b : Block) → b.Scoped s s' → Agree Eq Eq (block m f b) (block m f' b)
      fun r r' => r.1 = r'.1 ∧ r.2.AgreeIn s r'.2
  | ⟨list, _, _, _⟩, hb => by
    obtain ⟨last, hlist, -⟩ := hb
    unfold block
    exact actions_agree h false list hlist

theorem actions_agree {s s' : Scope} {previous : Option Action} {f f' : Frame} (h : f.AgreeIn s f')
    (taken : Bool) : (list : List Action) → Action.AllScoped s previous list s' →
      Agree Eq Eq (actions m taken f list) (actions m taken f' list)
        fun r r' => r.1 = r'.1 ∧ r.2.AgreeIn s r'.2
  | [], _ => .pure ⟨rfl, h⟩
  | a :: rest, hlist => by
    obtain ⟨-, next, ha, hrest⟩ := hlist
    have he := ha.extends
    have hless : s.locals.length ≤ next.locals.length := he.locals.length_le
    unfold actions
    refine (action_agree h taken a ha).bind ?_
    rintro ⟨flow, taken, g⟩ ⟨_, _, g'⟩ ⟨rfl, rfl, hg⟩
    rw [Frame.AgreeIn, he.params] at hg
    cases flow with
    | next =>
      have hnext : g.AgreeIn next g' := by rwa [Frame.AgreeIn, he.params]
      refine (actions_agree hnext taken rest hrest).mono ?_
      rintro ⟨flow, k⟩ ⟨_, k'⟩ ⟨rfl, hk⟩
      rw [Frame.AgreeIn, he.params] at hk
      exact ⟨rfl, hk.mono hless⟩
    | giveBack v | leaveLoop | nextRound => exact .pure ⟨rfl, hg.mono hless⟩

theorem action_agree {s s' : Scope} {previous : Option Action} {f f' : Frame} (h : f.AgreeIn s f')
    (taken : Bool) : (a : Action) → a.Scoped s previous s' →
      Agree Eq Eq (action m taken f a) (action m taken f' a)
        fun r r' => r.1 = r'.1 ∧ r.2.1 = r'.2.1 ∧ r.2.2.AgreeIn s' r'.2.2
  | .compute t, ha => by
    obtain ⟨ht, rfl⟩ := ha
    unfold action
    refine (agree_of_eq (tree_eq h t ht)).bind ?_
    rintro v _ rfl
    exact .pure ⟨rfl, rfl, h⟩
  | .giveBack t, ha => by
    obtain ⟨ht, rfl⟩ := ha
    unfold action
    refine (agree_of_eq (tree_eq h t ht)).bind ?_
    rintro v _ rfl
    exact .pure ⟨rfl, rfl, h⟩
  | .assign target t, ha => by
    obtain ⟨ht, name, -, -, hn⟩ := ha
    unfold action
    refine (agree_of_eq (tree_eq h t ht)).bind ?_
    rintro v _ rfl
    have hassign : Agree Eq Eq (ofExcept (f.assign target v)) (ofExcept (f'.assign target v))
        (Frame.AgreeIn s') := .lift (hn.agree h v)
    exact hassign.bind fun g g' hg => .pure ⟨rfl, rfl, hg⟩
  | .when condition body, ha => by
    obtain ⟨ht, hb⟩ := ha
    unfold action
    refine (agree_of_eq (tree_eq h condition ht)).bind ?_
    rintro v _ rfl
    by_cases hv : v.truthy
    · simp only [if_pos hv]
      refine (block_agree h body hb).bind ?_
      rintro ⟨flow, g⟩ ⟨_, g'⟩ ⟨rfl, hg⟩
      exact .pure ⟨rfl, rfl, hb.agreeIn hg⟩
    · simp only [if_neg hv]
      exact .pure ⟨rfl, rfl, hb.agreeIn h⟩
  | .otherwise body, ha => by
    obtain ⟨-, hb⟩ := ha
    unfold action
    cases taken with
    | true => exact .pure ⟨rfl, rfl, hb.agreeIn h⟩
    | false =>
      refine (block_agree h body hb).bind ?_
      rintro ⟨flow, g⟩ ⟨_, g'⟩ ⟨rfl, hg⟩
      exact .pure ⟨rfl, rfl, hb.agreeIn hg⟩
  | .loop condition body, ha => by
    obtain ⟨ht, inner, hb, rfl⟩ := ha
    have hcondition (g g' : Frame) (hg : g.AgreeIn s g') :
        (do return (← tree m g condition).truthy : Eval Bool) =
          do return (← tree m g' condition).truthy := by
      rw [tree_eq hg condition ht]
    have hbody (g g' : Frame) (hg : g.AgreeIn s g') := 
      block_agree (s := { s with inLoop := true }) hg body hb
    unfold action
    refine (loop_agree hcondition hbody _ f f' h).bind ?_
    rintro ⟨flow, g⟩ ⟨_, g'⟩ ⟨rfl, hg⟩
    exact .pure ⟨rfl, rfl, hb.agreeIn (s := { s with inLoop := true }) hg⟩
  | .leaveLoop, ha => by
    obtain ⟨-, rfl⟩ := ha
    exact .pure ⟨rfl, rfl, h⟩
  | .nextRound, ha => by
    obtain ⟨-, rfl⟩ := ha
    exact .pure ⟨rfl, rfl, h⟩

end

end Eval

inductive Scope.IsEntry : Scope → Prop
  | function (params : List Text) (pending : Option Pending) : IsEntry (.function params pending)
  | lambda (params : List Text) (outer : Scope) : IsEntry (.lambda params outer)

/-- The block is what the parser makes of a text as a function body: of the statements between braces, or of
an expression. -/
inductive Block.AcceptedIn (env : Environment) (s : Scope) : Block → Prop
  | braced {t : Text} {offset : Nat} {supply : Supply} {b : Block} {last : Scope}
    (h : ((parseBlock env t offset s).run.run supply).1 = .ok (b, last)) : AcceptedIn env s b
  | bare {text : Text} {offset : Nat} {ambient : Ambient} {supply : Supply} {t : Tree}
    (h : ((parseExpression env text offset s ambient).run.run supply).1 = .ok t) :
    AcceptedIn env s (.returning t)

private theorem Block.AcceptedIn.scoped {env : Environment} {s : Scope} {b : Block} (hs : s.IsEntry)
    (h : b.AcceptedIn env s) : ∃ last, b.Scoped s last := by
  have hall : Parse.Admits env fun _ => True := .of_forall fun _ => trivial
  cases h with
  | @braced t offset supply _ last h =>
    have hb := (parseBlock_scoped hall t offset s supply trivial).2
    rw [h] at hb
    exact ⟨last, hb⟩
  | @bare text offset ambient supply t h =>
    have ht := (parseExpression_scoped hall text offset s ambient supply trivial).2
    rw [h] at ht
    cases hs <;> exact ⟨_, _, ⟨rfl, _, ⟨ht, rfl⟩, rfl⟩, rfl, rfl, rfl, rfl⟩

namespace Eval

/-- Definite assignment: what the body of a function does, and what it prints, does not hang on what its
local variables hold when it starts. -/
theorem definite_assignment {env : Environment} {s : Scope} {b : Block} (hs : s.IsEntry)
    (hb : b.AcceptedIn env s) (m : Machine) {args locals locals' : List Value}
    (ha : args.length = s.params.length) (hl : locals.length = b.frameSize)
    (hl' : locals'.length = b.frameSize) :
    Prod.fst <$> block m ⟨args, locals⟩ b = Prod.fst <$> block m ⟨args, locals'⟩ b := by
  obtain ⟨last, hscoped⟩ := hb.scoped hs
  have hnone : s.locals = [] := by cases hs <;> rfl
  have hf : Frame.AgreeIn s ⟨args, locals⟩ ⟨args, locals'⟩ := by
    refine ⟨rfl, ha, hl.trans hl'.symm, ?_⟩
    simp [hnone]
  exact eq_of_agree (Agree.map ((block_agree hf b hscoped).mono fun _ _ h => h.1))

/-- Two variables take turns in one slot. -/
theorem definite_assignment_of_reuse :
    let branch : Block := ⟨[.assign (.localVariable 0) (.argument 0)], [['y']], 0, 1⟩
    let b : Block := ⟨[.when (.argument 0) branch, .assign (.localVariable 0) (.argument 0),
      .giveBack (.localVariable 0)], [['z']], 0, 1⟩
    ((parseBlock {} "if(x)\x7by=x\x7d;z=x;return z".toList 0 (.function [['x']] none)).run.run {}).1 =
        .ok (b, { params := [['x']], frameSize := 1 }) ∧
      Prod.fst <$> block (Environment.machine {}) ⟨[.zero], [.zero]⟩ b =
        Prod.fst <$> block (Environment.machine {}) ⟨[.zero], [.string []]⟩ b := by
  intro branch b
  have hb : ((parseBlock {} "if(x)\x7by=x\x7d;z=x;return z".toList 0 (.function [['x']] none)).run.run
      {}).1 = .ok (b, { params := [['x']], frameSize := 1 }) := by
    unfold parseBlock parseBlock parseExpression
    with_unfolding_all rfl
  exact ⟨hb, definite_assignment (.function _ _) (.braced hb) _ rfl rfl rfl⟩

end Eval
end Reckoner
