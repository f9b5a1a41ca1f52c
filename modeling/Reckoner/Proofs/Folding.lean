import Reckoner.Derivative
import Reckoner.Flat
import Reckoner.Proofs.Outcome

/-! Properties of trees that operators carry over from their operands. The folding of a flat expression and the
symbolic derivative keep every such property, because they build nothing but literals and operators. -/
namespace Reckoner

/-- What is written between operands takes two of them. -/
private theorem Builtin.accepts_two {op : Builtin} (hop : op.isInfix) : op.arity.accepts 2 := by
  cases op <;> first | rfl | exact absurd hop (by decide)

/-- The property holds of numbers, and of an operator where it holds of the operands. -/
structure Tree.Composes (P : Tree → Prop) : Prop where
  number (n : Number) : P (.number n)
  builtin {op : Builtin} {args : List Tree} : op.arity.accepts args.length → (∀ t ∈ args, P t) →
    P (.builtin op args)

/-- The property holds of numbers, and of an operator in front of an operand or between two where it holds of them. -/
structure Tree.Operates (P : Tree → Prop) : Prop where
  number (n : Number) : P (.number n)
  negate {t : Tree} : P t → P (.builtin .negate [t])
  between {op : Builtin} {a b : Tree} : op.isInfix → P a → P b → P (.builtin op [a, b])

/-- The property holds of an operator exactly where it holds of the operands, and a vector keeps it when its cells
are exchanged. -/
structure Tree.Structural (P : Tree → Prop) : Prop extends Tree.Composes P where
  operands {op : Builtin} {args : List Tree} : P (.builtin op args) → ∀ t ∈ args, P t
  cells {width height : Nat} {cells : List Tree} : P (.vector width height cells) → ∀ t ∈ cells, P t
  vector {width height : Nat} {cells others : List Tree} : P (.vector width height cells) →
    others.length = cells.length → (∀ t ∈ others, P t) → P (.vector width height others)

namespace Tree.Composes
variable {P : Tree → Prop} (hP : Tree.Composes P) {op : Builtin} {a b t : Tree}
include hP

private theorem unary (hop : op.arity.accepts 1) (ha : P a) : P (.builtin op [a]) :=
  hP.builtin hop (by simpa using ha)

private theorem binary (hop : op.arity.accepts 2) (ha : P a) (hb : P b) : P (.builtin op [a, b]) :=
  hP.builtin hop (by simpa using ⟨ha, hb⟩)

theorem operates : Tree.Operates P where
  number := hP.number
  negate := hP.unary rfl
  between hop := hP.binary (Builtin.accepts_two hop)

end Tree.Composes

namespace Flat
variable {P : Tree → Prop} {Q : Nat → Prop} (hP : Tree.Operates P) {E : ParseError → Prop}

def Item.Has (P : Tree → Prop) (Q : Nat → Prop) : Item → Prop
  | .operand t => P t
  | .operator _ position => Q position

include hP in
theorem negate_has {t : Tree} (h : P t) : P (negate t) := by
  unfold negate
  split
  · exact hP.number _
  · exact hP.negate h

private theorem release_has {held : Option Tree} {items : List Item} (hh : ∀ t ∈ held, P t)
    (hi : ∀ item ∈ items, item.Has P Q) : ∀ item ∈ release held items, item.Has P Q := by
  cases held with
  | none => exact hi
  | some t => exact List.forall_mem_cons.mpr ⟨hh t rfl, hi⟩

include hP in
private theorem joinOperands_has (held : Option Tree) (items : List Item) (hh : ∀ t ∈ held, P t)
    (hi : ∀ item ∈ items, item.Has P Q) : ∀ item ∈ joinOperands held items, item.Has P Q := by
  induction items generalizing held with
  | nil => cases held <;> exact release_has hh hi
  | cons item items ih =>
    obtain ⟨hitem, hrest⟩ := List.forall_mem_cons.mp hi
    cases item with
    | operand t =>
      cases held with
      | none => exact ih (some t) (fun _ hu => Option.some.inj hu ▸ hitem) hrest
      | some product =>
        refine ih (some (.builtin .mul [product, t])) (fun u hu => ?_) hrest
        obtain rfl := Option.some.inj hu
        exact hP.between rfl (hh product rfl) hitem
    | operator op position =>
      have hall : ∀ item ∈ Item.operator op position :: joinOperands none items, item.Has P Q :=
        List.forall_mem_cons.mpr ⟨hitem, ih none nofun hrest⟩
      cases held <;> exact release_has hh hall

/-- Operators of a level stand between two operands. -/
private theorem isInfix_of_mem_levels {level : Builtin → Bool} (hl : level ∈ levels) {op : Builtin}
    (h : level op) : op.isInfix := by
  simp only [levels, List.mem_cons, List.not_mem_nil, or_false] at hl
  rcases hl with rfl | rfl | rfl | rfl <;> simp at h
  · subst h
    rfl
  · rcases h with (rfl | rfl) | rfl <;> rfl
  · rcases h with rfl | rfl <;> rfl
  · rcases h with rfl | rfl | rfl | rfl | rfl | rfl <;> rfl

include hP in
private theorem foldLevel_has {level : Builtin → Bool} (hl : level ∈ levels)
    (hE : ∀ position, Q position → E (.missingOperand position)) (held : Option Tree) (items : List Item)
    (hh : ∀ t ∈ held, P t) (hi : ∀ item ∈ items, item.Has P Q) :
    Ends E (foldLevel level held items) fun items => ∀ item ∈ items, item.Has P Q := by
  fun_induction foldLevel level held items with
  | case1 held => exact release_has hh hi
  | case2 held t rest ih =>
    obtain ⟨ht, hrest⟩ := List.forall_mem_cons.mp hi
    refine Ends.map ((ih (fun _ hu => Option.some.inj hu ▸ ht) hrest).mono fun items hitems => ?_)
    exact release_has hh hitems
  | case3 op position hop left right rest ih =>
    obtain ⟨-, hright, hrest⟩ := by simpa only [List.forall_mem_cons] using hi
    refine ih (fun u hu => ?_) hrest
    obtain rfl := Option.some.inj hu
    exact hP.between (isInfix_of_mem_levels hl hop) (hh left rfl) hright
  | case4 => exact hE _ (List.forall_mem_cons.mp hi).1
  | case5 held op position rest hop ih =>
    obtain ⟨hitem, hrest⟩ := List.forall_mem_cons.mp hi
    refine (ih nofun hrest).bind fun items hitems => ?_
    exact release_has hh (List.forall_mem_cons.mpr ⟨hitem, hitems⟩)

include hP in
/-- What holds of all operands holds of the tree of a flat expression. -/
theorem fold_has (hE : ∀ position, Q position → E (.missingOperand position)) {leading : Option Nat}
    (hl : Q (leading.getD 0)) {items : List Item}
    (hi : ∀ item ∈ items, item.Has P Q) : Ends E (fold leading items) P := by
  have hlevels : Ends E (levels.foldlM (fun items level => foldLevel level none items)
      (joinOperands none items)) fun items => ∀ item ∈ items, item.Has P Q :=
    Ends.foldlM (joinOperands_has hP none items nofun hi) fun items hitems level hl =>
      foldLevel_has hP hl hE none items nofun hitems
  refine hlevels.bind fun items hitems => ?_
  split
  · rename_i t
    have ht : P t := hitems _ List.mem_cons_self
    split
    · exact negate_has hP ht
    · exact ht
  · exact hE _ hl

end Flat

namespace Tree.Structural
variable {P : Tree → Prop} (hP : Tree.Structural P) {a b t : Tree}
include hP

private theorem folded {op : Builtin} (hop : op.arity.accepts 2) (ha : P a) (hb : P b) : P (folded op a b) := by
  unfold Tree.folded
  split
  · split
    · exact hP.number _
    · exact hP.binary hop ha hb
  · exact hP.binary hop ha hb

private theorem plus (ha : P a) (hb : P b) : P (a.plus b) := by
  unfold Tree.plus
  split
  · exact hb
  · split
    · exact ha
    · exact hP.folded rfl ha hb

private theorem opposite (ha : P a) : P a.opposite := by
  unfold Tree.opposite
  split
  · exact hP.number _
  · exact hP.operands ha _ List.mem_cons_self
  · exact hP.unary rfl ha

private theorem minus (ha : P a) (hb : P b) : P (a.minus b) := by
  unfold Tree.minus
  split
  · exact ha
  · split
    · exact hP.opposite hb
    · exact hP.folded rfl ha hb

private theorem times (ha : P a) (hb : P b) : P (a.times b) := by
  unfold Tree.times
  split
  · exact hP.number _
  · split
    · exact hb
    · split
      · exact ha
      · exact hP.folded rfl ha hb

private theorem dividedBy (ha : P a) (hb : P b) : P (a.dividedBy b) := by
  unfold Tree.dividedBy
  split
  · exact hP.number _
  · split
    · exact ha
    · exact hP.folded rfl ha hb

private theorem toPower (ha : P a) (hb : P b) : P (a.toPower b) := by
  unfold Tree.toPower
  split
  · exact hP.number _
  · split
    · exact ha
    · exact hP.folded rfl ha hb

private theorem applied {op : Builtin} (hop : op.arity.accepts 1) (ht : P t) : P (applied op t) := by
  unfold Tree.applied
  split
  · exact hP.number _
  · exact hP.unary hop ht

private theorem squared (ht : P t) : P t.squared := hP.toPower ht (hP.number _)

variable {E : RuntimeError → Prop}

private theorem outerDerivative (hE : ∀ what, E (.notDifferentiable what)) (op : Builtin) (ht : P t) :
    Ends E (outerDerivative op t) P := by
  have h1 : P one := hP.number _
  have hsq := hP.squared ht
  unfold Tree.outerDerivative
  split
  · exact hP.applied rfl ht
  · exact hP.opposite (hP.applied rfl ht)
  · exact hP.dividedBy h1 (hP.squared (hP.applied rfl ht))
  · exact hP.dividedBy h1 (hP.applied rfl (hP.minus h1 hsq))
  · exact hP.opposite (hP.dividedBy h1 (hP.applied rfl (hP.minus h1 hsq)))
  · exact hP.dividedBy h1 (hP.plus h1 hsq)
  · exact hP.applied rfl ht
  · exact hP.applied rfl ht
  · exact hP.dividedBy h1 (hP.squared (hP.applied rfl ht))
  · exact hP.dividedBy h1 (hP.applied rfl (hP.plus hsq h1))
  · exact hP.dividedBy h1 (hP.applied rfl (hP.minus hsq h1))
  · exact hP.dividedBy h1 (hP.minus h1 hsq)
  · exact hP.dividedBy h1 ht
  · exact hP.dividedBy h1 (hP.times ht (hP.number _))
  · exact hP.applied rfl ht
  · exact hP.dividedBy h1 (hP.times (hP.number _) (hP.applied rfl ht))
  · exact hP.dividedBy h1 (hP.times (hP.number _) (hP.squared (hP.applied rfl ht)))
  · exact hP.applied rfl ht
  · exact hE _

private theorem powerRule {base exponent : Tree} (hb : P base) (he : P exponent)
    {base' exponent' : Except RuntimeError Tree} (hb' : Ends E base' P) (he' : Ends E exponent' P) :
    Ends E (powerRule base exponent base' exponent') P := by
  have hlog : P (base.applied .ln) := hP.applied rfl hb
  have hwhole := hP.toPower hb he
  unfold Tree.powerRule
  refine .ite (fun _ => hb'.bind fun d hd => ?_) fun _ => .ite (fun _ => he'.bind fun d hd => ?_) fun _ => ?_
  · exact hP.times (hP.times he (hP.toPower hb (hP.minus he (hP.number _)))) hd
  · exact hP.times (hP.times hwhole hlog) hd
  · refine he'.bind fun d hd => hb'.bind fun d' hd' => ?_
    exact hP.times hwhole (hP.plus (hP.times hd hlog) (hP.dividedBy (hP.times he hd') hb))

end Tree.Structural

namespace Tree.Structural
variable {P : Tree → Prop} {E : RuntimeError → Prop}

mutual

/-- What holds of a tree holds of its derivative, if there is one. -/
theorem derivative (hP : Tree.Structural P) (hE : ∀ what, E (.notDifferentiable what)) :
    (t : Tree) → P t → Ends E t.derivative P
  | .argument 0, _ => hP.number _
  | .literal _, _ | .argument (_ + 1), _ | .globalVariable _, _ => hP.number _
  | .localVariable _, _ | .call _ _, _ | .function _ _, _ => hE _
  | .vector width height cells, ht => by
    unfold Tree.derivative
    refine Ends.map ((derivatives hP hE cells (hP.cells ht)).mono fun ds hds => ?_)
    exact hP.vector ht hds.1 hds.2
  | .builtin op [], _ => hE _
  | .builtin op [a], ht => by
    have ha := hP.operands ht a List.mem_cons_self
    have hd := derivative hP hE a ha
    unfold Tree.derivative
    split
    · exact Ends.map (hd.mono fun _ => hP.opposite)
    iterate 3 exact Ends.map (hd.mono fun _ => hP.applied rfl)
    iterate 5 exact hP.number _
    · refine (hP.outerDerivative hE op ha).bind fun outer ho => hd.bind fun d hd => ?_
      exact hP.times ho hd
  | .builtin op [a, b], ht => by
    have ha := hP.operands ht a (by simp)
    have hb := hP.operands ht b (by simp)
    have hda := derivative hP hE a ha
    have hdb := derivative hP hE b hb
    unfold Tree.derivative
    split
    · exact hda.bind fun d hd => hdb.bind fun d' hd' => hP.plus hd hd'
    · exact hda.bind fun d hd => hdb.bind fun d' hd' => hP.minus hd hd'
    · refine hda.bind fun d hd => hdb.bind fun d' hd' => ?_
      exact hP.plus (hP.times hd hb) (hP.times ha hd')
    · refine hda.bind fun d hd => hdb.bind fun d' hd' => ?_
      exact hP.dividedBy (hP.minus (hP.times hd hb) (hP.times ha hd')) (hP.squared hb)
    · exact hP.powerRule ha hb hda hdb
    · refine hda.bind fun d hd => hdb.bind fun d' hd' => ?_
      exact hP.dividedBy (hP.minus (hP.times hb hd) (hP.times ha hd')) (hP.plus (hP.squared hb) (hP.squared ha))
    · exact hE _
  | .builtin op (_ :: _ :: _ :: _), _ => hE _

theorem derivatives (hP : Tree.Structural P) (hE : ∀ what, E (.notDifferentiable what)) (ts : List Tree)
    (hts : ∀ t ∈ ts, P t) : Ends E (derivatives ts) fun ds => ds.length = ts.length ∧ ∀ d ∈ ds, P d := by
  cases ts with
  | nil => exact ⟨rfl, nofun⟩
  | cons t ts =>
    obtain ⟨ht, hts⟩ := List.forall_mem_cons.mp hts
    unfold Tree.derivatives
    refine (derivative hP hE t ht).bind fun d hd => ?_
    refine (derivatives hP hE ts hts).bind fun ds hds => ?_
    exact ⟨congrArg (· + 1) hds.1, List.forall_mem_cons.mpr ⟨hd, hds.2⟩⟩

end

end Tree.Structural
end Reckoner
