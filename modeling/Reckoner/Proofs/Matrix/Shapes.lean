import Reckoner.Proofs.Matrix.Combination
import Reckoner.Proofs.Scoping.Builtins

/-! The cells of every vector fill its shape: what is made of vectors for which that holds are such vectors again, and
so are the vectors that builtins make of anything else. -/
namespace Reckoner

mutual

/-- The cells of every vector in the value fill its shape, also of those that functions captured and of those in the
literals of their bodies. -/
def Value.Shaped : Value → Prop
  | .vector m => m.WellFormed
  | .function ⟨_, _, body⟩ captured => Block.Shaped body ∧ Value.AllShaped captured
  | .number _ | .bignum _ | .string _ => True

def Value.AllShaped : List Value → Prop
  | [] => True
  | v :: vs => Value.Shaped v ∧ Value.AllShaped vs

def Tree.Shaped : Tree → Prop
  | .literal v => Value.Shaped v
  | .builtin _ args | .call _ args => Tree.AllShaped args
  | .argument _ | .localVariable _ | .globalVariable _ => True
  | .vector _ _ cells => Tree.AllShaped cells
  | .function ⟨_, _, body⟩ _ => Block.Shaped body

def Tree.AllShaped : List Tree → Prop
  | [] => True
  | t :: ts => Tree.Shaped t ∧ Tree.AllShaped ts

def Action.Shaped : Action → Prop
  | .compute t | .giveBack t | .assign _ t => Tree.Shaped t
  | .when condition body | .loop condition body => Tree.Shaped condition ∧ Block.Shaped body
  | .otherwise body => Block.Shaped body
  | .leaveLoop | .nextRound => True

def Action.AllShaped : List Action → Prop
  | [] => True
  | a :: rest => Action.Shaped a ∧ Action.AllShaped rest

def Block.Shaped : Block → Prop
  | ⟨actions, _, _, _⟩ => Action.AllShaped actions

end

theorem Value.allShaped_iff {vs : List Value} : AllShaped vs ↔ ∀ v ∈ vs, v.Shaped := by
  induction vs with
  | nil => simp [AllShaped]
  | cons v vs ih => simp [AllShaped, ih]

abbrev Makes {α : Type} (r : Except RuntimeError α) (Q : α → Prop) : Prop := Ends (fun _ => True) r Q

private theorem Makes.any {α : Type} (r : Except RuntimeError α) : Makes r fun _ => True := by
  cases r <;> trivial

namespace Matrix
variable {m : Matrix}

theorem ofCells?_wellFormed {width height : Nat} {cells : Array Number} (h : ofCells? width height cells = some m) :
    m.WellFormed := by
  unfold ofCells? at h
  split at h
  · rename_i hcells
    cases h
    exact hcells.1.symm
  · cases h

private theorem rowByRow_wellFormed (width height : Nat) (f : Nat → Nat → Except RuntimeError Number) :
    Makes (rowByRow width height f) WellFormed := by
  have hcomes := rowByRow_comesTo width height f
  cases hrow : rowByRow width height f with
  | error e => trivial
  | ok m =>
    rw [hrow] at hcomes
    exact hcomes.2.2.1

private theorem tabulate_wellFormed (limit width height : Nat) (f : Nat → Nat → Except RuntimeError Number) :
    Makes (tabulate limit width height f) WellFormed := by
  cases hroom : room limit width height with
  | error e =>
    rw [tabulate_error f hroom]
    trivial
  | ok count =>
    rw [tabulate_eq f hroom]
    exact rowByRow_wellFormed width height f

private theorem scalar_wellFormed (n : Number) : (scalar n).WellFormed := rfl

private theorem filled_wellFormed (limit width height : Nat) (n : Number) :
    Makes (filled limit width height n) WellFormed := by
  unfold filled
  cases hroom : room limit width height with
  | error e => trivial
  | ok count => exact Array.size_replicate.trans (room_eq hroom).1

theorem transpose_wellFormed (hm : m.WellFormed) : m.transpose.WellFormed := by
  have hsize : m.cells.size = m.height * m.width := hm.trans (Nat.mul_comm _ _)
  simpa [WellFormed, transpose] using hsize

private theorem map_wellFormed (hm : m.WellFormed) (f : Number → Number) :
    (m.map f).WellFormed := Array.size_map.trans hm

private theorem mapM_wellFormed (hm : m.WellFormed) (f : Number → Except RuntimeError Number) :
    Makes (m.mapM f) WellFormed := mapM_eq hm f ▸ rowByRow_wellFormed _ _ _

private theorem combine_wellFormed {a b : Matrix} (ha : a.WellFormed) (limit : Nat) (extent : Extent)
    (f : Number → Number → Except RuntimeError Number) : Makes (a.combine limit extent f b) WellFormed :=
  .ite (fun _ => overwrite_eq ha _ ▸ rowByRow_wellFormed _ _ _) fun _ => tabulate_wellFormed _ _ _ _

private theorem mul_wellFormed (limit : Nat) (a b : Matrix) : Makes (a.mul limit b) WellFormed :=
  .ite (fun _ => trivial) fun _ => tabulate_wellFormed _ _ _ _

end Matrix

namespace Value

private theorem elementwise_shaped (op : Builtin) {v : Value} (hv : v.Shaped) : Makes (elementwise op v) Shaped := by
  unfold elementwise
  split
  · trivial
  · exact Matrix.map_wellFormed hv _
  · trivial

private theorem negate_shaped {v : Value} (hv : v.Shaped) : Makes (negate v) Shaped := by
  cases v with
  | vector m => exact Matrix.map_wellFormed hv _
  | number | function | bignum | string => trivial

private theorem vectorBinary_shaped (op : Builtin) {v w : Value} (hv : v.Shaped) (hw : w.Shaped) (limit : Nat) :
    Makes (vectorBinary op v w limit) Shaped := by
  unfold vectorBinary
  split
  · exact .map ((Makes.any _).mono fun _ _ => trivial)
  · exact .map (.ite (fun _ => Matrix.combine_wellFormed (Matrix.scalar_wellFormed _) _ _ _)
      fun _ => Matrix.mapM_wellFormed hw _)
  · exact .map (.ite (fun _ => Matrix.combine_wellFormed hv _ _ _) fun _ => Matrix.mapM_wellFormed hv _)
  · exact .map (Matrix.combine_wellFormed hv _ _ _)
  all_goals trivial

private theorem bignumBinary_shaped (op : Builtin) (v w : Value) : Makes (bignumBinary op v w) Shaped := by
  refine (Makes.any _).bind fun x _ => ?_
  split
  · exact (Makes.any _).bind fun _ _ => (Makes.any _).bind fun _ _ => trivial
  · refine (Makes.any _).bind fun y _ => ?_
    split
    any_goals exact (Makes.any _).bind fun _ _ => trivial
    · trivial
    · split <;> trivial

private theorem stringBinary_shaped (op : Builtin) (v w : Value) : Makes (stringBinary op v w) Shaped := by
  unfold stringBinary
  split
  · split <;> trivial
  · split <;> trivial

private theorem binary_shaped (op : Builtin) {v w : Value} (hv : v.Shaped) (hw : w.Shaped) (limit : Nat) :
    Makes (binary op v w limit) Shaped :=
  .ite (fun _ => stringBinary_shaped op v w) fun _ =>
    .ite (fun _ => bignumBinary_shaped op v w) fun _ => vectorBinary_shaped op hv hw limit

private theorem transpose_shaped {v : Value} (hv : v.Shaped) : Makes (transpose v) Shaped := by
  cases v with
  | vector m => exact Matrix.transpose_wellFormed hv
  | number | function | bignum | string => trivial

private theorem get_shaped (v column row : Value) : Makes (get v column row) Shaped := by
  refine (Makes.any _).bind fun m _ => (Makes.any _).bind fun x _ => (Makes.any _).bind fun y _ => ?_
  refine .ite (fun _ => trivial) fun _ => ?_
  dsimp only
  split <;> trivial

private theorem fill_shaped (v columns rows : Value) (limit : Nat) : Makes (fill v columns rows limit) Shaped :=
  (Makes.any _).bind fun n _ => (Makes.any _).bind fun width _ => (Makes.any _).bind fun height _ =>
    (Matrix.filled_wellFormed limit width height n).bind fun _ hm => hm

private theorem identity_shaped (v : Value) (limit : Nat) : Makes (identity v limit) Shaped :=
  (Makes.any _).bind fun n _ => (Matrix.tabulate_wellFormed limit n n _).bind fun _ hm => hm

private theorem product_shaped (v w : Value) (limit : Nat) : Makes (product v w limit) Shaped :=
  (Makes.any _).bind fun a _ => (Makes.any _).bind fun b _ => (Matrix.mul_wellFormed limit a b).bind fun _ hm => hm

private theorem substring_shaped (v start length : Value) : Makes (substring v start length) Shaped := by
  cases v with
  | string t =>
    refine (Makes.any _).bind fun n _ => (Makes.any _).bind fun k _ => ?_
    exact .ite (fun _ => trivial) fun _ => .ite (fun _ => trivial) fun _ => trivial
  | number | vector | function | bignum => trivial

private theorem toBignum_shaped (precision : Nat) (v : Value) : Makes (toBignum precision v) Shaped := by
  cases v with
  | bignum x => trivial
  | number n =>
    simp only [toBignum, pure_bind]
    cases Bignum.ofNumber precision n <;> trivial
  | string t =>
    simp only [toBignum, pure_bind]
    cases Bignum.parse 10 precision t <;> trivial
  | vector | function => trivial

private theorem toNumber_shaped (v : Value) : Makes (toNumber v) Shaped := by
  unfold toNumber
  split
  · trivial
  · trivial
  · split <;> trivial
  · trivial

private theorem extremum_shaped (which : Extremum) {args : List Value} (ha : ∀ v ∈ args, v.Shaped) :
    Makes (extremum which args) Shaped := by
  cases args with
  | nil => trivial
  | cons v vs => exact ha _ (foldl_better_mem which v vs)

section
variable {args : List Value} (op : Builtin) (ha : ∀ v ∈ args, v.Shaped)
include ha

private theorem one_shaped {f : Value → Except RuntimeError Value} (h : ∀ v, v.Shaped → Makes (f v) Shaped) :
    Makes (one op args f) Shaped := by
  unfold one
  split
  · exact h _ (ha _ List.mem_cons_self)
  · trivial

private theorem two_shaped {f : Value → Value → Except RuntimeError Value}
    (h : ∀ v w, v.Shaped → w.Shaped → Makes (f v w) Shaped) : Makes (two op args f) Shaped := by
  unfold two
  split
  · exact h _ _ (ha _ List.mem_cons_self) (ha _ (List.mem_cons_of_mem _ List.mem_cons_self))
  · trivial

end

private theorem three_shaped {f : Value → Value → Value → Except RuntimeError Value} (op : Builtin) (args : List Value)
    (h : ∀ u v w, Makes (f u v w) Shaped) : Makes (three op args f) Shaped := by
  unfold three
  split
  · exact h _ _ _
  · trivial

/-- What a builtin makes of its arguments has no vector but such whose cells fill the shape. -/
theorem applyBuiltin_shaped (config : Config) (op : Builtin) {args : List Value} (ha : ∀ v ∈ args, v.Shaped) :
    Makes (applyBuiltin config op args) Shaped := by
  have hnumber {r : Except RuntimeError Number} : Makes (do return .number (← r)) Shaped :=
    (Makes.any r).bind fun _ _ => trivial
  unfold applyBuiltin
  split
  iterate 10 exact two_shaped _ ha fun _ _ hv hw => binary_shaped _ hv hw _
  · exact one_shaped _ ha fun _ => negate_shaped
  iterate 6 exact two_shaped _ ha fun _ _ _ _ => trivial
  · exact one_shaped _ ha fun _ => transpose_shaped
  · exact one_shaped _ ha fun _ _ => (Makes.any _).bind fun _ _ => hnumber
  · exact one_shaped _ ha fun _ _ => (Makes.any _).bind fun _ _ => (Makes.any _).bind fun _ _ => trivial
  · exact one_shaped _ ha fun _ _ => (Makes.any _).bind fun _ _ => (Makes.any _).bind fun _ _ => trivial
  · exact one_shaped _ ha fun _ _ => (Makes.any _).bind fun _ _ => hnumber
  · exact one_shaped _ ha fun v _ => by cases v <;> trivial
  · exact three_shaped _ args get_shaped
  · exact three_shaped _ args fun u v w => fill_shaped u v w _
  · exact one_shaped _ ha fun v _ => identity_shaped v _
  · exact two_shaped _ ha fun v w _ _ => product_shaped v w _
  · exact extremum_shaped _ ha
  · exact extremum_shaped _ ha
  · exact one_shaped _ ha fun _ _ => trivial
  · exact three_shaped _ args substring_shaped
  · exact one_shaped _ ha fun v _ => toBignum_shaped _ v
  · exact one_shaped _ ha fun v _ => toNumber_shaped v
  · exact one_shaped _ ha fun _ => elementwise_shaped _

end Value
end Reckoner
