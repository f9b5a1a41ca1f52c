import Reckoner.Eval.Block
import Reckoner.Proofs.Matrix.Cells
import Reckoner.Proofs.Scoping.Basic
import Reckoner.Proofs.Outcome

/-! The builtins that neither call a function nor print: their errors are never those of a tree out of
its scope, and a function among their results was one of the arguments. -/
namespace Reckoner

/-- The errors that only a tree or a block out of its scope can raise. -/
def RuntimeError.isScopeFault : RuntimeError → Bool
  | .invalidSlot .. | .strayLoopControl | .shapeMismatch (.cellCount ..) => true
  | _ => false

abbrev Safe {α : Type} (r : Except RuntimeError α) (Q : α → Prop := fun _ => True) : Prop :=
  Ends (fun e => e.isScopeFault = false) r Q

namespace Number

private theorem commonDimension_safe (operation : Aligned) (a b : Number) :
    Safe (commonDimension operation a b) := by
  unfold commonDimension
  split <;> simp [Ends, RuntimeError.isScopeFault]

private theorem add_safe (a b : Number) : Safe (a.add b) :=
  (commonDimension_safe .add a b).bind fun _ _ => trivial

private theorem sub_safe (a b : Number) : Safe (a.sub b) :=
  (commonDimension_safe .subtract a b).bind fun _ _ => trivial

private theorem div_safe (a b : Number) : Safe (a.div b) := by
  unfold div
  split <;> simp [Ends, RuntimeError.isScopeFault]

private theorem rem_safe (a b : Number) : Safe (a.rem b) := by
  refine (commonDimension_safe .remainder a b).bind fun d _ => ?_
  exact .ite (fun _ => rfl) fun _ => .ite (fun _ => trivial) fun _ => trivial

end Number

private theorem Value.numberBinary_safe (op : Builtin) (a b : Number) : Safe (numberBinary op a b) := by
  unfold numberBinary
  split
  · exact a.add_safe b
  · exact a.sub_safe b
  · trivial
  · exact a.div_safe b
  · exact a.rem_safe b
  all_goals trivial

namespace Matrix

/-- Where there is room, the cells can be counted by a word. -/
theorem room_safe (limit width height : Nat) :
    Safe (room limit width height) fun _ => width * height ≤ 0xffffffffffffffff := by
  simp only [room]
  split
  · exact rfl
  · split
    · exact rfl
    · exact Nat.le_of_not_lt ‹_›

private theorem tabulate_safe {f : Nat → Nat → Except RuntimeError Number} (limit width height : Nat)
    (h : ∀ x y, Safe (f x y)) : Safe (tabulate limit width height f) := by
  refine (room_safe limit width height).bind fun count _ => ?_
  exact (Ends.arrayMapM fun k => h _ _).bind fun _ _ => trivial

private theorem overwrite_safe {f : Nat → Nat → Number → Except RuntimeError Number} (m : Matrix)
    (h : ∀ x y n, Safe (f x y n)) : Safe (m.overwrite f) := by
  rw [overwrite_eq_foldlM]
  exact .map (Ends.foldlM trivial fun _ _ _ _ => .map (h _ _ _))

private theorem filled_safe (limit width height : Nat) (n : Number) : Safe (filled limit width height n) :=
  (room_safe limit width height).bind fun _ _ => trivial

private theorem sum_safe (m : Matrix) : Safe m.sum := by
  unfold sum
  rw [← Array.foldlM_toList]
  exact Ends.foldlM trivial fun a _ b _ => a.add_safe b

private theorem mul_safe (limit : Nat) (a b : Matrix) : Safe (a.mul limit b) := by
  unfold mul
  split
  · exact rfl
  · exact tabulate_safe _ _ _ fun x y => Ends.foldlM trivial fun a _ _ _ => a.add_safe _

private theorem clear_safe (pivotHead : Number) (pivotRest row : List Number) :
    Safe (clear pivotHead pivotRest row) := by
  refine (Number.div_safe _ _).bind fun factor _ => ?_
  exact (Ends.mapM fun _ _ => Number.sub_safe _ _).mono fun _ _ => trivial

private theorem eliminate_safe (n : Nat) (product : Number) (rows : List (List Number)) :
    Safe (eliminate n product rows) := by
  induction n generalizing product rows with
  | zero => trivial
  | succ n ih =>
    simp only [eliminate]
    split
    · trivial
    · exact (Ends.mapM fun _ _ => clear_safe _ _ _).bind fun _ _ => ih _ _

private theorem det_safe (m : Matrix) : Safe m.det := by
  unfold det
  split
  · exact rfl
  · exact eliminate_safe _ _ _

end Matrix

namespace Bignum

private theorem sum_safe (operation : Aligned) (x y right : Bignum) : Safe (sum operation x y right) := by
  unfold sum
  split <;> simp [Ends, RuntimeError.isScopeFault]

private theorem reciprocal_safe (x : Bignum) : Safe x.reciprocal := by
  unfold reciprocal
  simp only
  split <;> simp [Ends, RuntimeError.isScopeFault]

private theorem div_safe (x y : Bignum) : Safe (x.div y) := y.reciprocal_safe.bind fun _ _ => trivial

private theorem pow_safe (x : Bignum) (n : Int) : Safe (x.pow n) := by
  unfold pow
  split
  · exact rfl
  · simp only
    split
    · exact (reciprocal_safe _).bind fun _ _ => trivial
    · trivial

end Bignum

namespace Value

def Plain (v : Value) : Prop := v.kind ≠ .function

private theorem plain_number (n : Number) : (Value.number n).Plain := nofun

private theorem plain_vector (m : Matrix) : (Value.vector m).Plain := nofun

private theorem plain_bignum (x : Bignum) : (Value.bignum x).Plain := nofun

private theorem plain_string (t : Text) : (Value.string t).Plain := nofun

private theorem matrixArg_safe (function : Text) (position : Nat) (v : Value) :
    Safe (matrixArg function position v) := by
  cases v <;> trivial

theorem numberArg_safe (function : Text) (position : Nat) (v : Value) :
    Safe (numberArg function position v) := by
  unfold numberArg
  split
  · trivial
  · exact rfl

private theorem wholeOf_safe (x : Float) : Safe (wholeOf x) := by
  unfold wholeOf
  split
  · exact rfl
  · split
    · exact rfl
    · trivial

private theorem countOf_safe (x : Float) : Safe (countOf x) := by
  refine (wholeOf_safe x).bind fun n _ => ?_
  split
  · exact rfl
  · trivial

private theorem ofCount_safe (n : Nat) : Safe (ofCount n) := by
  unfold ofCount
  split
  · trivial
  · exact rfl

private theorem indexArg_safe (function : Text) (position : Nat) (v : Value) :
    Safe (indexArg function position v) := by
  refine (numberArg_safe function position v).bind fun n _ => ?_
  split
  · exact rfl
  · exact countOf_safe n.re

private theorem elementwise_safe (op : Builtin) (v : Value) : Safe (elementwise op v) Plain := by
  unfold elementwise
  split
  · exact plain_number _
  · exact plain_vector _
  · exact rfl

private theorem negate_safe (v : Value) : Safe (negate v) Plain := by
  cases v with
  | number n => exact plain_number _
  | vector m => exact plain_vector _
  | bignum x => exact plain_bignum _
  | function | string => exact rfl

private theorem combine_safe (op : Builtin) (a b : Matrix) (limit : Nat) : Safe (combine op a b limit) :=
  .ite (fun _ => a.overwrite_safe fun _ _ _ => numberBinary_safe op _ _)
    fun _ => Matrix.tabulate_safe _ _ _ fun _ _ => numberBinary_safe op _ _

private theorem matrix_mapM_safe {f : Number → Except RuntimeError Number} (m : Matrix) (h : ∀ n, Safe (f n)) :
    Safe (m.mapM f) :=
  (Ends.arrayMapM h).bind fun _ _ => trivial

private theorem vectorBinary_safe (op : Builtin) (v w : Value) (limit : Nat) :
    Safe (vectorBinary op v w limit) Plain := by
  unfold vectorBinary
  split
  · exact .map ((numberBinary_safe op _ _).mono fun n _ => plain_number n)
  · refine .map (Ends.mono (Q := fun _ => True) ?_ fun m _ => plain_vector m)
    split
    · exact combine_safe op _ _ limit
    · exact matrix_mapM_safe _ fun _ => numberBinary_safe op _ _
  · refine .map (Ends.mono (Q := fun _ => True) ?_ fun m _ => plain_vector m)
    split
    · exact combine_safe op _ _ limit
    · exact matrix_mapM_safe _ fun _ => numberBinary_safe op _ _
  · exact .map ((combine_safe op _ _ limit).mono fun m _ => plain_vector m)
  · exact rfl
  · exact rfl
  · exact rfl

private theorem promote_safe (op : Builtin) (position : Nat) (v other : Value) :
    Safe (promote op position v other) := by
  unfold promote
  split
  · trivial
  · split
    · trivial
    · exact rfl
  · exact rfl

private theorem bignumExponent_safe (w : Value) : Safe (bignumExponent w) := by
  unfold bignumExponent
  simp only
  split
  · exact wholeOf_safe _
  · exact rfl

private theorem bignumBinary_safe (op : Builtin) (v w : Value) : Safe (bignumBinary op v w) Plain := by
  refine (promote_safe op 1 v w).bind fun x _ => ?_
  split
  · refine (bignumExponent_safe w).bind fun n _ => ?_
    exact (x.pow_safe n).bind fun y _ => plain_bignum y
  · refine (promote_safe op 2 w v).bind fun y _ => ?_
    split
    · exact (Bignum.sum_safe _ _ _ _).bind fun z _ => plain_bignum z
    · exact (Bignum.sum_safe _ _ _ _).bind fun z _ => plain_bignum z
    · exact plain_bignum _
    · exact (x.div_safe y).bind fun z _ => plain_bignum z
    · split <;> exact rfl

private theorem stringBinary_safe (op : Builtin) (v w : Value) : Safe (stringBinary op v w) Plain := by
  unfold stringBinary
  split
  · split <;> exact rfl
  · split
    · exact plain_string _
    · exact rfl
    · exact rfl

private theorem binary_safe (op : Builtin) (v w : Value) (limit : Nat) : Safe (binary op v w limit) Plain := by
  unfold binary
  split
  · exact stringBinary_safe op v w
  · split
    · exact bignumBinary_safe op v w
    · exact vectorBinary_safe op v w limit

private theorem transpose_safe (v : Value) : Safe (transpose v) Plain := by
  cases v with
  | number n => exact plain_number _
  | vector m => exact plain_vector _
  | function | bignum | string => exact rfl

private theorem width_safe (v : Value) : Safe (width v) Plain :=
  (matrixArg_safe _ _ v).bind fun _ _ => (ofCount_safe _).bind fun _ _ => plain_number _

private theorem height_safe (v : Value) : Safe (height v) Plain :=
  (matrixArg_safe _ _ v).bind fun _ _ => (ofCount_safe _).bind fun _ _ => plain_number _

private theorem sum_safe (v : Value) : Safe (sum v) Plain :=
  (matrixArg_safe _ _ v).bind fun m _ => m.sum_safe.bind fun n _ => plain_number n

private theorem length_plain (v : Value) : v.length.Plain := by
  cases v <;> exact plain_number _

private theorem get_safe (v column row : Value) : Safe (get v column row) Plain := by
  refine (matrixArg_safe _ _ v).bind fun m _ => ?_
  refine (indexArg_safe _ _ column).bind fun x _ => (indexArg_safe _ _ row).bind fun y _ => ?_
  refine .ite (fun _ => rfl) fun _ => ?_
  dsimp only
  split
  · exact plain_number _
  · exact rfl

private theorem fill_safe (v columns rows : Value) (limit : Nat) : Safe (fill v columns rows limit) Plain := by
  refine (numberArg_safe _ _ v).bind fun n _ => ?_
  refine (indexArg_safe _ _ columns).bind fun w _ => (indexArg_safe _ _ rows).bind fun h _ => ?_
  exact (Matrix.filled_safe limit w h n).bind fun m _ => plain_vector m

private theorem identity_safe (v : Value) (limit : Nat) : Safe (identity v limit) Plain := by
  refine (indexArg_safe _ _ v).bind fun n _ => ?_
  exact (Matrix.tabulate_safe (f := fun x y => .ok (if x = y then .one else .zero)) limit n n
    fun _ _ => trivial).bind fun m _ => plain_vector m

private theorem determinant_safe (v : Value) : Safe (determinant v) Plain :=
  (matrixArg_safe _ _ v).bind fun m _ => m.det_safe.bind fun n _ => plain_number n

private theorem product_safe (v w : Value) (limit : Nat) : Safe (product v w limit) Plain :=
  (matrixArg_safe _ _ v).bind fun a _ => (matrixArg_safe _ _ w).bind fun b _ =>
    (a.mul_safe limit b).bind fun m _ => plain_vector m

private theorem substring_safe (v start length : Value) : Safe (substring v start length) Plain := by
  cases v with
  | string t =>
    refine (indexArg_safe _ _ start).bind fun n _ => (indexArg_safe _ _ length).bind fun k _ => ?_
    exact .ite (fun _ => rfl) fun _ => .ite (fun _ => rfl) fun _ => plain_string _
  | number | vector | function | bignum => exact rfl

private theorem toBignum_safe (precision : Nat) (v : Value) : Safe (toBignum precision v) Plain := by
  cases v with
  | bignum x => exact plain_bignum x
  | number n =>
    simp only [toBignum, pure_bind]
    cases Bignum.ofNumber precision n with
    | some x => exact plain_bignum x
    | none => exact rfl
  | string t =>
    simp only [toBignum, pure_bind]
    cases Bignum.parse 10 precision t with
    | some x => exact plain_bignum x
    | none => exact rfl
  | vector | function => exact rfl

private theorem toNumber_safe (v : Value) : Safe (toNumber v) Plain := by
  cases v with
  | number n => exact plain_number n
  | bignum x => exact plain_number _
  | string t =>
    simp only [toNumber]
    split
    · exact plain_number _
    · exact rfl
  | vector | function => exact rfl

theorem foldl_better_mem (which : Extremum) (best : Value) (vs : List Value) :
    vs.foldl (better which) best ∈ best :: vs := by
  induction vs generalizing best with
  | nil => exact List.mem_cons_self
  | cons v vs ih =>
    have hb : better which best v = v ∨ better which best v = best := ite_eq_or_eq ..
    rw [List.foldl_cons]
    rcases List.mem_cons.mp (ih (better which best v)) with h | h
    · rw [h]
      rcases hb with hb | hb <;> simp [hb]
    · exact List.mem_cons_of_mem _ (List.mem_cons_of_mem _ h)

/-- The smallest or largest of some values is one of them. -/
private theorem extremum_safe (which : Extremum) (args : List Value) : Safe (extremum which args) (· ∈ args) := by
  cases args with
  | nil => exact rfl
  | cons v vs => exact foldl_better_mem which v vs

private theorem one_safe {Q : Value → Prop} {f : Value → Except RuntimeError Value} (op : Builtin) (args : List Value)
    (h : ∀ v, Safe (f v) Q) : Safe (one op args f) Q := by
  unfold one
  split
  · exact h _
  · exact rfl

private theorem two_safe {Q : Value → Prop} {f : Value → Value → Except RuntimeError Value} (op : Builtin)
    (args : List Value) (h : ∀ v w, Safe (f v w) Q) : Safe (two op args f) Q := by
  unfold two
  split
  · exact h _ _
  · exact rfl

private theorem three_safe {Q : Value → Prop} {f : Value → Value → Value → Except RuntimeError Value}
    (op : Builtin) (args : List Value) (h : ∀ u v w, Safe (f u v w) Q) : Safe (three op args f) Q := by
  unfold three
  split
  · exact h _ _ _
  · exact rfl

/-- A builtin makes no function value: one among its results was an argument. -/
theorem applyBuiltin_safe (config : Config) (op : Builtin) (args : List Value) :
    Safe (applyBuiltin config op args) fun v => v.Plain ∨ v ∈ args := by
  have plain {r : Except RuntimeError Value} (h : Safe r Plain) : Safe r fun v => v.Plain ∨ v ∈ args :=
    h.mono fun _ => .inl
  unfold applyBuiltin
  split
  iterate 10 exact plain (two_safe _ args fun v w => binary_safe _ v w _)
  · exact plain (one_safe _ args negate_safe)
  iterate 6 exact plain (two_safe _ args fun _ _ => plain_number _)
  · exact plain (one_safe _ args transpose_safe)
  · exact plain (one_safe _ args determinant_safe)
  · exact plain (one_safe _ args width_safe)
  · exact plain (one_safe _ args height_safe)
  · exact plain (one_safe _ args sum_safe)
  · exact plain (one_safe _ args length_plain)
  · exact plain (three_safe _ args get_safe)
  · exact plain (three_safe _ args fun u v w => fill_safe u v w _)
  · exact plain (one_safe _ args fun v => identity_safe v _)
  · exact plain (two_safe _ args fun v w => product_safe v w _)
  · exact (extremum_safe _ args).mono fun _ => .inr
  · exact (extremum_safe _ args).mono fun _ => .inr
  · exact plain (one_safe _ args fun _ => plain_string _)
  · exact plain (three_safe _ args substring_safe)
  · exact plain (one_safe _ args (toBignum_safe _))
  · exact plain (one_safe _ args toNumber_safe)
  · exact plain (one_safe _ args (elementwise_safe _))

end Value
end Reckoner
