import Reckoner.Proofs.Differentiation.Folds

/-! The derivative over exact numbers. Every rule is sound for trees that have a value, together with the
simplifications it makes on the way, as long as what is carried out on literals is exact there. -/
namespace Reckoner.Tree

variable {args : List Rat} {t : Tree} {r : Rat}

/-- A test of a literal holds of no other tree. -/
private theorem exists_of_any {p : Number → Bool} (h : t.number?.any p = true) : ∃ n, t = .number n ∧ p n = true := by
  cases hn : t.number? with
  | none =>
    rw [hn] at h
    cases h
  | some n =>
    rw [hn] at h
    exact ⟨n, number?_eq_some.mp hn, h⟩

private theorem value?_of_isZero (h : t.isZero = true) : t.value? (.rational args) = some 0 := by
  obtain ⟨n, rfl, hzero⟩ := exists_of_any h
  rw [value?_number, Number.rational?_eq_zero.mpr hzero]

private theorem value?_of_isOne (h : t.isOne = true) : t.value? (.rational args) = some 1 := by
  obtain ⟨n, rfl, hone⟩ := exists_of_any h
  rw [value?_number, Number.rational?_eq_one hone]

private theorem value?_zero : Tree.zero.value? (.rational args) = some 0 := by
  rw [Tree.zero, value?_number, Number.zero, Number.rational?_real, Binary64.rational?_zero]

private theorem value?_one : Tree.one.value? (.rational args) = some 1 := by
  rw [Tree.one, value?_number, Number.one, Number.rational?_real, Binary64.rational?_one]

/-- An operation on literals does not look at the arguments. -/
private theorem value?_literals (op : Builtin) (x y : Number) (args args' : List Rat) :
    (builtin op [.number x, .number y]).value? (.rational args) =
      (builtin op [.number x, .number y]).value? (.rational args') := by
  cases op <;> rfl

private theorem integer?_two : (ofFloat 2).integer? = some 2 := by
  have hvalue : (Number.real 2).rational? = some ((2 : Int) : Rat) := by
    rw [Number.rational?_real, Binary64.rational?_two, Int.cast_ofNat]
  exact Number.integer?_eq_some.mpr hvalue

private theorem opposite_value (h : t.value? (.rational args) = some r) :
    t.opposite.value? (.rational args) = some (-r) := by
  fun_cases opposite t with
  | case1 n =>
    have hvalue := (value?_number n).symm.trans h
    rw [value?_number, Number.rational?_neg, hvalue, Option.map_some]
  | case2 a =>
    rw [value?] at h
    obtain ⟨s, ha, hs⟩ := Option.bind_eq_some_iff.mp h
    rw [ha, ← Option.some.inj hs, neg_neg]
  | case3 =>
    rw [value?, h]
    rfl

end Reckoner.Tree

namespace Reckoner.Recorded
open Reckoner.Tree

variable {α β : Type}

/-- When all folds are exact, there is a result, and it has a property. -/
def Yields (x : Recorded α) (Q : α → Prop) : Prop :=
  (∀ f ∈ x.folds, f.Exact) → ∃ a, x.result = .ok a ∧ Q a

namespace Yields
variable {x y : Recorded α} {Q : α → Prop} {R : β → Prop}

private theorem pure {a : α} (h : Q a) : Yields (pure a) Q := fun _ => ⟨a, rfl, h⟩

private theorem bind {next : α → Recorded β} (hx : x.Yields Q) (hnext : ∀ a, Q a → (next a).Yields R) :
    (x >>= next).Yields R := by
  intro hexact
  obtain ⟨result, folds⟩ := x
  cases result with
  | error e =>
    obtain ⟨_, hresult, _⟩ := hx hexact
    cases hresult
  | ok a =>
    obtain ⟨hfirst, hlater⟩ := List.forall_mem_append.mp hexact
    obtain ⟨_, hresult, ha⟩ := hx hfirst
    exact hnext a (Except.ok.inj hresult ▸ ha) hlater

private theorem ite {c : Bool} (hx : c = true → x.Yields Q) (hy : c = false → y.Yields Q) :
    (if c then x else y).Yields Q := by
  cases c
  · exact hy rfl
  · exact hx rfl

end Yields

variable {args : List Rat} {a b : Tree} {r s v : Rat} {k : Int}

/-! ### Simplifications -/

private theorem folded_yields {op : Builtin} (h : (builtin op [a, b]).value? (.rational args) = some v) :
    (folded op a b).Yields fun t => t.value? (.rational args) = some v := by
  rw [folded]
  cases ha : a.number? with
  | none => exact .pure h
  | some x =>
    cases hb : b.number? with
    | none => exact .pure h
    | some y =>
      cases hfold : Value.numberBinary op x y with
      | error e =>
        simp only [hfold]
        exact .pure h
      | ok n =>
        simp only [hfold]
        intro hexact
        rw [number?_eq_some.mp ha, number?_eq_some.mp hb, value?_literals op x y args []] at h
        exact ⟨_, rfl, (value?_number n).trans (hexact ⟨op, x, y, n⟩ (List.mem_singleton_self _) v h)⟩

private theorem plus_yields (ha : a.value? (.rational args) = some r) (hb : b.value? (.rational args) = some s) :
    (plus a b).Yields fun t => t.value? (.rational args) = some (r + s) := by
  refine .ite (fun hzero => .pure ?_) fun _ => .ite (fun hzero => .pure ?_) fun _ => folded_yields ?_
  · obtain rfl := Option.some.inj (ha.symm.trans (value?_of_isZero hzero))
    rw [hb, zero_add]
  · obtain rfl := Option.some.inj (hb.symm.trans (value?_of_isZero hzero))
    rw [ha, add_zero]
  · rw [value?, ha, hb]
    rfl

private theorem minus_yields (ha : a.value? (.rational args) = some r) (hb : b.value? (.rational args) = some s) :
    (minus a b).Yields fun t => t.value? (.rational args) = some (r - s) := by
  refine .ite (fun hzero => .pure ?_) fun _ => .ite (fun hzero => .pure ?_) fun _ => folded_yields ?_
  · obtain rfl := Option.some.inj (hb.symm.trans (value?_of_isZero hzero))
    rw [ha, sub_zero]
  · obtain rfl := Option.some.inj (ha.symm.trans (value?_of_isZero hzero))
    rw [opposite_value hb, zero_sub]
  · rw [value?, ha, hb]
    rfl

private theorem times_yields (ha : a.value? (.rational args) = some r) (hb : b.value? (.rational args) = some s) :
    (times a b).Yields fun t => t.value? (.rational args) = some (r * s) := by
  refine .ite (fun hzero => .pure ?_) fun _ => .ite (fun hone => .pure ?_) fun _ => .ite (fun hone => .pure ?_)
    fun _ => folded_yields ?_
  · rcases Bool.or_eq_true_iff.mp hzero with hzero | hzero
    · obtain rfl := Option.some.inj (ha.symm.trans (value?_of_isZero hzero))
      rw [value?_zero, zero_mul]
    · obtain rfl := Option.some.inj (hb.symm.trans (value?_of_isZero hzero))
      rw [value?_zero, mul_zero]
  · obtain rfl := Option.some.inj (ha.symm.trans (value?_of_isOne hone))
    rw [hb, one_mul]
  · obtain rfl := Option.some.inj (hb.symm.trans (value?_of_isOne hone))
    rw [ha, mul_one]
  · rw [value?, ha, hb]
    rfl

private theorem dividedBy_yields (ha : a.value? (.rational args) = some r) (hb : b.value? (.rational args) = some s)
    (hs : s ≠ 0) : (dividedBy a b).Yields fun t => t.value? (.rational args) = some (r / s) := by
  refine .ite (fun hzero => .pure ?_) fun _ => .ite (fun hone => .pure ?_) fun _ => folded_yields ?_
  · obtain rfl := Option.some.inj (ha.symm.trans (value?_of_isZero hzero))
    rw [value?_zero, zero_div]
  · obtain rfl := Option.some.inj (hb.symm.trans (value?_of_isOne hone))
    rw [ha, div_one]
  · rw [value?, ha, hb, div_eq_mul_inv]
    simp only [Option.bind_eq_bind, Option.bind_some, Reading.inverse?_rational.mpr ⟨hs, rfl⟩]
    rfl

private theorem toPower_yields (ha : a.value? (.rational args) = some r) (hb : b.integer? = some k)
    (hk : 0 ≤ k ∨ r ≠ 0) :
    (toPower a b).Yields fun t => t.value? (.rational args) = some (r ^ k) := by
  obtain ⟨n, rfl, hn⟩ := integer?_eq_some hb
  have hvalue : (Tree.number n).value? (.rational args) = some (k : Rat) := (value?_number n).trans hn
  refine .ite (fun hzero => .pure ?_) fun _ => .ite (fun hone => .pure ?_) fun _ => folded_yields ?_
  · have h0 : (k : Rat) = 0 := Option.some.inj (hvalue.symm.trans (value?_of_isZero hzero))
    rw [value?_one, Int.cast_eq_zero.mp h0, zpow_zero]
  · have h1 : (k : Rat) = 1 := Option.some.inj (hvalue.symm.trans (value?_of_isOne hone))
    rw [ha, Int.cast_eq_one.mp h1, zpow_one]
  · rw [value?, ha, hb, Option.bind_eq_bind, Option.bind_some]
    exact Reading.power?_rational.mpr ⟨hk, rfl⟩

/-- The exponent of a power goes down by one, and stays a literal. -/
private theorem minus_one_yields (hb : b.integer? = some k) (hk : k ≠ 0) :
    (minus b .one).Yields fun t => t.integer? = some (k - 1) := by
  obtain ⟨n, rfl, hn⟩ := integer?_eq_some hb
  have hsub : ∃ m, Value.numberBinary .sub n .one = .ok m := by
    have hdimension : Number.commonDimension .subtract n .one = .ok .dimensionless := by
      rw [Number.commonDimension, Number.dimension_eq hn]
      rfl
    exact ⟨_, by rw [Value.numberBinary, Number.sub, hdimension]; rfl⟩
  obtain ⟨m, hm⟩ := hsub
  refine .ite (fun hzero => ?_) fun _ => .ite (fun hzero => ?_) fun _ => ?_
  · have hvalue : Tree.one.value? (.rational []) = some 0 := value?_of_isZero hzero
    exact absurd (Option.some.inj (value?_one.symm.trans hvalue)) one_ne_zero
  · have hvalue : (Tree.number n).value? (.rational []) = some 0 := value?_of_isZero hzero
    rw [value?_number, hn, Option.some.injEq] at hvalue
    exact absurd (Int.cast_eq_zero.mp hvalue) hk
  · intro hexact
    have hfolded : folded .sub (.number n) .one = ⟨.ok (.number m), [⟨.sub, n, .one, m⟩]⟩ := by
      rw [folded, Tree.one, number?_eq_some.mpr rfl, number?_eq_some.mpr rfl]
      simp only [hm]
    rw [hfolded] at hexact ⊢
    refine ⟨_, rfl, Number.integer?_eq_some.mpr ?_⟩
    have hvalue : (Fold.tree ⟨.sub, n, .one, m⟩).value? (.rational []) = some ((k : Rat) - 1) := by
      have hone : (Tree.number .one).value? (.rational []) = some 1 := value?_one
      rw [Fold.tree, value?, value?_number, hn, hone]
      rfl
    rw [hexact _ (List.mem_singleton_self _) _ hvalue, Int.cast_sub, Int.cast_one]

/-! ### Rules -/

private theorem productRule_yields {x y : Recorded Tree} {r' s' : Rat} (ha : a.value? (.rational args) = some r)
    (hb : b.value? (.rational args) = some s) (hx : x.Yields fun d => d.value? (.rational args) = some r')
    (hy : y.Yields fun d => d.value? (.rational args) = some s') :
    (productRule a b x y).Yields fun d => d.value? (.rational args) = some (r' * s + r * s') := by
  refine hx.bind fun d hd => (times_yields hd hb).bind fun left hleft => ?_
  exact hy.bind fun e he => (times_yields ha he).bind fun right hright => plus_yields hleft hright

private theorem quotientRule_yields {x y : Recorded Tree} {r' s' : Rat} (ha : a.value? (.rational args) = some r)
    (hb : b.value? (.rational args) = some s) (hs : s ≠ 0)
    (hx : x.Yields fun d => d.value? (.rational args) = some r')
    (hy : y.Yields fun d => d.value? (.rational args) = some s') :
    (quotientRule a b x y).Yields fun d => d.value? (.rational args) = some ((r' * s - r * s') / s ^ (2 : Int)) := by
  refine hx.bind fun d hd => (times_yields hd hb).bind fun left hleft => ?_
  refine hy.bind fun e he => (times_yields ha he).bind fun right hright => ?_
  refine (minus_yields hleft hright).bind fun numerator hnumerator => ?_
  refine (toPower_yields hb integer?_two (.inr hs)).bind fun square hsquare => ?_
  exact dividedBy_yields hnumerator hsquare (zpow_ne_zero 2 hs)

/-- The rule for a constant exponent. For the exponent zero, the lowered power may have no value; it is dropped. -/
private theorem powerRule_yields {x : Recorded Tree} (ha : a.value? (.rational args) = some r)
    (hb : b.integer? = some k)
    (hk : 0 ≤ k ∨ r ≠ 0) (hx : x.Yields fun d => d.value? (.rational args) = some s) :
    (powerRule a b x).Yields fun d => d.value? (.rational args) = some (k * r ^ (k - 1) * s) := by
  obtain ⟨n, rfl, hn⟩ := integer?_eq_some hb
  rw [powerRule]
  by_cases hzero : k = 0
  · subst hzero
    have hdropped : (Tree.number n).isZero = true := Number.rational?_eq_zero.mp hn
    have hminus : (minus (.number n) .one).Yields fun _ => True := fun _ => ⟨_, result_minus .., trivial⟩
    refine hminus.bind fun m _ => ?_
    have hpower : (toPower a m).Yields fun _ => True := fun _ => ⟨_, result_toPower .., trivial⟩
    refine hpower.bind fun lowered _ => ?_
    have houter : (times (.number n) lowered).Yields fun d => d.value? (.rational args) = some 0 := by
      rw [times, hdropped, Bool.true_or]
      exact .pure value?_zero
    refine houter.bind fun outer houter => hx.bind fun d hd => ?_
    rw [Int.cast_zero, zero_mul]
    exact times_yields houter hd
  · refine (minus_one_yields hb hzero).bind fun m hm => ?_
    refine (toPower_yields ha hm (hk.imp_left (by omega))).bind fun lowered hlowered => ?_
    refine (times_yields ((value?_number n).trans hn) hlowered).bind fun outer houter => ?_
    exact hx.bind fun d hd => times_yields houter hd

/-! ### The derivative -/

/-- A tree with a value has one over the dual numbers, and its derivative has the coefficient of epsilon there. -/
private theorem derivative_yields (h : t.value? (.rational args) = some v) :
    ∃ z, t.value? (.dual args) = some z ∧ z.fst = v ∧
      (derivative t).Yields fun d => d.value? (.rational args) = some z.snd := by
  induction t using value?.induct generalizing v with
  | case1 n =>
    have hn := (value?_number n).symm.trans h
    refine ⟨TrivSqZeroExt.inl v, ?_, rfl, fun _ => ⟨.zero, rfl, value?_zero⟩⟩
    rw [value?, hn]
    rfl
  | case2 index =>
    have hargument : args[index]? = some v := h
    refine ⟨_, by rw [value?, Reading.dual, List.getElem?_mapIdx, hargument, Option.map_some], ?_⟩
    cases index with
    | zero => exact ⟨by simp, fun _ => ⟨.one, rfl, by simp [value?_one]⟩⟩
    | succ index => exact ⟨by simp, fun _ => ⟨.zero, rfl, by simp [value?_zero]⟩⟩
  | case3 a ih =>
    rw [value?] at h
    obtain ⟨r, ha, hv⟩ := Option.bind_eq_some_iff.mp h
    obtain ⟨z, hz, rfl, hda⟩ := ih ha
    refine ⟨-z, by rw [value?, hz]; rfl, Option.some.inj hv, ?_⟩
    rw [derivative]
    exact hda.bind fun d hd => .pure (opposite_value hd)
  | case4 a b iha ihb =>
    rw [value?] at h
    obtain ⟨r, ha, h⟩ := Option.bind_eq_some_iff.mp h
    obtain ⟨s, hb, hv⟩ := Option.bind_eq_some_iff.mp h
    obtain ⟨z, hz, rfl, hda⟩ := iha ha
    obtain ⟨w, hw, rfl, hdb⟩ := ihb hb
    refine ⟨z + w, by rw [value?, hz, hw]; rfl, Option.some.inj hv, ?_⟩
    rw [derivative]
    exact hda.bind fun d hd => hdb.bind fun e he => plus_yields hd he
  | case5 a b iha ihb =>
    rw [value?] at h
    obtain ⟨r, ha, h⟩ := Option.bind_eq_some_iff.mp h
    obtain ⟨s, hb, hv⟩ := Option.bind_eq_some_iff.mp h
    obtain ⟨z, hz, rfl, hda⟩ := iha ha
    obtain ⟨w, hw, rfl, hdb⟩ := ihb hb
    refine ⟨z - w, by rw [value?, hz, hw]; rfl, Option.some.inj hv, ?_⟩
    rw [derivative]
    exact hda.bind fun d hd => hdb.bind fun e he => minus_yields hd he
  | case6 a b iha ihb =>
    rw [value?] at h
    obtain ⟨r, ha, h⟩ := Option.bind_eq_some_iff.mp h
    obtain ⟨s, hb, hv⟩ := Option.bind_eq_some_iff.mp h
    obtain ⟨z, hz, rfl, hda⟩ := iha ha
    obtain ⟨w, hw, rfl, hdb⟩ := ihb hb
    have hsnd : (z * w).snd = z.snd * w.fst + z.fst * w.snd := add_comm _ _
    refine ⟨z * w, by rw [value?, hz, hw]; rfl, Option.some.inj hv, ?_⟩
    rw [derivative, hsnd]
    exact productRule_yields ha hb hda hdb
  | case7 a b iha ihb =>
    rw [value?] at h
    obtain ⟨r, ha, h⟩ := Option.bind_eq_some_iff.mp h
    obtain ⟨s, hb, h⟩ := Option.bind_eq_some_iff.mp h
    obtain ⟨i, hi, hv⟩ := Option.bind_eq_some_iff.mp h
    obtain ⟨z, hz, rfl, hda⟩ := iha ha
    obtain ⟨w, hw, rfl, hdb⟩ := ihb hb
    obtain ⟨hw0, rfl⟩ := Reading.inverse?_rational.mp hi
    have hinverse : (Reading.dual args).inverse? w = some w⁻¹ := if_neg hw0
    refine ⟨z * w⁻¹, ?_, Option.some.inj hv, ?_⟩
    · rw [value?, hz, hw]
      simp only [Option.bind_eq_bind, Option.bind_some, hinverse]
      rfl
    · rw [derivative, Reading.snd_mul_inv z hw0]
      exact quotientRule_yields ha hb hw0 hda hdb
  | case8 a b iha =>
    rw [value?] at h
    obtain ⟨r, ha, h⟩ := Option.bind_eq_some_iff.mp h
    obtain ⟨k, hb, hv⟩ := Option.bind_eq_some_iff.mp h
    obtain ⟨z, hz, rfl, hda⟩ := iha ha
    obtain ⟨hk, rfl⟩ := Reading.power?_rational.mp hv
    obtain ⟨w, hw, hfst, hsnd⟩ := Reading.power?_dual args hk
    refine ⟨w, ?_, hfst, ?_⟩
    · rw [value?, hz, hb, Option.bind_eq_bind, Option.bind_some]
      exact hw
    · obtain ⟨n, rfl, -⟩ := integer?_eq_some hb
      have hconstant : ¬(Tree.number n).mentionsVariable = true := Bool.false_ne_true
      rw [derivative, if_neg hconstant, hsnd]
      exact powerRule_yields ha hb hk hda
  | case9 t =>
    rw [value?] at h
    · cases h
    all_goals assumption

end Reckoner.Recorded

namespace Reckoner.Tree

/-- The derivative is the derivative: at all arguments at which a tree of rational operations has a value, the value of
its derivative is the coefficient of epsilon over the dual numbers, if what is carried out on literals is exact. -/
theorem derivative_exact (t : Tree) (args : List Rat) (v : Rat) (h : t.value? (.rational args) = some v)
    (hfolds : ∀ f ∈ (Recorded.derivative t).folds, f.Exact) :
    (Recorded.derivative t).result = t.derivative ∧
      ∃ z d, t.value? (.dual args) = some z ∧ z.fst = v ∧ t.derivative = .ok d ∧
        d.value? (.rational args) = some z.snd := by
  have hresult := Recorded.result_derivative t
  obtain ⟨z, hz, hfst, hyields⟩ := Recorded.derivative_yields h
  obtain ⟨d, hd, hvalue⟩ := hyields hfolds
  exact ⟨hresult, z, d, hz, hfst, hresult.symm.trans hd, hvalue⟩

def sample : Tree :=
  builtin .add [builtin .mul [builtin .pow [argument 0, ofFloat 2], argument 1], builtin .div [one, argument 0]]

def sampleFold : Fold := ⟨.sub, .real 2, .one, ⟨⟨2 - 1, 0 - 0⟩, .dimensionless⟩⟩

private theorem sampleFold_exact : sampleFold.Exact := by
  intro v hv
  have htwo : (Tree.number (.real 2)).value? (.rational []) = some 2 := by
    rw [value?_number, Number.rational?_real, Binary64.rational?_two]
  have hone : (Tree.number .one).value? (.rational []) = some 1 := value?_one
  rw [sampleFold, Fold.tree, value?, htwo, hone] at hv
  obtain rfl : 2 - 1 = v := Option.some.inj hv
  have hresult : sampleFold.result.eqv .one = true := by decide
  rw [Number.rational?_eq_one hresult]
  norm_num

/-- At two and five the sample is 41 halves, and its derivative `2 * 2 * 5 - 1 / 2 ^ 2`. -/
theorem derivative_exact_of_sample :
    sample.value? (.rational [2, 5]) = some (41 / 2) ∧ (∀ f ∈ (Recorded.derivative sample).folds, f.Exact) ∧
      ∃ d, sample.derivative = .ok d ∧ d.value? (.rational [2, 5]) = some (79 / 4) := by
  have hvalue : sample.value? (.rational [2, 5]) = some (41 / 2) := by decide +kernel
  have hrecord : (Recorded.derivative sample).folds = [sampleFold] := rfl
  have hexact : ∀ f ∈ (Recorded.derivative sample).folds, f.Exact := by
    rw [hrecord, List.forall_mem_singleton]
    exact sampleFold_exact
  have hdual : (sample.value? (.dual [2, 5])).map TrivSqZeroExt.snd = some (79 / 4) := by decide +kernel
  obtain ⟨-, z, d, hz, -, hd, hderivative⟩ := derivative_exact sample [2, 5] (41 / 2) hvalue hexact
  rw [hz, Option.map_some] at hdual
  exact ⟨hvalue, hexact, d, hd, hderivative.trans hdual⟩

end Reckoner.Tree
