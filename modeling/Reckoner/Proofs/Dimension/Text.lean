import Reckoner.Proofs.Composition
import Reckoner.Proofs.Dimension
import Reckoner.Proofs.Dimension.Factors
import Reckoner.Proofs.Pieces
import Reckoner.Proofs.Scoping.Session

/-! Texts of dimensions denote what they were written for. One to any power is one, so that the value of each factor is
one of a unit, and the exponents are put back one base quantity at a time. -/
namespace Reckoner

open Text (byteLength slice)

/-! ### Values -/

namespace Dimension
open Eval
variable {d e : Dimension} {q : BaseQuantity} {qs : List BaseQuantity} {n : Int8} {frame : Frame}
  {s t : Tree} {a b : Number}

private theorem tree_mul (env : Environment) (hs : tree env.machine frame s = pure (.number a))
    (ht : tree env.machine frame t = pure (.number b)) :
    tree env.machine frame (.builtin .mul [s, t]) = pure (.number (a * b)) := by
  have hargs : checkedArgs env.machine frame .mul 0 [s, t] = pure [.number a, .number b] := by
    simp only [checkedArgs, hs, ht, pure_bind]
    rfl
  rw [tree, hargs, pure_bind]
  rfl

private theorem tree_pow (env : Environment) (hs : tree env.machine frame s = pure (.number a))
    (ht : tree env.machine frame t = pure (.number b)) :
    tree env.machine frame (.builtin .pow [s, t]) = pure (.number (a.pow b)) := by
  have hargs : checkedArgs env.machine frame .pow 0 [s, t] = pure [.number a, .number b] := by
    simp only [checkedArgs, hs, ht, pure_bind]
    rfl
  rw [tree, hargs, pure_bind]
  rfl

private theorem unitOf_isReal (d : Dimension) : (unitOf d).isReal = true := by
  have hzero : ((0 : Float) == 0) = true := by decide
  exact hzero

private theorem exponentOf_isReal (n : Int8) : (exponentOf n).isReal = true := by
  have hzero : ((0 : Float) == 0) = true := by decide
  have hneg : ((-0 : Float) == 0) = true := by decide
  rw [exponentOf]
  split
  · exact hneg
  · exact hzero

private theorem unitOf_mul (d e : Dimension) : unitOf d * unitOf e = unitOf (d * e) := by
  have hone : (1 : Float) * 1 = 1 := by decide
  have hvalue : (unitOf d).mul (unitOf e) = ⟨.ofReal (1 * 1), d * e⟩ := by
    simp only [Number.mul, unitOf_isReal, Bool.and_self, if_true]
    rfl
  exact hvalue.trans (by rw [hone]; rfl)

private theorem power_congr {x y : Float} (h : Binary64.parts x = Binary64.parts y) (d : Dimension) :
    d.power x = d.power y := by
  simp only [power, scaleExponent, h]

private theorem parts_exponentOf (hn : n ≠ 0) :
    Binary64.parts (exponentOf n).re = Binary64.parts (Binary64.ofInt n.toInt) := by
  have hlow := n.le_toInt
  have hhigh := n.toInt_lt
  have hne : n.toInt ≠ 0 := fun h => hn (Int8.toInt_inj.mp h)
  rw [exponentOf]
  split
  · rename_i hneg
    have hparts := Binary64.parts_ofInt (n := n.toInt.natAbs) (by omega) (by rw [Binary64.hiddenBit]; omega)
    show Binary64.parts (-(Binary64.ofInt n.toInt.natAbs)) = _
    rw [Binary64.parts_neg, hparts, Binary64.parts_ofInt hne (by rw [Binary64.hiddenBit]; omega)]
    rw [Int.natAbs_natCast, decide_eq_false (by omega), decide_eq_true hneg]
    rfl
  · rename_i hpos
    show Binary64.parts (Binary64.ofInt n.toInt.natAbs) = _
    rw [Int.natAbs_of_nonneg (by omega)]

/-- An exponent is read as what it is. -/
private theorem power_exponentOf (d : Dimension) (hn : n ≠ 0) : d.power (exponentOf n).re = d.scaled n.toInt := by
  have hlow := n.le_toInt
  have hhigh := n.toInt_lt
  rw [power_congr (parts_exponentOf hn), power_ofInt d (by omega)]

private theorem unitOf_pow (d : Dimension) (hn : n ≠ 0) :
    (unitOf d).pow (exponentOf n) = unitOf (d.scaled n.toInt) := by
  have hone : ∀ y, Number.realPower 1 y = 1 := by
    intro y
    have hrefl : ((1 : Float) == 1) = true := by decide
    rw [Number.realPower, hrefl]
    rfl
  have hsign : decide ((unitOf d).re ≥ 0) = true := by
    show decide ((1 : Float) ≥ 0) = true
    decide
  have hvalue : (unitOf d).pow (exponentOf n) =
      ⟨.ofReal (Number.realPower 1 (exponentOf n).re), d.power (exponentOf n).re⟩ := by
    simp only [Number.pow, unitOf_isReal, exponentOf_isReal, hsign, Bool.and_self, Bool.true_and, Bool.true_or, if_true]
    rfl
  rw [hvalue, hone, power_exponentOf d hn]
  rfl

/-- A factor is the power of its base unit. -/
private theorem tree_grouping (env : Environment) (frame : Frame) (hq : d.exponent q ≠ 0) :
    tree env.machine frame (d.grouping q).tree =
      pure (.number (unitOf ((base q).scaled (d.exponent q).toInt))) := by
  rw [grouping]
  split
  · rename_i hone
    have hscaled : (base q).scaled (d.exponent q).toInt = base q := by
      rw [hone]
      exact ext_exponent fun r => by simp [scaled]
    rw [hscaled]
    rfl
  · rw [Flat.Grouping.tree, tree_pow env rfl rfl, unitOf_pow _ hq]

def product (d : Dimension) (qs : List BaseQuantity) (e : Dimension) : Dimension :=
  qs.foldl (fun e q => e * (base q).scaled (d.exponent q).toInt) e

private theorem tree_product (env : Environment) (frame : Frame) (hqs : ∀ q ∈ qs, d.exponent q ≠ 0) {g : Flat.Grouping}
    (hg : tree env.machine frame g.tree = pure (.number (unitOf e))) :
    tree env.machine frame (qs.foldl (fun g q => .node .mul g (d.grouping q)) g).tree =
      pure (.number (unitOf (d.product qs e))) := by
  induction qs generalizing g e with
  | nil => exact hg
  | cons q qs ih =>
    obtain ⟨hq, hqs⟩ := List.forall_mem_cons.mp hqs
    refine ih hqs ?_
    rw [Flat.Grouping.tree, tree_mul env hg (tree_grouping env frame hq), unitOf_mul]

private theorem exponent_product (hnodup : qs.Nodup) (e : Dimension) (r : BaseQuantity) :
    (d.product qs e).exponent r = e.exponent r + if r ∈ qs then d.exponent r else 0 := by
  induction qs generalizing e with
  | nil => simp [product]
  | cons q qs ih =>
    obtain ⟨hq, hqs⟩ := List.nodup_cons.mp hnodup
    have hfactor : ((base q).scaled (d.exponent q).toInt).exponent r = if r = q then d.exponent r else 0 := by
      simp only [scaled, base, exponent_ofExponents]
      split
      · rename_i heq
        rw [heq, Int8.ofInt_toInt, Int8.one_mul]
      · exact Int8.zero_mul
    rw [product, List.foldl_cons, ← product, ih hqs, exponent_mul, hfactor]
    by_cases heq : r = q
    · subst heq
      simp [hq]
    · simp [heq]

/-- The factors that a text shows make up the whole dimension. -/
private theorem product_present (hpresent : d.present = q :: qs) :
    d.product qs ((base q).scaled (d.exponent q).toInt) = d := by
  have hnodup : (q :: qs).Nodup := hpresent ▸ List.Nodup.filter _ (by decide)
  have hmem (r : BaseQuantity) : r ∈ q :: qs ↔ d.exponent r ≠ 0 := by
    rw [← hpresent]
    simp [present, BaseQuantity.mem_all]
  have hfirst : dimensionless * (base q).scaled (d.exponent q).toInt = (base q).scaled (d.exponent q).toInt :=
    ext_exponent fun r => by rw [exponent_mul, exponent_dimensionless, Int8.zero_add]
  have hproduct : d.product qs ((base q).scaled (d.exponent q).toInt) = d.product (q :: qs) dimensionless := by
    rw [product, product, List.foldl_cons, hfirst]
  refine ext_exponent fun r => ?_
  rw [hproduct, exponent_product hnodup, exponent_dimensionless, Int8.zero_add]
  split
  · rfl
  · rename_i hzero
    exact (not_not.mp ((hmem r).not.mp hzero)).symm

private theorem present_ne_nil (hd : d ≠ dimensionless) : d.present ≠ [] := by
  intro hnil
  refine hd (ext_exponent fun r => ?_)
  have hzero := List.filter_eq_nil_iff.mp hnil r (BaseQuantity.mem_all r)
  simpa using hzero

end Dimension

/-! ### Reading back -/

section
variable {d : Dimension} {env : Environment}

/-- Where units are read, the text of a dimension is parsed to a tree of which the value is one of that unit. -/
private theorem parseExpression_text (hunits : env.units = .si) (hd : d ≠ .dimensionless) (offset : Nat)
    (scope : Scope) :
    ∃ t, parseExpression env d.text offset scope { units := true } = pure t ∧
      ∀ frame, env.evaluate frame t = pure (.number d.unitOf) := by
  obtain ⟨q, qs, hpresent⟩ := List.exists_cons_of_ne_nil (Dimension.present_ne_nil hd)
  have hmem : ∀ q ∈ d.present, d.exponent q ≠ 0 := fun q hq => by
    simpa [Dimension.present] using (List.mem_filter.mp hq).2
  rw [hpresent] at hmem
  obtain ⟨hq, hqs⟩ := List.forall_mem_cons.mp hmem
  have htext := d.text_eq
  rw [hpresent] at htext
  let c : Parse.Context := ⟨env, scope, { units := true }, d.text, offset⟩
  refine ⟨_, (parseExpression_eq c).trans (Parse.expression_factors c.piece c.blockPiece ⟨rfl, rfl, hunits⟩ htext), ?_⟩
  intro frame
  rw [Environment.evaluate, Dimension.tree_product env frame hqs (Dimension.tree_grouping env frame hq),
    Dimension.product_present hpresent]

/-- A group in square brackets is read where it stands. -/
private theorem parseExpression_square (hunits : env.units = .si) (hd : d ≠ .dimensionless) (offset : Nat)
    (scope : Scope)
    (ambient : Ambient) (hbase : ambient.base = 10) :
    ∃ t, parseExpression env ('[' :: (d.text ++ [']'])) offset scope ambient = pure t ∧
      ∀ frame, env.evaluate frame t = pure (.number d.unitOf) := by
  obtain ⟨t, hparse, hvalue⟩ := parseExpression_text hunits hd (offset + 0 + 1) scope
  have hclosed : d.text.ClosedIn ambient.base .comma := by
    have haccepted := parseExpression_acceptable env d.text (offset + 0 + 1) scope { units := true }
    rw [hparse] at haccepted
    exact hbase ▸ (haccepted {} trivial).2.closed .comma rfl
  have hslice : slice ('[' :: (d.text ++ [']'])) (0 + 1) (1 + byteLength d.text) = d.text :=
    Text.slice_append ['['] d.text [']']
  refine ⟨t, ?_, hvalue⟩
  rw [parseExpression, dif_neg (List.cons_ne_nil _ _),
    Parse.expression_single (Section.ofText_square hclosed) rfl (by simp)]
  simp only [Parse.operand, Parse.square, pure_bind, hslice, hparse]

end

namespace Session

/-- The text of a dimension in square brackets is read as one of that unit. -/
theorem evaluateText_unit (s : Session) (d : Dimension) (hunits : s.env.units = .si) (hd : d ≠ .dimensionless) :
    (evaluateText ('[' :: (d.text ++ [']']))).run.run s = (.ok (.number ((Number.real 1).withDimension d)), s) := by
  obtain ⟨t, hparse, hvalue⟩ := parseExpression_square hunits hd 0 .top {} rfl
  have hparsed : (parse ('[' :: (d.text ++ [']']))).run.run s = (.ok t, s) := by
    rw [parse, run_parsing, hparse]
    rfl
  rw [evaluateText, run_bind, hparsed]
  simp only [evaluate, run_evaluating, hvalue]
  rfl

/-- A newton by a high power of a bit. -/
theorem evaluateText_unit_of_signs :
    let s : Session := {}
    let d : Dimension := ⟨1, 1, -2, 0, 0, 0, 0, -128⟩
    s.env.units = .si ∧ d ≠ .dimensionless ∧ d.text = "m*kg*s^-2*bit^-128".toList ∧
      (evaluateText ('[' :: (d.text ++ [']']))).run.run s = (.ok (.number ((Number.real 1).withDimension d)), s) :=
  ⟨rfl, by decide, by decide, evaluateText_unit _ _ rfl (by decide)⟩

end Session
end Reckoner
