import Reckoner.Proofs.Binary64.Order
import Reckoner.Value.Arithmetic

/-! The smallest and the largest of some values. One value after the other is compared with the best one so far, and takes
its place only when it surpasses it; so of several that tie the first one is found, and another order of the values may
lead to another value, but not to another reading. -/
namespace Reckoner.Value

def Extremum.sought : Extremum → Ordering
  | min => .lt
  | max => .gt

def Surpasses (which : Extremum) (v w : Value) : Prop := v.order w = which.sought

instance (which : Extremum) (v w : Value) : Decidable (Surpasses which v w) := decEq (v.order w) which.sought

/-- The value is one of those that no other surpasses, and the first of them. -/
def Earliest (which : Extremum) (vs : List Value) (v : Value) : Prop :=
  ∃ before after, vs = before ++ v :: after ∧ (∀ w ∈ vs, ¬Surpasses which w v) ∧ ∀ w ∈ before, Surpasses which v w

/-- Where a value stands among all readings. -/
def place (v : Value) : Nat ×ₗ Rat := Binary64.place v.reading

variable {which : Extremum} {u v w : Value} {vs ws seen : List Value}

private theorem order_eq_compare (v w : Value) :
    v.order w = Ord.compare v.place w.place := Binary64.order_eq_compare _ _

private theorem order_swap (v w : Value) : (v.order w).swap = w.order v := by
  rw [order_eq_compare, order_eq_compare, ← Std.OrientedOrd.eq_swap]

private theorem surpasses_min : Surpasses .min v w ↔ v.place < w.place := by
  rw [Surpasses, order_eq_compare]
  exact compare_lt_iff_lt

private theorem surpasses_max : Surpasses .max v w ↔ w.place < v.place := by
  rw [Surpasses, order_eq_compare]
  exact compare_gt_iff_gt

private theorem Surpasses.irrefl (which : Extremum) (v : Value) : ¬Surpasses which v v := by
  cases which
  case min => exact mt surpasses_min.mp (lt_irrefl _)
  case max => exact mt surpasses_max.mp (lt_irrefl _)

private theorem Surpasses.asymm (h : Surpasses which v w) : ¬Surpasses which w v := by
  cases which
  case min => exact mt surpasses_min.mp (surpasses_min.mp h).asymm
  case max => exact mt surpasses_max.mp (surpasses_max.mp h).asymm

/-- What surpasses a value surpasses whatever does not. -/
private theorem Surpasses.trans_not (h : Surpasses which u v) (hw : ¬Surpasses which w v) : Surpasses which u w := by
  cases which
  case min => exact surpasses_min.mpr ((surpasses_min.mp h).trans_le (not_lt.mp (mt surpasses_min.mpr hw)))
  case max => exact surpasses_max.mpr ((not_lt.mp (mt surpasses_max.mpr hw)).trans_lt (surpasses_max.mp h))

/-- Of two values that do not surpass each other, the readings are equal. -/
private theorem order_of_not_surpasses (h : ¬Surpasses which v w) (h' : ¬Surpasses which w v) : v.order w = .eq := by
  rw [order_eq_compare, compare_eq_iff_eq]
  cases which
  case min => exact le_antisymm (not_lt.mp (mt surpasses_min.mpr h')) (not_lt.mp (mt surpasses_min.mpr h))
  case max => exact le_antisymm (not_lt.mp (mt surpasses_max.mpr h)) (not_lt.mp (mt surpasses_max.mpr h'))

private theorem better_of_surpasses (h : Surpasses which w v) : better which v w = w := by
  cases which <;> exact if_pos h

private theorem better_of_not_surpasses (h : ¬Surpasses which w v) : better which v w = v := by
  cases which <;> exact if_neg h

namespace Earliest

private theorem single (which : Extremum) (v : Value) : Earliest which [v] v :=
  ⟨[], [], rfl, List.forall_mem_singleton.mpr (Surpasses.irrefl which v), by simp⟩

private theorem mem (h : Earliest which vs v) : v ∈ vs := by
  obtain ⟨before, after, rfl, -, -⟩ := h
  simp

/-- One more value, which comes to stand behind the others. -/
private theorem step (h : Earliest which vs v) (w : Value) : Earliest which (vs ++ [w]) (better which v w) := by
  obtain ⟨before, after, hvs, hbest, hbefore⟩ := h
  by_cases hw : Surpasses which w v
  -- what surpasses the best value surpasses those as well that tie with it
  · rw [better_of_surpasses hw]
    have hall : ∀ u ∈ vs, Surpasses which w u := fun u hu => hw.trans_not (hbest u hu)
    refine ⟨vs, [], rfl, fun u hu => ?_, hall⟩
    rcases List.mem_append.mp hu with hu | hu
    · exact (hall u hu).asymm
    · rw [List.mem_singleton.mp hu]
      exact Surpasses.irrefl which w
  · rw [better_of_not_surpasses hw]
    refine ⟨before, after ++ [w], by rw [hvs]; simp, fun u hu => ?_, hbefore⟩
    rcases List.mem_append.mp hu with hu | hu
    · exact hbest u hu
    · rwa [List.mem_singleton.mp hu]

private theorem foldl (h : Earliest which seen v) (vs : List Value) :
    Earliest which (seen ++ vs) (vs.foldl (better which) v) := by
  induction vs generalizing seen v with
  | nil => rwa [List.append_nil]
  | cons w vs ih =>
    rw [List.append_cons]
    exact ih (h.step w)

private theorem exists_extremum (which : Extremum) (hvs : vs ≠ []) :
    ∃ v, extremum which vs = .ok v ∧ Earliest which vs v := by
  obtain ⟨v, vs, rfl⟩ := List.exists_cons_of_ne_nil hvs
  exact ⟨_, rfl, (single which v).foldl vs⟩

/-- What is first among the same values in another order has the same reading. -/
private theorem order_of_perm (hv : Earliest which vs v) (hw : Earliest which ws w) (h : ws.Perm vs) :
    w.order v = .eq := by
  have hvmem : v ∈ ws := h.mem_iff.mpr hv.mem
  have hwmem : w ∈ vs := h.mem_iff.mp hw.mem
  obtain ⟨-, -, -, hbest, -⟩ := hv
  obtain ⟨-, -, -, hbest', -⟩ := hw
  exact order_of_not_surpasses (hbest w hwmem) (hbest' v hvmem)

end Earliest

/-- The smallest or largest of some values, of whatever kinds, is one of them. Its reading is on the right side of all
readings, and strictly so of those before it, so that it is the first one of a tie. In another order the same values may
have another smallest or largest one, but only one with the same reading. -/
theorem extremum_earliest (which : Extremum) {vs : List Value} (hvs : vs ≠ []) :
    ∃ before v after, vs = before ++ v :: after ∧ extremum which vs = .ok v ∧
      (∀ w ∈ vs, v.order w ≠ which.sought.swap) ∧ (∀ w ∈ before, v.order w = which.sought) ∧
      ∀ ws : List Value, ws.Perm vs → ∃ w, extremum which ws = .ok w ∧ w.order v = .eq := by
  obtain ⟨v, hv, hearliest⟩ := Earliest.exists_extremum which hvs
  obtain ⟨before, after, hsplit, hbest, hbefore⟩ := id hearliest
  refine ⟨before, v, after, hsplit, hv, fun w hw hworse => hbest w hw ?_, hbefore, fun ws hperm => ?_⟩
  · rw [Surpasses, ← order_swap, hworse, Ordering.swap_swap]
  · have hws : ws ≠ [] := fun hnil => hvs (List.perm_nil.mp (hnil ▸ hperm).symm)
    obtain ⟨w, hw, hearliest'⟩ := Earliest.exists_extremum which hws
    exact ⟨w, hw, hearliest.order_of_perm hearliest' hperm⟩

/-- A string of two characters and a vector of two ones tie for the smallest reading, whatever stands above them. -/
theorem extremum_earliest_of_tie :
    let s : Value := .string ['a', 'b']
    let m : Value := .vector ⟨2, 1, #[.one, .one]⟩
    let vs : List Value := [ofFloat Binary64.nan, s, m, ofFloat 7]
    vs ≠ [] ∧ extremum .min vs = .ok s ∧ extremum .min vs.reverse = .ok m ∧ m.order s = .eq := by
  intro s m vs
  have hvs : vs ≠ [] := by simp [vs]
  have hnan : Surpasses .min s (ofFloat Binary64.nan) ∧ ¬Surpasses .min (ofFloat Binary64.nan) m := by decide
  have hseven : Surpasses .min m (ofFloat 7) ∧ ¬Surpasses .min (ofFloat 7) s := by decide
  have htie : ¬Surpasses .min m s ∧ ¬Surpasses .min s m := by decide
  have hs : extremum .min vs = .ok s := by
    change Except.ok (better .min (better .min (better .min (ofFloat Binary64.nan) s) m) (ofFloat 7)) = _
    rw [better_of_surpasses hnan.1, better_of_not_surpasses htie.1, better_of_not_surpasses hseven.2]
  have hm : extremum .min vs.reverse = .ok m := by
    change Except.ok (better .min (better .min (better .min (ofFloat 7) m) s) (ofFloat Binary64.nan)) = _
    rw [better_of_surpasses hseven.1, better_of_not_surpasses htie.2, better_of_not_surpasses hnan.2]
  obtain ⟨before, v, after, -, hv, -, -, hperm⟩ := extremum_earliest .min hvs
  obtain ⟨w, hw, horder⟩ := hperm vs.reverse (List.reverse_perm vs)
  cases hv.symm.trans hs
  cases hw.symm.trans hm
  exact ⟨hvs, hs, hm, horder⟩

end Reckoner.Value
