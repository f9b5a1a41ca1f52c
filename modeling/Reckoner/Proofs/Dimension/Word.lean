import Reckoner.Dimension
import Mathlib.Data.List.Basic

/-! Dimensions in words of 64 bits: the exponents are the eight bytes of the word, that of the first base quantity
lowest. Nothing is lost either way. -/
namespace Reckoner

namespace BaseQuantity

def place (q : BaseQuantity) : Nat := all.idxOf q

private theorem place_lt (q : BaseQuantity) : q.place < 8 := by cases q <;> decide

private theorem place_inj {q r : BaseQuantity} : q.place = r.place ↔ q = r :=
  ⟨(List.idxOf_inj (mem_all q)).mp, congrArg place⟩

private theorem exists_place {n : Nat} (hn : n < 8) : ∃ q : BaseQuantity, q.place = n := by
  have hall : ∀ n : Fin 8, ∃ q ∈ all, place q = n := by decide
  obtain ⟨q, -, hq⟩ := hall ⟨n, hn⟩
  exact ⟨q, hq⟩

end BaseQuantity

namespace Dimension

def firstBit (q : BaseQuantity) : UInt64 := UInt64.ofNat (8 * q.place)

def word (d : Dimension) : UInt64 :=
  BaseQuantity.all.foldl (fun w q => w ||| (d.exponent q).toUInt8.toUInt64 <<< firstBit q) 0

def ofWord (w : UInt64) : Dimension := ofExponents fun q => (w >>> firstBit q).toUInt8.toInt8

private theorem toNat_firstBit (q : BaseQuantity) : ((firstBit q).toBitVec % 64).toNat = 8 * q.place := by
  cases q <;> decide

/-- The bits of one byte of a word. -/
private theorem getLsbD_byte (w : UInt64) (q : BaseQuantity) (k : Nat) :
    (w >>> firstBit q).toUInt8.toBitVec.getLsbD k = (decide (k < 8) && w.toBitVec.getLsbD (8 * q.place + k)) := by
  simp only [UInt64.toBitVec_toUInt8, UInt64.toBitVec_shiftRight, BitVec.ushiftRight_eq', BitVec.getLsbD_setWidth,
    BitVec.getLsbD_ushiftRight, toNat_firstBit]

/-- A byte that is moved to its place in a word has no bit at the place of another one. -/
private theorem getLsbD_moved (x : UInt8) (q r : BaseQuantity) {k : Nat} (hk : k < 8) :
    (x.toUInt64 <<< firstBit r).toBitVec.getLsbD (8 * q.place + k) = (decide (q = r) && x.toBitVec.getLsbD k) := by
  have hq := q.place_lt
  have hbit : decide (8 * q.place + k < 64) = true := decide_eq_true (by omega)
  simp only [UInt64.toBitVec_shiftLeft, UInt8.toBitVec_toUInt64, BitVec.shiftLeft_eq', BitVec.getLsbD_shiftLeft,
    BitVec.getLsbD_setWidth, toNat_firstBit, hbit, Bool.true_and]
  rcases Nat.lt_trichotomy q.place r.place with hlt | heq | hgt
  · have hne : q ≠ r := fun h => absurd (congrArg BaseQuantity.place h) (Nat.ne_of_lt hlt)
    have hbefore : 8 * q.place + k < 8 * r.place := by omega
    rw [decide_eq_true hbefore, decide_eq_false hne]
    rfl
  · obtain rfl := BaseQuantity.place_inj.mp heq
    have hbehind : ¬8 * q.place + k < 8 * q.place := by omega
    rw [decide_eq_false hbehind, decide_eq_true rfl, Nat.add_sub_cancel_left, decide_eq_true (by omega)]
    rfl
  · have hne : q ≠ r := fun h => absurd (congrArg BaseQuantity.place h) (Nat.ne_of_gt hgt)
    have hout : x.toBitVec.getLsbD (8 * q.place + k - 8 * r.place) = false := BitVec.getLsbD_of_ge _ _ (by omega)
    rw [hout, decide_eq_false hne, Bool.and_false, Bool.and_false, Bool.false_and]

private theorem getLsbD_foldl_or {α : Type} (f : α → UInt64) (w : UInt64) (l : List α) (p : Nat) :
    (l.foldl (fun w a => w ||| f a) w).toBitVec.getLsbD p =
      (w.toBitVec.getLsbD p || l.any fun a => (f a).toBitVec.getLsbD p) := by
  induction l generalizing w with
  | nil => rw [List.foldl_nil, List.any_nil, Bool.or_false]
  | cons a l ih => rw [List.foldl_cons, ih, List.any_cons, UInt64.toBitVec_or, BitVec.getLsbD_or, Bool.or_assoc]

private theorem getLsbD_word (d : Dimension) (q : BaseQuantity) {k : Nat} (hk : k < 8) :
    d.word.toBitVec.getLsbD (8 * q.place + k) = (d.exponent q).toUInt8.toBitVec.getLsbD k := by
  have hone : (BaseQuantity.all.any fun r => decide (q = r) && (d.exponent r).toUInt8.toBitVec.getLsbD k) =
      (d.exponent q).toUInt8.toBitVec.getLsbD k := by
    cases q <;> simp [BaseQuantity.all]
  simp only [word, getLsbD_foldl_or, getLsbD_moved _ q _ hk]
  rw [hone, UInt64.toBitVec_zero, BitVec.getLsbD_zero, Bool.false_or]

theorem ofWord_word (d : Dimension) : ofWord d.word = d := by
  apply ext_exponent
  intro q
  have hbyte : (d.word >>> firstBit q).toUInt8 = (d.exponent q).toUInt8 := by
    apply UInt8.toBitVec_inj.mp
    apply BitVec.eq_of_getLsbD_eq
    intro k hk
    rw [getLsbD_byte, getLsbD_word d q hk, decide_eq_true hk, Bool.true_and]
  rw [ofWord, exponent_ofExponents, hbyte, Int8.toInt8_toUInt8]

theorem word_ofWord (w : UInt64) : (ofWord w).word = w := by
  apply UInt64.toBitVec_inj.mp
  apply BitVec.eq_of_getLsbD_eq
  intro p hp
  -- bit `p` is bit `p % 8` of the byte at the place `p / 8`
  obtain ⟨q, hq⟩ := BaseQuantity.exists_place (n := p / 8) (by omega)
  have hplace : p = 8 * q.place + p % 8 := by omega
  have hk : p % 8 < 8 := Nat.mod_lt p (by decide)
  rw [hplace, getLsbD_word _ q hk, ofWord, exponent_ofExponents, UInt8.toUInt8_toInt8, getLsbD_byte,
    decide_eq_true hk, Bool.true_and]

end Dimension
end Reckoner
