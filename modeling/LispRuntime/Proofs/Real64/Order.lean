import LispRuntime.Real64.Basic
import Mathlib.Data.Nat.Log
import Mathlib.Tactic.Ring
import Mathlib.Tactic.Linarith

/-! The total order on reals tells their bits apart, and turning integers into
reals keeps their order, although it does not keep them apart. -/

namespace LispRuntime.Real64

/-! ## Ranks -/

theorem rank_eq (real : Real64) :
    real.rank =
      if span 63 ≤ real.bits.toNat then (span 63 : Int) - 1 - real.bits.toNat
      else real.bits.toNat := by
  simp [rank, isNegative]

theorem rank_injective {left right : Real64} (equal : left.rank = right.rank) :
    left = right := by
  have leftBound := left.bits.toNat_lt
  have rightBound := right.bits.toNat_lt
  have bits : left.bits.toNat = right.bits.toNat := by
    rw [rank_eq, rank_eq] at equal
    by_cases leftNegative : span 63 ≤ left.bits.toNat <;>
      by_cases rightNegative : span 63 ≤ right.bits.toNat <;>
      simp only [leftNegative, rightNegative, if_true, if_false] at equal <;>
      simp only [span, Nat.pow_eq] at * <;>
      omega
  cases left
  cases right
  exact congrArg Real64.mk (UInt64.toNat_inj.mp bits)

/-! ## Rounding -/

/-- Is a remainder past the half, or at the half of an odd quotient? -/
def RoundsUp (value shift : Nat) : Prop :=
  span shift < 2 * (value % span shift) ∨
    (span shift = 2 * (value % span shift) ∧ value / span shift % 2 = 1)

instance (value shift : Nat) : Decidable (RoundsUp value shift) :=
  inferInstanceAs (Decidable (_ ∨ _))

theorem roundShift_eq (value shift : Nat) :
    roundShift value shift =
      if RoundsUp value shift then value / span shift + 1 else value / span shift := by
  simp only [roundShift, Nat.shiftRight_eq_div_pow]
  rfl

theorem quotient_le_roundShift (value shift : Nat) :
    value / span shift ≤ roundShift value shift := by
  rw [roundShift_eq]
  split
  · exact Nat.le_succ _
  · exact Nat.le_refl _

theorem roundShift_le_quotient (value shift : Nat) :
    roundShift value shift ≤ value / span shift + 1 := by
  rw [roundShift_eq]
  split
  · exact Nat.le_refl _
  · exact Nat.le_succ _

theorem RoundsUp.mono {shift small large : Nat} (le : small ≤ large)
    (quotients : small / span shift = large / span shift)
    (up : RoundsUp small shift) : RoundsUp large shift := by
  have smallParts := Nat.div_add_mod small (span shift)
  have largeParts := Nat.div_add_mod large (span shift)
  rw [quotients] at smallParts
  rcases up with above | ⟨half, odd⟩
  · exact .inl (by omega)
  · rw [quotients] at odd
    rcases Nat.lt_or_ge (span shift) (2 * (large % span shift)) with more | less
    · exact .inl more
    · exact .inr ⟨by omega, odd⟩

theorem roundShift_mono (shift : Nat) {small large : Nat} (le : small ≤ large) :
    roundShift small shift ≤ roundShift large shift := by
  rcases Nat.lt_or_eq_of_le (Nat.div_le_div_right (c := span shift) le) with less | equal
  · exact (roundShift_le_quotient small shift).trans
      (Nat.le_trans less (quotient_le_roundShift large shift))
  · rw [roundShift_eq small]
    split
    case isTrue up => rw [roundShift_eq, if_pos (up.mono le equal), equal]
    case isFalse => rw [equal]; exact quotient_le_roundShift large shift

/-! ## The bits of a magnitude

The fraction field fills one binade; rounding up may reach the first real of
the next one, and no further. -/

/-- The significand of a magnitude, its leading one included. -/
def significandOfNat (magnitude : Nat) : Nat :=
  if magnitude.log2 ≤ 52 then magnitude <<< (52 - magnitude.log2)
  else roundShift magnitude (magnitude.log2 - 52)

theorem bitsOfNat_eq (magnitude : Nat) :
    bitsOfNat magnitude =
      (magnitude.log2 + 1022) * span 52 + significandOfNat magnitude := rfl

theorem span_add (first second : Nat) : span (first + second) = span first * span second :=
  Nat.pow_add ..

theorem significandOfNat_bounds {magnitude : Nat} (nonzero : magnitude ≠ 0) :
    span 52 ≤ significandOfNat magnitude ∧ significandOfNat magnitude ≤ 2 * span 52 := by
  have low : span magnitude.log2 ≤ magnitude := Nat.log2_self_le nonzero
  have high : magnitude < span (magnitude.log2 + 1) := Nat.lt_log2_self
  rw [span_add] at high
  unfold significandOfNat
  split
  case isTrue small =>
    have whole : span 52 = span magnitude.log2 * span (52 - magnitude.log2) := by
      rw [← span_add, Nat.add_sub_cancel' small]
    rw [Nat.shiftLeft_eq, whole]
    change span magnitude.log2 * span (52 - magnitude.log2) ≤
        magnitude * span (52 - magnitude.log2) ∧
      magnitude * span (52 - magnitude.log2) ≤
        2 * (span magnitude.log2 * span (52 - magnitude.log2))
    constructor
    · exact Nat.mul_le_mul_right _ low
    · rw [← Nat.mul_assoc]
      apply Nat.mul_le_mul_right
      change magnitude < span magnitude.log2 * 2 at high
      omega
  case isFalse large =>
    have positive : 0 < span (magnitude.log2 - 52) := Nat.pow_pos (by decide)
    have whole : span magnitude.log2 = span 52 * span (magnitude.log2 - 52) := by
      rw [← span_add, Nat.add_sub_cancel' (by omega)]
    rw [whole] at low high
    have lowQuotient : span 52 ≤ magnitude / span (magnitude.log2 - 52) :=
      (Nat.le_div_iff_mul_le positive).mpr low
    have highQuotient : magnitude / span (magnitude.log2 - 52) < 2 * span 52 := by
      apply (Nat.div_lt_iff_lt_mul positive).mpr
      calc magnitude < span 52 * span (magnitude.log2 - 52) * span 1 := high
        _ = 2 * span 52 * span (magnitude.log2 - 52) := by
          rw [show span 1 = 2 from rfl]
          ring
    constructor
    · exact lowQuotient.trans (quotient_le_roundShift ..)
    · exact (roundShift_le_quotient ..).trans highQuotient

theorem significandOfNat_mono {small large : Nat} (le : small ≤ large)
    (binade : small.log2 = large.log2) :
    significandOfNat small ≤ significandOfNat large := by
  unfold significandOfNat
  rw [binade]
  split
  · rw [Nat.shiftLeft_eq, Nat.shiftLeft_eq]
    exact Nat.mul_le_mul_right _ le
  · exact roundShift_mono _ le

theorem bitsOfNat_mono {small large : Nat} (nonzero : small ≠ 0) (le : small ≤ large) :
    bitsOfNat small ≤ bitsOfNat large := by
  have logs : small.log2 ≤ large.log2 := by
    rw [Nat.log2_eq_log_two, Nat.log2_eq_log_two]
    exact Nat.log_mono_right le
  rw [bitsOfNat_eq, bitsOfNat_eq]
  rcases Nat.lt_or_eq_of_le logs with less | equal
  · have lower := (significandOfNat_bounds nonzero).2
    have upper := (significandOfNat_bounds (by omega : large ≠ 0)).1
    -- The next binade starts where this one can end.
    calc (small.log2 + 1022) * span 52 + significandOfNat small
        ≤ (small.log2 + 1022) * span 52 + 2 * span 52 := by omega
      _ = (small.log2 + 1 + 1022) * span 52 + span 52 := by ring
      _ ≤ (large.log2 + 1022) * span 52 + span 52 := by
        apply Nat.add_le_add_right
        exact Nat.mul_le_mul_right _ (by omega)
      _ ≤ (large.log2 + 1022) * span 52 + significandOfNat large := by omega
  · have significands := significandOfNat_mono le equal
    rw [equal]
    omega

theorem bitsOfNat_lt {magnitude : Nat} (bound : magnitude ≤ span 63) :
    bitsOfNat magnitude < span 63 := by
  rcases Nat.eq_zero_or_pos magnitude with zero | positive
  · subst zero
    decide
  · have mono := bitsOfNat_mono (by omega : magnitude ≠ 0) bound
    have last : bitsOfNat (span 63) < span 63 := by decide
    omega

/-! ## Integers as reals -/

theorem rank_ofInteger (value : Int64) :
    (ofInteger value).rank =
      if value.toInt = 0 then 0
      else if value.toInt < 0 then -1 - (bitsOfNat value.toInt.natAbs : Int)
      else (bitsOfNat value.toInt.natAbs : Int) := by
  have low := value.le_toInt
  have high := value.toInt_lt
  have bits : bitsOfNat value.toInt.natAbs < span 63 :=
    bitsOfNat_lt (by simp only [span, Nat.pow_eq]; omega)
  simp only [span, Nat.pow_eq] at bits
  simp only [ofInteger, Int.natAbs_eq_zero]
  split
  case isTrue zero => simp [rank, isNegative, span]
  case isFalse nonzero =>
    split <;>
      simp only [rank, isNegative, span, Nat.pow_eq, decide_eq_true_eq,
        UInt64.toNat_ofNat'] <;>
      split <;> omega

/-- A smaller integer never becomes a greater real. -/
theorem rank_ofInteger_mono {small large : Int64} (le : small.toInt ≤ large.toInt) :
    (ofInteger small).rank ≤ (ofInteger large).rank := by
  rw [rank_ofInteger, rank_ofInteger]
  by_cases smallNegative : small.toInt < 0 <;> by_cases largeNegative : large.toInt < 0
  · have mono : bitsOfNat large.toInt.natAbs ≤ bitsOfNat small.toInt.natAbs :=
      bitsOfNat_mono (by omega) (by omega)
    rw [if_neg (by omega), if_pos smallNegative, if_neg (by omega), if_pos largeNegative]
    omega
  · rw [if_neg (by omega), if_pos smallNegative]
    split <;> omega
  · omega
  · rw [if_neg smallNegative, if_neg largeNegative]
    by_cases zero : small.toInt = 0
    · rw [if_pos zero]
      split <;> omega
    · have mono : bitsOfNat small.toInt.natAbs ≤ bitsOfNat large.toInt.natAbs :=
        bitsOfNat_mono (by omega) (by omega)
      rw [if_neg zero, if_neg (by omega)]
      omega

end LispRuntime.Real64
