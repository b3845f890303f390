import ApiPresence.Number.Shortest
import Mathlib.Algebra.Order.Field.Power
import Mathlib.Data.Rat.Cast.Order
import Mathlib.Tactic.FieldSimp
import Mathlib.Tactic.Ring

namespace ApiPresence

def Decimal.value (d : Decimal) : ℚ := d.digits * 10 ^ d.exponent

namespace Binary64

/-- A magnitude, in quarters of the smallest positive number, stands in a rounding range. -/
def RoundingRange.Holds (range : RoundingRange) (q : ℚ) : Prop :=
  if range.closed then range.low ≤ q ∧ q ≤ range.high else range.low < q ∧ q < range.high

namespace RoundingRange

variable {range : RoundingRange} {q : ℚ}

theorem Holds.low_le (h : range.Holds q) : range.low ≤ q := by
  rw [Holds] at h
  split at h
  · exact h.1
  · exact h.1.le

theorem Holds.le_high (h : range.Holds q) : q ≤ range.high := by
  rw [Holds] at h
  split at h
  · exact h.2
  · exact h.2.le

/-- A range that holds one of its ends holds both. -/
theorem Holds.closed (h : range.Holds q) (hq : q = range.low ∨ q = range.high) :
    range.closed = true := by
  rw [Holds] at h
  split at h
  · assumption
  · rcases hq with rfl | rfl
    · exact absurd h.1 (lt_irrefl _)
    · exact absurd h.2 (lt_irrefl _)

theorem contains_iff (hd : 0 < den) :
    range.contains digits num den = true ↔ range.Holds (digits * (num / den)) := by
  have hp : (0 : ℚ) < den := Nat.cast_pos.mpr hd
  rw [contains, Holds, ← mul_div_assoc]
  split <;>
    simp only [Bool.and_eq_true, decide_eq_true_eq, le_div_iff₀ hp, div_le_iff₀ hp, lt_div_iff₀ hp,
      div_lt_iff₀ hp] <;> norm_cast

end RoundingRange

/-- A rank with the first significand of its width has half the distance below. -/
theorem units_succ (rank : Nat) : units (rank + 1) = units rank + 2 ^ gapLog rank := by
  simp only [units, gapLog, Nat.pow_eq]
  by_cases hc : (rank + 1) % 0x10000000000000 = 0 ∧ 0x20000000000000 ≤ rank + 1
  · have hg : (rank + 1) / 0x10000000000000 - 1 = rank / 0x10000000000000 - 1 + 1 := by omega
    rw [if_neg (by omega), if_neg (by omega), hg, hc.1, pow_succ]
    have hm : rank % 0x10000000000000 = 0x10000000000000 - 1 := by omega
    rw [hm]
    ring
  · have hg : (rank + 1) / 0x10000000000000 - 1 = rank / 0x10000000000000 - 1 := by omega
    rw [hg, ← Nat.succ_mul]
    congr 1
    split <;> split <;> omega

theorem low_succ (rank : Nat) : (roundingRange (rank + 1)).low = (roundingRange rank).high := by
  simp only [roundingRange, units_succ, Nat.pow_eq, gapLog]
  split
  · next hc =>
    have hg : (rank + 1) / 0x10000000000000 - 1 = rank / 0x10000000000000 - 1 + 1 := by omega
    rw [hg, pow_succ]
    omega
  · next hc =>
    have hg : (rank + 1) / 0x10000000000000 - 1 = rank / 0x10000000000000 - 1 := by omega
    rw [hg]
    omega

theorem low_lt_high (rank : Nat) : (roundingRange rank).low < (roundingRange rank).high := by
  have hp : 0 < 2 ^ gapLog rank := Nat.two_pow_pos _
  simp only [roundingRange, Nat.pow_eq]
  omega

theorem high_le_low (h : r < s) : (roundingRange r).high ≤ (roundingRange s).low := by
  induction s with
  | zero => cases h
  | succ s ih =>
    rw [low_succ]
    obtain h | rfl := Nat.lt_succ_iff_lt_or_eq.mp h
    · exact (ih h).trans (low_lt_high s).le
    · exact le_rfl

/-- Neighbours share an end, which only the even one of them holds. -/
theorem not_holds_of_lt (h : r < s) (hr : (roundingRange r).Holds q) :
    ¬ (roundingRange s).Holds q := by
  intro hs
  have hle : ((roundingRange r).high : ℚ) ≤ (roundingRange s).low := Nat.cast_le.mpr (high_le_low h)
  have hqr : q = (roundingRange r).high := le_antisymm hr.le_high (hle.trans hs.low_le)
  have hqs : q = (roundingRange s).low := le_antisymm (hr.le_high.trans hle) hs.low_le
  have hn : s = r + 1 := by
    by_contra hn
    have hm : (roundingRange (r + 1)).high ≤ (roundingRange s).low := high_le_low (by omega)
    have hl := low_lt_high (r + 1)
    rw [low_succ] at hl
    have he : (roundingRange r).high = (roundingRange s).low := by
      exact_mod_cast hqr.symm.trans hqs
    omega
  have hcr := hr.closed (.inr hqr)
  have hcs := hs.closed (.inl hqs)
  simp only [roundingRange, decide_eq_true_eq] at hcr hcs
  omega

/-- No magnitude rounds to two ranks. -/
theorem rank_unique (hr : (roundingRange r).Holds q) (hs : (roundingRange s).Holds q) : r = s := by
  obtain h | h | h := lt_trichotomy r s
  · exact absurd hs (not_holds_of_lt h hr)
  · exact h
  · exact absurd hr (not_holds_of_lt h hs)

theorem stepRatio_pos (exponent : Int) :
    0 < (stepRatio exponent).1 ∧ 0 < (stepRatio exponent).2 := by
  have hu : 0 < unitsPerOne := by decide +kernel
  rw [stepRatio]
  split
  · exact ⟨Nat.mul_pos (Nat.mul_pos (by decide) hu) (Nat.pow_pos (by decide)), Nat.one_pos⟩
  · exact ⟨Nat.mul_pos (by decide) hu, Nat.pow_pos (by decide)⟩

theorem stepRatio_eq (exponent : Int) :
    ((stepRatio exponent).1 / (stepRatio exponent).2 : ℚ) = 4 * unitsPerOne * 10 ^ exponent := by
  rw [stepRatio]
  generalize unitsPerOne = units
  split
  · next he =>
    obtain ⟨n, rfl⟩ := Int.eq_ofNat_of_zero_le he
    simp
  · next he =>
    obtain ⟨n, hn⟩ := Int.eq_ofNat_of_zero_le (a := -exponent) (by omega)
    obtain rfl : exponent = -(n : Int) := by omega
    simp [div_eq_mul_inv]

/-- A decimal on the grid of a rank rounds to it. -/
theorem holds_of_onGrid? (h : onGrid? rank exponent = some d) :
    (roundingRange rank).Holds (4 * unitsPerOne * d.value) := by
  have hc : (roundingRange rank).contains d.digits (stepRatio exponent).1 (stepRatio exponent).2 =
      true ∧ d.exponent = exponent := by
    simp only [onGrid?, Bool.and_eq_true] at h
    split at h
    · next hf =>
      split at h
      · cases h
        exact ⟨hf.1, rfl⟩
      · cases h
        exact ⟨hf.2, rfl⟩
    · split at h
      · next hf =>
        cases h
        exact ⟨hf, rfl⟩
      · split at h
        · next hf =>
          cases h
          exact ⟨hf, rfl⟩
        · cases h
  obtain ⟨hc, rfl⟩ := hc
  rw [RoundingRange.contains_iff (stepRatio_pos _).2, stepRatio_eq] at hc
  rw [Decimal.value]
  convert hc using 1
  ring

theorem gap_le_units (h : rank ≠ 0) : 2 ^ gapLog rank ≤ units rank := by
  rw [units, Nat.pow_eq]
  refine Nat.le_mul_of_pos_left _ ?_
  split <;> omega

/-- A step of a quarter of the gap leaves a neighbour below within the range. -/
theorem contains_neighbour {num den : Nat} (h : rank ≠ 0) (hn : 0 < num) (hd : 0 < den)
    (hs : num ≤ 2 ^ gapLog rank * den) :
    (roundingRange rank).contains (4 * units rank * den / num) num den = true := by
  have hg := gap_le_units h
  have hp : 0 < 2 ^ gapLog rank * den := Nat.mul_pos (Nat.two_pow_pos _) hd
  have hle : 4 * units rank * den / num * num ≤ 4 * units rank * den := Nat.div_mul_le_self _ _
  have hlt : 4 * units rank * den < 4 * units rank * den / num * num + num :=
    Nat.lt_div_mul_add hn
  have hlow : (roundingRange rank).low * den + 2 ^ gapLog rank * den ≤ 4 * units rank * den := by
    rw [← Nat.add_mul]
    refine Nat.mul_le_mul_right _ ?_
    simp only [roundingRange, Nat.pow_eq]
    split <;> omega
  have hhigh : 4 * units rank * den + 2 * (2 ^ gapLog rank * den) =
      (roundingRange rank).high * den := by
    simp only [roundingRange, Nat.pow_eq]
    ring
  generalize 4 * units rank * den / num = low at *
  rw [RoundingRange.contains]
  split <;> simp only [Bool.and_eq_true, decide_eq_true_eq] <;> omega

theorem exists_onGrid? (h : rank ≠ 0)
    (hs : (stepRatio exponent).1 ≤ 2 ^ gapLog rank * (stepRatio exponent).2) :
    ∃ d, onGrid? rank exponent = some d := by
  obtain ⟨hn, hd⟩ := stepRatio_pos exponent
  have hf := contains_neighbour h hn hd hs
  simp only [onGrid?, hf, Bool.true_and]
  split
  · split <;> exact ⟨_, rfl⟩
  · exact ⟨_, rfl⟩

theorem holds_firstOnGrid {k steps : Nat} (hk : k < steps)
    (h : ∃ d, onGrid? rank (exponent - k) = some d) :
    (roundingRange rank).Holds (4 * unitsPerOne * (firstOnGrid rank steps exponent).value) := by
  induction steps generalizing exponent k with
  | zero => cases hk
  | succ steps ih =>
    rw [firstOnGrid]
    cases hd : onGrid? rank exponent with
    | some d => exact holds_of_onGrid? hd
    | none =>
      cases k with
      | zero =>
        obtain ⟨d, h⟩ := h
        rw [Nat.cast_zero, sub_zero, hd] at h
        cases h
      | succ k =>
        refine ih (Nat.lt_of_succ_lt_succ hk) ?_
        have he : exponent - 1 - k = exponent - (k + 1 : ℕ) := by omega
        rwa [he]

/-- The last grid that is tried is fine enough for every width of a magnitude. -/
theorem stepRatio_last_le : ∀ width : Nat, width < 2098 →
    (stepRatio (((width : Int) - 1074) * 1233 / 4096 + 3 - 23)).1 ≤
      2 ^ (width - 52) * (stepRatio (((width : Int) - 1074) * 1233 / 4096 + 3 - 23)).2 := by
  decide +kernel

theorem log2_units_lt (h : rank ≠ 0) : Nat.log2 (units rank) < 53 + gapLog rank := by
  have hu := gap_le_units h
  have hp := Nat.two_pow_pos (gapLog rank)
  rw [Nat.log2_lt (by omega), units, Nat.pow_eq, Nat.pow_add]
  refine Nat.mul_lt_mul_of_pos_right ?_ hp
  split <;> omega

theorem gapLog_eq (h : rank ≠ 0) : gapLog rank = Nat.log2 (units rank) - 52 := by
  have hlt := log2_units_lt h
  have hu := gap_le_units h
  have hp := Nat.two_pow_pos (gapLog rank)
  by_cases hg : gapLog rank = 0
  · omega
  · have hle : 52 + gapLog rank ≤ Nat.log2 (units rank) := by
      rw [Nat.le_log2 (by omega), units, Nat.pow_eq, Nat.pow_add]
      refine Nat.mul_le_mul_right _ ?_
      rw [gapLog] at hg
      split <;> omega
    omega

/-- The shortest decimal of a rank rounds to it. -/
theorem holds_shortest (h : rank < 0x7ff0000000000000) :
    (roundingRange rank).Holds (4 * unitsPerOne * (shortest rank).value) := by
  rw [shortest]
  split
  · next hz =>
    subst hz
    have hv : Decimal.value ⟨0, 0⟩ = 0 := by simp [Decimal.value]
    rw [hv, mul_zero]
    simp [roundingRange, RoundingRange.Holds, units]
  · next hz =>
    refine holds_firstOnGrid (k := 23) (by decide) (exists_onGrid? hz ?_)
    rw [gapLog_eq hz]
    have hw := log2_units_lt hz
    rw [gapLog] at hw
    exact stepRatio_last_le _ (by omega)

/-- No two ranks have the same shortest decimal. -/
theorem rank_of_shortest (hr : r < 0x7ff0000000000000) (hs : s < 0x7ff0000000000000)
    (h : (shortest r).value = (shortest s).value) : r = s := by
  have hh := holds_shortest hr
  rw [h] at hh
  exact rank_unique hh (holds_shortest hs)

end Binary64
end ApiPresence
