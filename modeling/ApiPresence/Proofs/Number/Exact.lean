import ApiPresence.Json.Lexeme
import Mathlib.Tactic.Ring

namespace ApiPresence

namespace Binary64

theorem roundHalfEven_mul (num den : Nat) (hk : 0 < k) :
    roundHalfEven (num * k) (den * k) = roundHalfEven num den := by
  have hr : 2 * (num % den * k) = 2 * (num % den) * k := (Nat.mul_assoc ..).symm
  simp only [roundHalfEven, Nat.mul_div_mul_right _ _ hk, Nat.mul_mod_mul_right, hr,
    Nat.mul_lt_mul_right hk]

theorem roundHalfEven_exact (hd : 0 < den) : roundHalfEven (n * den) den = n := by
  simp [roundHalfEven, Nat.mul_mod_left, Nat.mul_div_cancel _ hd, hd]

/-- Rounding is of quotients, however they are written. -/
theorem nearestRank_mul (num den : Nat) (hk : 0 < k) :
    nearestRank (num * k) (den * k) = nearestRank num den := by
  have hs : num * k * unitsPerOne = num * unitsPerOne * k := Nat.mul_right_comm ..
  have hd (gap : Nat) : den * k * Nat.pow 2 gap = den * Nat.pow 2 gap * k :=
    Nat.mul_right_comm ..
  simp only [nearestRank, hs, hd, Nat.mul_div_mul_right _ _ hk, roundHalfEven_mul _ _ hk]

theorem nearestRank_zero (den : Nat) : nearestRank 0 den = 0 := by
  simp [nearestRank, roundHalfEven]

/-- A rank has a significand of 53 bits and a gap. -/
theorem units_eq (hl : 0x10000000000000 ≤ m) (hu : m < 0x20000000000000) :
    units (m + gap * 0x10000000000000) = m * 2 ^ gap := by
  have hg : (m + gap * 0x10000000000000) / 0x10000000000000 - 1 = gap := by omega
  have hm : (m + gap * 0x10000000000000) % 0x10000000000000 + 0x10000000000000 = m := by omega
  rw [units, gapLog, hg, hm, if_neg (by omega), Nat.pow_eq]

theorem log2_mul_pow (hm : m ≠ 0) (shift : Nat) :
    Nat.log2 (m * 2 ^ shift) = Nat.log2 m + shift := by
  rw [Nat.log2_eq_iff (Nat.mul_ne_zero hm (Nat.ne_of_gt (Nat.two_pow_pos shift))), Nat.pow_add,
    Nat.add_right_comm, Nat.pow_add]
  exact ⟨Nat.mul_le_mul_right _ (Nat.log2_self_le hm),
    Nat.mul_lt_mul_of_pos_right Nat.lt_log2_self (Nat.two_pow_pos _)⟩

theorem exists_unitsPerOne_eq : ∃ width, width = 1074 ∧ unitsPerOne = 2 ^ width := by
  refine ⟨1074, rfl, ?_⟩
  unfold unitsPerOne
  generalize 1074 = width
  rfl

/-- A number with at most 53 significant bits is kept exactly. -/
theorem units_nearestRank (hm : m < 0x20000000000000) (hpos : m ≠ 0) (shift : Nat) :
    units (nearestRank (m * 2 ^ shift) 1) = m * 2 ^ shift * unitsPerOne := by
  have hlog : Nat.log2 m ≤ 52 := Nat.le_of_lt_succ ((Nat.log2_lt hpos).mpr hm)
  obtain ⟨width, hw, hunits⟩ := exists_unitsPerOne_eq
  obtain ⟨left, hleft⟩ := Nat.exists_eq_add_of_le hlog
  obtain ⟨gap, hgap⟩ : ∃ gap, shift + width = left + gap := Nat.exists_eq_add_of_le (by omega)
  have hscaled : m * 2 ^ shift * unitsPerOne = m * 2 ^ left * 2 ^ gap := by
    rw [hunits, Nat.mul_assoc, ← Nat.pow_add, hgap, Nat.pow_add, Nat.mul_assoc]
  have hwidth : Nat.log2 (m * 2 ^ left * 2 ^ gap) - 52 = gap := by
    rw [Nat.mul_assoc, ← Nat.pow_add, log2_mul_pow hpos]
    omega
  -- the significand is shifted until it has 53 bits
  have hlow : 2 ^ 52 ≤ m * 2 ^ left := by
    rw [hleft, Nat.pow_add]
    exact Nat.mul_le_mul_right _ (Nat.log2_self_le hpos)
  have hhigh : m * 2 ^ left < 2 ^ 53 := by
    rw [show 53 = Nat.log2 m + 1 + left by omega, Nat.pow_add]
    exact Nat.mul_lt_mul_of_pos_right Nat.lt_log2_self (Nat.two_pow_pos _)
  rw [nearestRank, Nat.div_one, hscaled, hwidth, Nat.one_mul, Nat.pow_eq,
    roundHalfEven_exact (Nat.two_pow_pos _)]
  exact units_eq hlow hhigh

theorem roundHalfEven_le (num den : Nat) : roundHalfEven num den ≤ num / den + 1 := by
  simp only [roundHalfEven]
  split
  · omega
  · split <;> omega

/-- A quotient of so many bits has a rank that is not beyond those of as many. -/
theorem nearestRank_le (hd : 0 < den) (h : num < den * 2 ^ bits) :
    nearestRank num den ≤ (bits + 1023) * 0x10000000000000 := by
  obtain ⟨width, hw, hunits⟩ := exists_unitsPerOne_eq
  have hq : num * unitsPerOne / den < 2 ^ (bits + width) := by
    rw [Nat.div_lt_iff_lt_mul hd, hunits, Nat.pow_add, Nat.mul_right_comm, Nat.mul_comm _ den]
    exact Nat.mul_lt_mul_of_pos_right h (Nat.two_pow_pos width)
  simp only [nearestRank]
  generalize hs : num * unitsPerOne = scaled at *
  obtain ⟨gap, hgap⟩ : ∃ gap, gap = Nat.log2 (scaled / den) - 52 := ⟨_, rfl⟩
  have hlog : Nat.log2 (scaled / den) < bits + width := by
    rcases Nat.eq_zero_or_pos (scaled / den) with hz | hpos
    · rw [hz]
      exact Nat.lt_of_lt_of_le (by decide : Nat.log2 0 < 1074) (hw ▸ Nat.le_add_left ..)
    · exact (Nat.log2_lt (Nat.ne_of_gt hpos)).mpr hq
  have hround : scaled / den / 2 ^ gap < 2 ^ 53 := by
    rw [Nat.div_lt_iff_lt_mul (Nat.two_pow_pos gap), ← Nat.pow_add]
    exact Nat.lt_of_lt_of_le Nat.lt_log2_self (Nat.pow_le_pow_right (by decide) (by omega))
  have hr := roundHalfEven_le scaled (den * 2 ^ gap)
  rw [← Nat.div_div_eq_div_mul] at hr
  rw [← hgap, Nat.pow_eq]
  omega

/-- The powers of ten that have at most 53 significant bits. -/
theorem units_powerOfTen (hk : k ≤ 22) : Json.powerOfTen k = 10 ^ k * unitsPerOne := by
  have hm : 5 ^ k < 0x20000000000000 :=
    Nat.lt_of_le_of_lt (Nat.pow_le_pow_right (by decide) hk) (by decide)
  have hsplit : 10 ^ k = 5 ^ k * 2 ^ k := by rw [← Nat.mul_pow]
  rw [Json.powerOfTen, Nat.pow_eq, hsplit]
  exact units_nearestRank hm (Nat.ne_of_gt (Nat.pow_pos (by decide))) k

theorem units_nearestRank_one (hm : m < 0x20000000000000) :
    units (nearestRank m 1) = m * unitsPerOne := by
  rcases Nat.eq_zero_or_pos m with rfl | hpos
  · rw [nearestRank_zero, Nat.zero_mul]
    rfl
  · have h := units_nearestRank hm (Nat.ne_of_gt hpos) 0
    rwa [Nat.pow_zero, Nat.mul_one] at h

theorem ofRatio_zero (negative : Bool) (den : Nat) : ofRatio negative 0 den = zero negative := by
  simp only [ofRatio, nearestRank_zero]
  rfl

theorem ofDecimal_ofNat {k : Nat} (negative : Bool) (m : Nat) (hk : k ≤ 22) :
    ofDecimal negative m k = ofRatio negative (m * 10 ^ k) 1 := by
  have hlow : ¬ (k : Int) + (Nat.log2 m : Int) / 3 < -800 := by omega
  have he : (k : Int) ≥ 0 ∧ ¬ (k : Int) > 400 := by omega
  simp only [ofDecimal, hlow, he, if_true, if_false, Int.toNat_natCast, Nat.pow_eq]
  split
  · next hm => rw [hm, Nat.zero_mul, ofRatio_zero]
  · rfl

theorem ofDecimal_negOfNat {k : Nat} (negative : Bool) (m : Nat) (hk : k ≤ 22) (hpos : 0 < k) :
    ofDecimal negative m (-k) = ofRatio negative m (10 ^ k) := by
  have hlow : ¬ -(k : Int) + (Nat.log2 m : Int) / 3 < -800 := by omega
  have he : ¬ -(k : Int) ≥ 0 ∧ ¬ -(k : Int) > 400 := by omega
  simp only [ofDecimal, hlow, he, if_false, Int.neg_neg, Int.toNat_natCast, Nat.pow_eq]
  split
  · next hm => rw [hm, ofRatio_zero]
  · rfl

end Binary64

namespace Json

open Binary64 (nearestRank unitsPerOne)

theorem unitsPerOne_pos : 0 < unitsPerOne := by
  obtain ⟨width, -, h⟩ := Binary64.exists_unitsPerOne_eq
  rw [h]
  exact Nat.two_pow_pos width

/-- The rank of a float of which some digits are read. -/
def Partial.rank (p : Partial) : Nat :=
  let rank := nearestRank p.significand 1
  if p.exponent ≥ 0 then
    if p.exponent ≤ 308 then
      nearestRank (Binary64.units rank * powerOfTen p.exponent.toNat) (unitsPerOne * unitsPerOne)
    else if rank = 0 then 0 else 0x7ff0000000000000
  else
    let size := (-p.exponent).toNat
    let times := (size - 1) / 308
    quotientRank (shrink rank (min times 3)) (powerOfTen (size - 308 * times))

theorem value?_eq_rank (p : Partial) : p.value? =
    if h : p.rank < 0x7ff0000000000000 then some (.finite p.negative ⟨p.rank, h⟩) else none := rfl

theorem isFinite_of_value? {p : Partial} (h : p.value? = some value) : value.isFinite = true := by
  rw [value?_eq_rank] at h
  split at h
  · cases h
    rfl
  · cases h

theorem value?_of_rank {p : Partial} (hr : p.rank = nearestRank num den) (hd : 0 < den)
    (hn : num < den * 2 ^ 127) : p.value? = some (.ofRatio p.negative num den) := by
  have hle := Binary64.nearestRank_le hd hn
  have hlt : nearestRank num den < 0x7ff0000000000000 := by omega
  rw [value?_eq_rank, hr, dif_pos hlt, Binary64.ofRatio, dif_pos hlt]

theorem rank_ofNat {k : Nat} (negative : Bool) (hs : m < 0x20000000000000) (hk : k ≤ 22) :
    (⟨negative, m, k⟩ : Partial).rank = nearestRank (m * 10 ^ k) 1 := by
  have hp := Nat.mul_pos unitsPerOne_pos unitsPerOne_pos
  have he : (k : Int) ≥ 0 ∧ (k : Int) ≤ 308 := by omega
  simp only [Partial.rank, he, if_true, Int.toNat_natCast]
  rw [Binary64.units_nearestRank_one hs, Binary64.units_powerOfTen hk, Nat.mul_mul_mul_comm,
    ← Binary64.nearestRank_mul (m * 10 ^ k) 1 hp, Nat.one_mul]

theorem rank_negOfNat {k : Nat} (negative : Bool) (hs : m < 0x20000000000000) (hk : k ≤ 22)
    (hpos : 0 < k) : (⟨negative, m, -k⟩ : Partial).rank = nearestRank m (10 ^ k) := by
  have he : ¬ (-(k : Int) ≥ 0) := by omega
  have ht : (k - 1) / 308 = 0 := by omega
  have hr : (⟨negative, m, -k⟩ : Partial).rank = quotientRank (nearestRank m 1) (powerOfTen k) := by
    rw [Partial.rank, if_neg he, Int.neg_neg, Int.toNat_natCast]
    show quotientRank (shrink _ (min ((k - 1) / 308) 3))
      (powerOfTen (k - 308 * ((k - 1) / 308))) = _
    rw [ht]
    rfl
  rw [hr, quotientRank, Binary64.units_nearestRank_one hs, Binary64.units_powerOfTen hk]
  exact Binary64.nearestRank_mul _ _ unitsPerOne_pos

theorem pow_ten_lt (hk : k ≤ 22) : 10 ^ k < 2 ^ 74 :=
  Nat.lt_of_le_of_lt (Nat.pow_le_pow_right (by decide) hk) (by decide)

/-- A float of few digits is the one nearest to its decimal, which is rounded only once. -/
theorem value?_eq (p : Partial) (hs : p.significand < 0x20000000000000) (hl : -22 ≤ p.exponent)
    (hu : p.exponent ≤ 22) : p.value? = some (.ofDecimal p.negative p.significand p.exponent) := by
  obtain ⟨negative, m, exponent⟩ := p
  dsimp only at hs hl hu ⊢
  obtain ⟨k, hk⟩ : ∃ k : Nat, k = exponent.natAbs := ⟨_, rfl⟩
  have hten := pow_ten_lt (show k ≤ 22 by omega)
  by_cases he : 0 ≤ exponent
  · obtain rfl : exponent = k := by omega
    have hn : m * 10 ^ k < 1 * 2 ^ 127 :=
      Nat.lt_of_lt_of_le (Nat.mul_lt_mul'' hs hten) (by decide)
    rw [value?_of_rank (rank_ofNat negative hs (by omega)) Nat.one_pos hn, Binary64.ofDecimal_ofNat]
    omega
  · obtain rfl : exponent = -k := by omega
    have hn : m < 10 ^ k * 2 ^ 127 :=
      Nat.lt_of_lt_of_le (Nat.lt_trans hs (by decide))
        (Nat.le_mul_of_pos_left _ (Nat.pow_pos (by decide)))
    rw [value?_of_rank (rank_negOfNat negative hs (by omega) (by omega))
      (Nat.pow_pos (by decide)) hn,
      Binary64.ofDecimal_negOfNat]
    all_goals omega

end Json
end ApiPresence
