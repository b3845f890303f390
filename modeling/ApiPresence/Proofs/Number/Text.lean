import ApiPresence.Proofs.Number
import ApiPresence.Proofs.Number.Shortest
import Mathlib.Data.List.TakeWhile

namespace ApiPresence.FloatNotation

/-- The digits of a text as one number. -/
def significand (chars : List Char) : Nat := Nat.ofDigitChars 10 (chars.filter Char.isDigit) 0

/-- The value of a text with a point or without one. -/
def positionalValue (chars : List Char) : ℚ :=
  significand chars * 10 ^ (-((chars.dropWhile (· != '.')).length - 1 : Nat) : Int)

/-- The value of what stands behind the mark of an exponent, the mark included. -/
def exponentValue (chars : List Char) : Int :=
  if '-' ∈ chars then -significand chars else significand chars

/-- The value of the text of a magnitude, whichever notation it is in. -/
def textValue (chars : List Char) : ℚ :=
  positionalValue (chars.takeWhile (· != 'e')) * 10 ^ exponentValue (chars.dropWhile (· != 'e'))

variable {chars whole fraction digits : List Char}

theorem bne_of_not_mem {x : Char} (h : x ∉ chars) : ∀ c ∈ chars, (c != x) = true := by
  intro c hc
  rw [bne_iff_ne]
  rintro rfl
  exact h hc

theorem not_mem_of_isDigit {x : Char} (hx : x.isDigit = false)
    (h : ∀ c ∈ digits, c.isDigit = true) : x ∉ digits := by
  intro hm
  rw [h x hm] at hx
  cases hx

theorem isDigit_digitsOf (n : Nat) : ∀ c ∈ digitsOf n, c.isDigit = true :=
  fun _ hc => Nat.isDigit_of_mem_toDigits (by decide) (by decide) hc

theorem isDigit_zeros (n : Nat) : ∀ c ∈ zeros n, c.isDigit = true := by
  intro c hc
  rw [List.eq_of_mem_replicate hc]
  rfl

theorem ofDigitChars_digitsOf (n : Nat) : Nat.ofDigitChars 10 (digitsOf n) 0 = n :=
  Nat.ofDigitChars_ten_toDigits

theorem ofDigitChars_append_zeros (digits : List Char) (n : Nat) :
    Nat.ofDigitChars 10 (digits ++ zeros n) 0 = Nat.ofDigitChars 10 digits 0 * 10 ^ n := by
  rw [Nat.ofDigitChars_append, zeros, Nat.ofDigitChars_replicate_zero, mul_comm]

theorem ofDigitChars_zeros_append (digits : List Char) (n : Nat) :
    Nat.ofDigitChars 10 (zeros n ++ digits) 0 = Nat.ofDigitChars 10 digits 0 := by
  rw [Nat.ofDigitChars_append, zeros, Nat.ofDigitChars_replicate_zero, Nat.mul_zero]

theorem significand_digits (h : ∀ c ∈ digits, c.isDigit = true) :
    significand digits = Nat.ofDigitChars 10 digits 0 := by
  rw [significand, List.filter_eq_self.mpr h]

theorem positionalValue_digits (hw : ∀ c ∈ whole, c.isDigit = true) :
    positionalValue whole = Nat.ofDigitChars 10 whole 0 := by
  have hn := bne_of_not_mem (not_mem_of_isDigit (x := '.') rfl hw)
  rw [positionalValue, significand_digits hw, List.dropWhile_eq_nil_iff.mpr hn]
  simp

theorem positionalValue_point (hw : ∀ c ∈ whole, c.isDigit = true)
    (hf : ∀ c ∈ fraction, c.isDigit = true) :
    positionalValue (whole ++ '.' :: fraction) =
      Nat.ofDigitChars 10 (whole ++ fraction) 0 * 10 ^ (-fraction.length : Int) := by
  have hn := bne_of_not_mem (not_mem_of_isDigit (x := '.') rfl hw)
  have hs : significand (whole ++ '.' :: fraction) = Nat.ofDigitChars 10 (whole ++ fraction) 0 := by
    rw [significand, List.filter_append, List.filter_cons, List.filter_eq_self.mpr hw,
      List.filter_eq_self.mpr hf]
    rfl
  rw [positionalValue, hs, List.dropWhile_append_of_pos hn]
  simp

theorem textValue_plain (h : 'e' ∉ chars) : textValue chars = positionalValue chars := by
  have hn := bne_of_not_mem h
  rw [textValue, List.takeWhile_eq_self_iff.mpr hn, List.dropWhile_eq_nil_iff.mpr hn]
  simp [exponentValue, significand]

theorem textValue_exponent (h : 'e' ∉ chars) (exponent : List Char) :
    textValue (chars ++ 'e' :: exponent) =
      positionalValue chars * 10 ^ exponentValue ('e' :: exponent) := by
  have hn := bne_of_not_mem h
  rw [textValue, List.takeWhile_append_of_pos hn, List.dropWhile_append_of_pos hn]
  simp

theorem not_mem_point (hw : ∀ c ∈ whole, c.isDigit = true)
    (hf : ∀ c ∈ fraction, c.isDigit = true) : 'e' ∉ whole ++ '.' :: fraction := by
  have hn := not_mem_of_isDigit (x := 'e') rfl hw
  have hn' := not_mem_of_isDigit (x := 'e') rfl hf
  simp [hn, hn']

theorem textValue_point (hw : ∀ c ∈ whole, c.isDigit = true)
    (hf : ∀ c ∈ fraction, c.isDigit = true) :
    textValue (whole ++ '.' :: fraction) =
      Nat.ofDigitChars 10 (whole ++ fraction) 0 * 10 ^ (-fraction.length : Int) := by
  rw [textValue_plain (not_mem_point hw hf), positionalValue_point hw hf]

theorem exponentValue_wholeOf (hs : sign = [] ∨ sign = ['+']) (n : Int) :
    exponentValue ('e' :: (sign ++ wholeOf n)) = n := by
  have hd := isDigit_digitsOf n.natAbs
  have hm : '-' ∉ digitsOf n.natAbs := not_mem_of_isDigit rfl hd
  have hf : (digitsOf n.natAbs).filter Char.isDigit = digitsOf n.natAbs :=
    List.filter_eq_self.mpr hd
  have hv : significand ('e' :: (sign ++ wholeOf n)) = n.natAbs := by
    rw [significand, wholeOf]
    rcases hs with rfl | rfl <;> split <;> simp [hf, ofDigitChars_digitsOf]
  have he : '-' ∈ 'e' :: (sign ++ wholeOf n) ↔ n < 0 := by
    rw [wholeOf]
    rcases hs with rfl | rfl <;> split <;> simp_all
  simp only [exponentValue, hv, he]
  split <;> omega

/-- One digit, the others behind a point if there are any, and an exponent. -/
theorem textValue_scientific (hd : ∀ c ∈ digits, c.isDigit = true) (hl : 0 < digits.length)
    (hs : sign = [] ∨ sign = ['+']) (n : Int) :
    textValue (digits.take 1 ++ (if digits.length ≤ 1 then [] else '.' :: digits.drop 1) ++
        'e' :: sign ++ wholeOf n) =
      Nat.ofDigitChars 10 digits 0 * 10 ^ (n + 1 - digits.length) := by
  have ht : ∀ c ∈ digits.take 1, c.isDigit = true := fun c hc => hd c (List.mem_of_mem_take hc)
  have hr : ∀ c ∈ digits.drop 1, c.isDigit = true := fun c hc => hd c (List.mem_of_mem_drop hc)
  rw [List.append_assoc, List.cons_append]
  split
  · next h1 =>
    rw [List.take_of_length_le h1, List.append_nil, textValue_exponent
      (not_mem_of_isDigit (x := 'e') rfl hd), positionalValue_digits hd, exponentValue_wholeOf hs]
    congr 2
    omega
  · next h1 =>
    rw [textValue_exponent (not_mem_point ht hr), positionalValue_point ht hr,
      exponentValue_wholeOf hs, List.take_append_drop, mul_assoc, ← zpow_add₀ (by decide)]
    congr 2
    rw [List.length_drop]
    omega

/-- The text of a magnitude has the value of its decimal. -/
theorem textValue_magnitude (style : FloatNotation) (d : Decimal) :
    textValue (style.magnitude d) = d.value := by
  have hd := isDigit_digitsOf d.digits
  have hv := ofDigitChars_digitsOf d.digits
  have hl : 0 < (digitsOf d.digits).length := by
    obtain ⟨c, rest, hs, -⟩ := digitsOf_eq_cons d.digits
    rw [hs]
    exact Nat.succ_pos _
  have h0 := isDigit_zeros 1
  rw [magnitude, Decimal.value]
  generalize digitsOf d.digits = digits at *
  split
  · next hp =>
    -- A whole number: a zero behind the point, and zeros for the exponent before it.
    obtain ⟨n, hn⟩ := Int.eq_ofNat_of_zero_le hp.1
    have hw : ∀ c ∈ digits ++ zeros n, c.isDigit = true :=
      List.forall_mem_append.mpr ⟨hd, isDigit_zeros n⟩
    have hk : Nat.ofDigitChars 10 (digits ++ zeros n ++ zeros 1) 0 = d.digits * 10 ^ n * 10 := by
      rw [ofDigitChars_append_zeros, ofDigitChars_append_zeros, hv, pow_one]
    rw [hn, Int.toNat_natCast]
    refine (textValue_point hw h0).trans ?_
    rw [hk]
    simp [zeros]
  · split
    · -- The point stands among the digits.
      have ht : ∀ c ∈ digits.take (digits.length + d.exponent).toNat, c.isDigit = true :=
        fun c hc => hd c (List.mem_of_mem_take hc)
      have hr : ∀ c ∈ digits.drop (digits.length + d.exponent).toNat, c.isDigit = true :=
        fun c hc => hd c (List.mem_of_mem_drop hc)
      rw [textValue_point ht hr, List.take_append_drop, hv]
      congr 2
      rw [List.length_drop]
      omega
    · split
      · -- The point stands before the digits, with zeros between them.
        generalize hn : (-(digits.length + d.exponent)).toNat = n
        have hf : ∀ c ∈ zeros n ++ digits, c.isDigit = true :=
          List.forall_mem_append.mpr ⟨isDigit_zeros n, hd⟩
        have hk : Nat.ofDigitChars 10 (zeros 1 ++ (zeros n ++ digits)) 0 = d.digits := by
          rw [ofDigitChars_zeros_append, ofDigitChars_zeros_append, hv]
        refine (textValue_point h0 hf).trans ?_
        rw [hk]
        congr 2
        simp only [zeros, List.length_append, List.length_replicate]
        omega
      · refine (textValue_scientific hd hl ?_ _).trans ?_
        · split
          · exact .inr rfl
          · exact .inl rfl
        · rw [hv]
          congr 2
          omega

theorem magnitude_head (style : FloatNotation) (d : Decimal) :
    ∃ c rest, style.magnitude d = c :: rest ∧ c.isDigit = true := by
  obtain ⟨c, digits, hs, hc⟩ := digitsOf_eq_cons d.digits
  rw [magnitude, hs]
  split
  · exact ⟨c, _, rfl, hc⟩
  · split
    · next hp =>
      obtain ⟨n, hn⟩ := Nat.exists_eq_succ_of_ne_zero
        (n := ((c :: digits).length + d.exponent).toNat) (by omega)
      rw [hn]
      exact ⟨c, _, rfl, hc⟩
    · split
      · exact ⟨'0', _, rfl, rfl⟩
      · exact ⟨c, _, rfl, hc⟩

/-- Every text of a float has a point or an exponent. -/
theorem mark_mem_magnitude (style : FloatNotation) (d : Decimal) :
    ∃ c ∈ style.magnitude d, c = '.' ∨ c = 'e' := by
  rw [magnitude]
  split
  · exact ⟨'.', by simp, .inl rfl⟩
  · split
    · exact ⟨'.', by simp, .inl rfl⟩
    · split
      · exact ⟨'.', by simp, .inl rfl⟩
      · exact ⟨'e', by simp, .inr rfl⟩

/-- Different floats have different texts. -/
theorem text_injective {style : FloatNotation} (hr : r < 0x7ff0000000000000)
    (hs : s < 0x7ff0000000000000) (h : style.text m r = style.text n s) : m = n ∧ r = s := by
  obtain ⟨c, rest, hc, hd⟩ := style.magnitude_head (Binary64.shortest r)
  obtain ⟨c', rest', hc', hd'⟩ := style.magnitude_head (Binary64.shortest s)
  have hv (he : style.magnitude (Binary64.shortest r) = style.magnitude (Binary64.shortest s)) :
      r = s := by
    refine Binary64.rank_of_shortest hr hs ?_
    rw [← textValue_magnitude style, he, textValue_magnitude]
  cases m <;> cases n <;> simp only [text, if_true, Bool.false_eq_true, if_false] at h
  · exact ⟨rfl, hv h⟩
  · rw [hc] at h
    cases h
    cases hd
  · rw [hc'] at h
    cases h
    cases hd'
  · exact ⟨rfl, hv (List.cons.inj h).2⟩

end ApiPresence.FloatNotation
