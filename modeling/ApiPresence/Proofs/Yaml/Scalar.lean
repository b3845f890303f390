import ApiPresence.Proofs.Json.Lexeme
import ApiPresence.Yaml.Scalar

namespace ApiPresence.Yaml

open FloatNotation (digitsOf wholeOf)
open Text (digit? digits?)

theorem digit?_of_isDigit (h : c.isDigit = true) : digit? 10 c = some (c.toNat - '0'.toNat) := by
  have hv : c.toNat - 48 < 10 := by
    simp only [Char.isDigit, Bool.and_eq_true, decide_eq_true_eq, UInt32.le_iff_toNat_le] at h
    have hl : c.toNat ≤ 57 := h.2
    omega
  have hd : Text.isDigit c = true := h
  simp only [digit?, hd, if_true]
  exact if_pos hv

theorem foldlM_digits (hd : ∀ c ∈ digits, c.isDigit = true) (n : Nat) :
    digits.foldlM (fun n c => (digit? 10 c).map (n * 10 + ·)) n =
      some (Nat.ofDigitChars 10 digits n) := by
  induction digits generalizing n with
  | nil => rfl
  | cons c digits ih =>
    obtain ⟨hc, hds⟩ := List.forall_mem_cons.mp hd
    rw [List.foldlM_cons, digit?_of_isDigit hc, Nat.ofDigitChars_cons, Nat.mul_comm 10]
    exact ih hds _

theorem isDigit_of_mem_digitsOf (hc : c ∈ digitsOf n) : c.isDigit = true :=
  Nat.isDigit_of_mem_toDigits (by decide) (by decide) hc

theorem digits?_digitsOf (n : Nat) : digits? 10 (digitsOf n) = some n := by
  have hf := foldlM_digits (fun c (hc : c ∈ digitsOf n) => isDigit_of_mem_digitsOf hc) 0
  have hv : Nat.ofDigitChars 10 (digitsOf n) 0 = n := Nat.ofDigitChars_ten_toDigits
  obtain ⟨c, digits, hs, -⟩ := FloatNotation.digitsOf_eq_cons n
  rw [hv, hs] at hf
  rw [hs]
  exact hf

theorem base?_digitsOf (n : Nat) : base? (digitsOf n) = none := by
  have hn (x : Char) (hx : x.isDigit = false) (rest : List Char) :
      digitsOf n ≠ '0' :: x :: rest := by
    intro he
    have hd : x.isDigit = true := isDigit_of_mem_digitsOf (n := n) (by simp [he])
    rw [hx] at hd
    cases hd
  unfold base?
  split
  · next he => exact absurd he (hn 'x' rfl _)
  · next he => exact absurd he (hn 'o' rfl _)
  · next he => exact absurd he (hn 'b' rfl _)
  · rfl

theorem not_signed_digitsOf (n : Nat) (hx : x.isDigit = false) (rest : List Char) :
    digitsOf n ≠ x :: rest := by
  intro he
  have hd : x.isDigit = true := isDigit_of_mem_digitsOf (n := n) (by simp [he])
  rw [hx] at hd
  cases hd

theorem not_zeroPadded_digitsOf (n : Nat) (c : Char) (rest : List Char) :
    digitsOf n ≠ '0' :: c :: rest := by
  intro he
  rcases Nat.eq_zero_or_pos n with rfl | hp
  · cases he
  · exact Json.head?_digitsOf hp (by rw [he, List.head?_cons])

theorem wholeOf_cases (n : Int) :
    (n < 0 ∧ wholeOf n = '-' :: digitsOf n.natAbs) ∨ (0 ≤ n ∧ wholeOf n = digitsOf n.natAbs) := by
  rw [wholeOf]
  split
  · next hn => exact .inl ⟨hn, rfl⟩
  · next hn => exact .inr ⟨Int.not_lt.mp hn, rfl⟩

theorem isZeroPadded_wholeOf (n : Int) : isZeroPadded (wholeOf n) = false := by
  have hz := not_zeroPadded_digitsOf n.natAbs
  obtain ⟨-, hw⟩ | ⟨-, hw⟩ := wholeOf_cases n <;> rw [hw, isZeroPadded]
  · exact hz
  · exact not_signed_digitsOf n.natAbs (x := '+') rfl
  · exact not_signed_digitsOf n.natAbs (x := '-') rfl
  · exact hz

theorem whole?_wholeOf (n : Int) : whole? (wholeOf n) = some n := by
  have hz := isZeroPadded_wholeOf n
  obtain ⟨hn, hw⟩ | ⟨hn, hw⟩ := wholeOf_cases n <;> rw [hw] at hz ⊢
  · have hm : -(n.natAbs : Int) = n := by omega
    rw [whole?, hz, if_neg Bool.false_ne_true]
    simp only [base?_digitsOf, digits?_digitsOf, if_true]
    exact congrArg some hm
  · have hm : (n.natAbs : Int) = n := by omega
    rw [whole?, hz, if_neg Bool.false_ne_true]
    · simp only [base?_digitsOf, digits?_digitsOf, Bool.false_eq_true, if_false]
      exact congrArg some hm
    · exact not_signed_digitsOf n.natAbs (x := '+') rfl
    · exact not_signed_digitsOf n.natAbs (x := '-') rfl

/-- A word with a letter that is in no number is not that of a number. -/
theorem wholeOf_beq (hw : word.all isNumeral = false) (n : Int) :
    (wholeOf n == word) = false := by
  obtain ⟨x, hx, hc⟩ := List.all_eq_false.mp hw
  rw [beq_eq_false_iff_ne]
  rintro rfl
  exact FloatNotation.not_mem_wholeOf (Bool.eq_false_iff.mpr hc) n hx

theorem resolve_wholeOf (hn : -0x8000000000000000 ≤ n ∧ n < 0x10000000000000000) :
    resolve (wholeOf n) = .number (.whole n hn) := by
  have he : (wholeOf n).isEmpty = false := by
    obtain ⟨c, digits, hs, -⟩ := FloatNotation.digitsOf_eq_cons n.natAbs
    obtain ⟨-, hw⟩ | ⟨-, hw⟩ := wholeOf_cases n <;> rw [hw, hs] <;> rfl
  have hnull : isNull (wholeOf n) = false := by
    simp (disch := decide) only [isNull, wholeOf_beq, Bool.or_self]
  have hbool : bool? (wholeOf n) = none := by
    simp (disch := decide) only [bool?, wholeOf_beq, Bool.or_self, Bool.false_eq_true, if_false]
  have hl : isLong n = true := by simp [isLong, hn]
  simp only [resolve, he, hnull, hbool, whole?_wholeOf, hl, Bool.or_self, Bool.false_eq_true,
    if_false, if_true, Number.ofInt, dif_pos hn]

end ApiPresence.Yaml
