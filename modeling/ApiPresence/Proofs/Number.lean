import ApiPresence.Json.Printer

namespace ApiPresence

/-- The characters of numbers: digits, signs, points and the marks of exponents. -/
def isNumeral (c : Char) : Bool := c.isDigit || c ∈ ['+', '-', '.', 'e']

namespace FloatNotation

theorem digitsOf_eq_cons (n : Nat) :
    ∃ c digits, digitsOf n = c :: digits ∧ c.isDigit = true := by
  have hn : digitsOf n ≠ [] := Nat.toDigits_ne_nil
  obtain ⟨c, digits, hs⟩ := List.exists_cons_of_ne_nil hn
  have hm : c ∈ digitsOf n := by
    rw [hs]
    exact List.mem_cons_self
  exact ⟨c, digits, hs, Nat.isDigit_of_mem_toDigits (by decide) (by decide) hm⟩

theorem not_mem_digitsOf (hc : isNumeral c = false) (n : Nat) : c ∉ digitsOf n := by
  intro h
  have hd := Nat.isDigit_of_mem_toDigits (by decide) (by decide) h
  simp [isNumeral, hd] at hc

theorem not_mem_wholeOf (hc : isNumeral c = false) (n : Int) : c ∉ wholeOf n := by
  have hs : c ≠ '-' := by
    rintro rfl
    cases hc
  rw [wholeOf]
  split <;> simp [not_mem_digitsOf hc, hs]

theorem not_mem_magnitude (hc : isNumeral c = false) (style : FloatNotation) (d : Decimal) :
    c ∉ style.magnitude d := by
  have hd := not_mem_digitsOf hc d.digits
  have ht (k) : c ∉ (digitsOf d.digits).take k := fun h => hd (List.mem_of_mem_take h)
  have hr (k) : c ∉ (digitsOf d.digits).drop k := fun h => hd (List.mem_of_mem_drop h)
  have hl : c ∉ (digitsOf d.digits).tail := fun h => hd (List.mem_of_mem_tail h)
  have hs : c ≠ '0' ∧ c ≠ '+' ∧ c ≠ '.' ∧ c ≠ 'e' := by
    refine ⟨?_, ?_, ?_, ?_⟩ <;> (rintro rfl; cases hc)
  simp only [magnitude, zeros]
  repeat' split
  all_goals simp [hd, ht, hr, hl, hs, not_mem_wholeOf hc]

theorem not_mem_text (hc : isNumeral c = false) (style : FloatNotation) (negative : Bool)
    (rank : Nat) : c ∉ style.text negative rank := by
  have hs : c ≠ '-' := by
    rintro rfl
    cases hc
  rw [text]
  split <;> simp [not_mem_magnitude hc, hs]

end FloatNotation

theorem Json.not_mem_numberText (hc : isNumeral c = false) (hn : c ∉ ['n', 'u', 'l', 'l'])
    (n : Number) : c ∉ numberText n := by
  cases n with
  | whole value inRange => exact FloatNotation.not_mem_wholeOf hc value
  | float value =>
    cases value with
    | finite negative rank => exact FloatNotation.not_mem_text hc _ _ _
    | infinite negative => exact hn
    | nan => exact hn

end ApiPresence
