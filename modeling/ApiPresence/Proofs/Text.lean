import ApiPresence.Proofs.Number
import ApiPresence.Text

namespace ApiPresence

/-- A text without line breaks. -/
def OneLine (s : String) : Prop := '\n' ∉ s.toList

instance (s : String) : Decidable (OneLine s) := inferInstanceAs (Decidable (¬ _))

@[simp]
theorem oneLine_append : OneLine (s ++ t) ↔ OneLine s ∧ OneLine t := by
  simp [OneLine]

theorem oneLine_ofList : OneLine (String.ofList text) ↔ '\n' ∉ text := by
  rw [OneLine, String.toList_ofList]

theorem oneLine_empty : OneLine "" := List.not_mem_nil

theorem oneLine_repr (n : Nat) : OneLine (Nat.repr n) := by
  rw [Nat.repr_eq_ofList_toDigits, oneLine_ofList]
  exact FloatNotation.not_mem_digitsOf rfl n

theorem oneLine_wholeOf (n : Int) : OneLine (String.ofList (FloatNotation.wholeOf n)) :=
  oneLine_ofList.mpr (FloatNotation.not_mem_wholeOf rfl n)

theorem oneLine_numberText (n : Number) : OneLine (String.ofList (Json.numberText n)) :=
  oneLine_ofList.mpr (Json.not_mem_numberText rfl (by decide) n)

theorem Binary64.oneLine_fullText (value : Binary64) : OneLine value.fullText := by
  cases value with
  | finite negative rank => exact oneLine_ofList.mpr (FloatNotation.not_mem_text rfl _ _ _)
  | infinite negative => cases negative <;> decide
  | nan => decide

namespace Text

theorem not_mem_toDigits (hb : 1 < base) (n : Nat) : '\n' ∉ Nat.toDigits base n := by
  induction n using Nat.strongRecOn with
  | _ n ih =>
    rw [Nat.toDigits_eq_if hb]
    split
    · simp [(Nat.digitChar_ne '\n' rfl).symm]
    · next hn =>
      have hl : n / base < n := Nat.div_lt_self (by omega) hb
      simp [ih _ hl, (Nat.digitChar_ne '\n' rfl).symm]

theorem not_mem_quotedChar (c : Char) : '\n' ∉ quotedChar c := by
  unfold quotedChar
  split
  case h_7 hn _ _ _ =>
    -- What prints is in a table too large to look into.
    generalize isPrinting c = printing
    cases printing with
    | true => simpa using fun h => hn h.symm
    | false => simp [not_mem_toDigits]
  all_goals decide

/-- A text in quotes shows its line breaks by escapes. -/
theorem oneLine_quoted (s : String) : OneLine (quoted s) := by
  rw [quoted, oneLine_ofList]
  simp [not_mem_quotedChar]

end Text
end ApiPresence
