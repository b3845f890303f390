import ApiPresence.Json.Lexeme
import ApiPresence.Json.Printer
import ApiPresence.Proofs.Number
import Mathlib.Data.List.Basic

namespace ApiPresence

namespace Text

theorem digit?_digitChar (upper : Bool) (h : n < 16) : digit? 16 (digitChar upper n) = some n := by
  cases upper <;> decide +revert

theorem length_hexDigits (upper : Bool) (n k : Nat) : (hexDigits upper n k).length = k := by
  induction k generalizing n with
  | zero => rfl
  | succ k ih => rw [hexDigits, List.length_append, ih, List.length_singleton]

end Text

namespace Json

open Text (digit? digit?_digitChar digitChar hexDigits isDigit digitValue)

theorem readHex4_hexDigits (h : n < 0x10000) (rest : List Char) :
    readHex4 (hexDigits false n 4 ++ rest) = .ok (n, rest) := by
  have hd (k : Nat) : digit? 16 (digitChar false (k % 16)) = some (k % 16) :=
    digit?_digitChar false (Nat.mod_lt k (by decide))
  have hn : ((n / 16 / 16 / 16 % 16 * 16 + n / 16 / 16 % 16) * 16 + n / 16 % 16) * 16 + n % 16 =
      n := by omega
  simp only [hexDigits, List.nil_append, List.cons_append, readHex4, hd, hn]

theorem readUnicodeEscape_hexDigits (h : n < 0xd800) (rest : List Char) :
    readUnicodeEscape (hexDigits false n 4 ++ rest) = .ok (Char.ofNat n, rest) := by
  rw [readUnicodeEscape, readHex4_hexDigits (by omega)]
  have hs : ¬ (0xdc00 ≤ n ∧ n ≤ 0xdfff) := by omega
  exact (if_neg hs).trans (if_pos (.inl h))

/-- A character that is written is read as itself. -/
theorem readChars_escape (fuel : Nat) (c : Char) (rest : List Char) :
    readChars (fuel + 1) (escape c ++ rest) = (do
      let (cs, rest) ← readChars fuel rest
      .ok (c :: cs, rest)) := by
  unfold escape
  split
  case h_8 hq hb _ _ _ _ _ =>
    split
    · next hc =>
      have hu := readUnicodeEscape_hexDigits (Nat.lt_trans hc (by decide)) rest
      rw [Char.ofNat_toNat] at hu
      simp only [List.cons_append, readChars, readEscape, hu]
      rfl
    · next hc => simp [readChars, hc]
  all_goals rfl

theorem readChars_flatMap_escape (h : cs.length ≤ fuel) (rest : List Char) :
    readChars fuel (cs.flatMap escape ++ '"' :: rest) = .ok (cs, rest) := by
  induction cs generalizing fuel with
  | nil => cases fuel <;> rfl
  | cons c cs ih =>
    cases fuel with
    | zero => cases h
    | succ fuel =>
      rw [List.flatMap_cons, List.append_assoc, readChars_escape, ih (Nat.le_of_succ_le_succ h)]
      rfl

theorem length_le_flatMap_escape (cs : List Char) : cs.length ≤ (cs.flatMap escape).length := by
  induction cs with
  | nil => exact Nat.le_refl _
  | cons c cs ih =>
    have hc : 0 < (escape c).length := by
      unfold escape
      split
      case h_8 => split <;> simp
      all_goals simp
    rw [List.flatMap_cons, List.length_append, List.length_cons]
    omega

theorem readString_escape (s : String) (rest : List Char) :
    readString (s.toList.flatMap escape ++ '"' :: rest) = .ok (s, rest) := by
  have hf : s.toList.length ≤ (s.toList.flatMap escape ++ '"' :: rest).length := by
    rw [List.length_append]
    exact Nat.le_add_right_of_le (length_le_flatMap_escape s.toList)
  rw [readString, readChars_flatMap_escape hf]
  show Except.ok (String.ofList s.toList, rest) = _
  rw [String.ofList_toList]

/-- What follows a number: nothing that could belong to it. -/
def EndsNumber (rest : List Char) : Prop :=
  ∀ c ∈ rest.head?, isDigit c = false ∧ c ≠ '.' ∧ c ≠ 'e' ∧ c ≠ 'E'

theorem endsNumber_nil : EndsNumber [] := nofun

theorem readAfterWhole_of_endsNumber (h : EndsNumber rest) :
    readAfterWhole negative n rest = .ok (wholeNumber negative n, rest) := by
  cases rest with
  | nil => rfl
  | cons c rest =>
    obtain ⟨-, hp, he, hE⟩ := h c rfl
    simp [readAfterWhole, hp, he, hE]

theorem le_ofDigitChars (digits : List Char) (n : Nat) : n ≤ Nat.ofDigitChars 10 digits n := by
  rw [Nat.ofDigitChars_eq_ofDigitChars_zero]
  exact Nat.le_add_right_of_le (Nat.le_mul_of_pos_left n (Nat.pow_pos (by decide)))

theorem isDigit_eq (c : Char) : isDigit c = c.isDigit := rfl

theorem readWhole_digits (hd : ∀ c ∈ digits, c.isDigit = true)
    (hv : Nat.ofDigitChars 10 digits n < 0x10000000000000000)
    (hr : ∀ c ∈ rest.head?, isDigit c = false) :
    readWhole negative n (digits ++ rest) =
      readAfterWhole negative (Nat.ofDigitChars 10 digits n) rest := by
  induction digits generalizing n with
  | nil =>
    rw [List.nil_append, Nat.ofDigitChars_nil]
    cases rest with
    | nil => rfl
    | cons c rest => rw [readWhole, if_neg (by simp [hr c rfl])]
  | cons c digits ih =>
    obtain ⟨hc, hds⟩ := List.forall_mem_cons.mp hd
    rw [Nat.ofDigitChars_cons, Nat.mul_comm] at hv ⊢
    have hn : n * 10 + digitValue c < 0x10000000000000000 :=
      Nat.lt_of_le_of_lt (le_ofDigitChars digits _) hv
    rw [List.cons_append, readWhole, if_pos (isDigit_eq c ▸ hc)]
    exact (if_pos hn).trans (ih hds hv)

theorem head?_digitsOf (h : 0 < n) : (FloatNotation.digitsOf n).head? ≠ some '0' := by
  induction n using Nat.strongRecOn with
  | _ n ih =>
    rw [FloatNotation.digitsOf, Nat.toDigits_eq_if (by decide)]
    split
    · simp only [List.head?_cons, ne_eq, Option.some.injEq, Nat.digitChar_eq_zero]
      omega
    · next hn =>
      rw [List.head?_append_of_ne_nil _ Nat.toDigits_ne_nil]
      exact ih _ (by omega) (by omega)

theorem readNumber_digitsOf (hn : n < 0x10000000000000000)
    (hr : ∀ c ∈ rest.head?, isDigit c = false) :
    readNumber negative (FloatNotation.digitsOf n ++ rest) = readAfterWhole negative n rest := by
  rcases Nat.eq_zero_or_pos n with rfl | hp
  · cases rest with
    | nil => rfl
    | cons c rest =>
      show readNumber negative ('0' :: c :: rest) = _
      rw [readNumber]
      simp [hr c rfl]
  · have hd : ∀ c ∈ FloatNotation.digitsOf n, c.isDigit = true := fun c hc =>
      Nat.isDigit_of_mem_toDigits (by decide) (by decide) hc
    have hv : Nat.ofDigitChars 10 (FloatNotation.digitsOf n) 0 = n := Nat.ofDigitChars_ten_toDigits
    have h0 := head?_digitsOf hp
    obtain ⟨c, digits, hs, hc⟩ := FloatNotation.digitsOf_eq_cons n
    rw [hs] at hd hv h0
    rw [Nat.ofDigitChars_cons, Nat.mul_zero, Nat.zero_add] at hv
    have hw : readWhole negative _ (digits ++ rest) = _ :=
      readWhole_digits (List.forall_mem_cons.mp hd).2 (hv ▸ hn) hr
    rw [hs, List.cons_append, readNumber.eq_def]
    split
    · next he => cases he
    · next he =>
      cases he
      exact absurd rfl h0
    · next he =>
      cases he
      rw [if_pos (isDigit_eq c ▸ hc), ← hv]
      exact hw

theorem readNumber_whole (hn : n < 0x10000000000000000) (hr : EndsNumber rest) :
    readNumber negative (FloatNotation.digitsOf n ++ rest) =
      .ok (wholeNumber negative n, rest) :=
  (readNumber_digitsOf hn fun c hc => (hr c hc).1).trans (readAfterWhole_of_endsNumber hr)

/-- The sign and the digits of a whole number stand for it. -/
theorem wholeNumber_natAbs (hn : -0x8000000000000000 ≤ n ∧ n < 0x10000000000000000) :
    wholeNumber (n < 0) n.natAbs = .whole n hn := by
  by_cases hneg : n < 0
  · have hi : -(n.natAbs : Int) = n := by omega
    rw [wholeNumber, if_pos (decide_eq_true hneg), if_neg (by omega), hi]
    exact dif_pos hn
  · have hi : (n.natAbs : Int) = n := by omega
    rw [wholeNumber, if_neg (by simpa using hneg), Number.ofNat, hi]
    exact dif_pos hn

end Json
end ApiPresence
