import ApiPresence.Proofs.Number.Text
import ApiPresence.Proofs.Yaml.Key
import ApiPresence.Proofs.Yaml.Scalar

namespace ApiPresence

theorem FloatNotation.wholeOf_injective (h : wholeOf m = wholeOf n) : m = n := by
  have hm := Yaml.whole?_wholeOf m
  rw [h, Yaml.whole?_wholeOf] at hm
  exact (Option.some.inj hm).symm

/-- A whole number is not written like a float. -/
theorem FloatNotation.wholeOf_ne_text {style : FloatNotation} {n : Int} :
    wholeOf n ≠ style.text negative rank := by
  intro h
  obtain ⟨c, hc, hm⟩ := style.mark_mem_magnitude (Binary64.shortest rank)
  have ht : c ∈ wholeOf n := by
    rw [h, text]
    split
    · exact List.mem_cons_of_mem _ hc
    · exact hc
  have hd : c = '-' ∨ c ∈ digitsOf n.natAbs := by
    rw [wholeOf] at ht
    split at ht
    · exact List.mem_cons.mp ht
    · exact .inr ht
  rcases hd with rfl | hd
  · rcases hm with hm | hm <;> cases hm
  · have hi := isDigit_digitsOf n.natAbs c hd
    rcases hm with rfl | rfl <;> cases hi

namespace Yaml.Value

/-- A number that is not infinite and not without a value. -/
inductive IsFinite : Number → Prop where
  | whole : IsFinite (.whole value inRange)
  | float : IsFinite (.float (.finite negative rank))

theorem numberText_injective (hm : IsFinite m) (hn : IsFinite n)
    (h : Json.numberText m = Json.numberText n) : m = n := by
  cases hm with
  | whole =>
    cases hn with
    | whole =>
      obtain rfl := FloatNotation.wholeOf_injective h
      rfl
    | float => exact absurd h FloatNotation.wholeOf_ne_text
  | @float m r =>
    cases hn with
    | whole => exact absurd h.symm FloatNotation.wholeOf_ne_text
    | @float n s =>
      obtain ⟨rfl, hv⟩ := FloatNotation.text_injective r.isLt s.isLt h
      rw [Fin.ext hv]

/-- The kinds of keys that have texts. -/
theorem keyText_cases {key : Value} (h : key.keyText = .ok s) :
    key = .string s ∨ (∃ x, key = .bool x ∧ s = if x then "true" else "false") ∨
      ∃ n, key = .number n ∧ IsFinite n ∧ s.toList = Json.numberText n := by
  cases key with
  | null | sequence | mapping | tagged => simp [keyText] at h
  | string t =>
    cases h
    exact .inl rfl
  | bool x => cases x <;> (cases h; exact .inr (.inl ⟨_, rfl, rfl⟩))
  | number n =>
    have ht := keyText_number h
    cases n with
    | whole value inRange => exact .inr (.inr ⟨_, rfl, .whole, ht⟩)
    | float value =>
      cases value with
      | finite negative rank => exact .inr (.inr ⟨_, rfl, .float, ht⟩)
      | infinite | nan => simp [keyText] at h

theorem toList_ne_numberText (x : Bool) (n : Number) :
    (if x then "true" else "false" : String).toList ≠ Json.numberText n := by
  intro h
  cases x with
  | true =>
    have ht : 't' ∉ Json.numberText n := Json.not_mem_numberText rfl (by decide) n
    exact ht (h ▸ by decide)
  | false =>
    have hf : 'f' ∉ Json.numberText n := Json.not_mem_numberText rfl (by decide) n
    exact hf (h ▸ by decide)

/-- Keys with one text are one key, unless one of them is a string. -/
theorem eq_of_keyText {a b : Value} (ha : a.keyText = .ok s) (hb : b.keyText = .ok s)
    (h : a = .string s ↔ b = .string s) : a = b := by
  rcases keyText_cases ha with rfl | ⟨x, rfl, hx⟩ | ⟨m, rfl, hm, hx⟩
  · exact (h.mp rfl).symm
  · rcases keyText_cases hb with rfl | ⟨y, rfl, hy⟩ | ⟨n, rfl, hn, hy⟩
    · cases h.mpr rfl
    · rw [hx] at hy
      cases x <;> cases y <;> first | rfl | exact absurd hy (by decide)
    · rw [hx] at hy
      exact absurd hy (toList_ne_numberText x n)
  · rcases keyText_cases hb with rfl | ⟨y, rfl, hy⟩ | ⟨n, rfl, hn, hy⟩
    · cases h.mpr rfl
    · rw [hy] at hx
      exact absurd hx (toList_ne_numberText y m)
    · rw [numberText_injective hm hn (hx.symm.trans hy)]

end Yaml.Value
end ApiPresence
