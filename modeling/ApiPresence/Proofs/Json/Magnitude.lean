import ApiPresence.Proofs.Basic
import ApiPresence.Proofs.Json.Grammar

namespace ApiPresence.Json

open Text (isDigit)

variable {text rest digits sign exponent fraction whole magnitude : List Char}

/-- A whole part, an error when there is none or a digit follows a zero. -/
def skipWhole : List Char → Except Fault (List Char)
  | '0' :: rest =>
    match rest with
    | c :: _ => if isDigit c then .error (.at .invalidNumber rest) else .ok rest
    | [] => .ok []
  | c :: rest =>
    if isDigit c then .ok (rest.dropWhile isDigit) else .error (.at .invalidNumber (c :: rest))
  | [] => .error (.before .invalidNumber [])

def skipAfterWhole : List Char → Except Fault (List Char)
  | '.' :: rest =>
    match rest with
    | c :: _ =>
      if isDigit c then skipAfterDigits (rest.dropWhile isDigit)
      else .error (.at .invalidNumber rest)
    | [] => .error (.at .invalidNumber [])
  | rest => skipAfterDigits rest

theorem skipNumber_eq (text : List Char) : skipNumber text = skipWhole text >>= skipAfterWhole := by
  unfold skipNumber skipWhole
  split
  · next rest =>
    cases rest with
    | nil => rfl
    | cons c rest => cases h : isDigit c <;> simp [h] <;> rfl
  · next c rest _ =>
    simp only
    split <;> rfl
  · rfl

/-- A digit and those that follow it. -/
theorem isDigits_cons_takeWhile (hc : isDigit c = true) (text : List Char) :
    IsDigits (c :: text.takeWhile isDigit) where
  nonempty := List.cons_ne_nil c _
  digits := by
    intro x hx
    rcases List.mem_cons.mp hx with rfl | hx
    · exact hc
    · exact List.mem_takeWhile_imp hx

theorem cons_takeWhile_append (c : Char) (text : List Char) :
    c :: text = (c :: text.takeWhile isDigit) ++ text.dropWhile isDigit := by
  rw [List.cons_append, List.takeWhile_append_dropWhile]

/-- Digits are stepped over once the first of them is seen. -/
theorem IsDigits.dropWhile (h : IsDigits digits) (hr : ∀ c ∈ rest.head?, isDigit c = false) :
    ∃ c front, digits = c :: front ∧ isDigit c = true ∧
      (front ++ rest).dropWhile isDigit = rest := by
  obtain ⟨c, front, rfl⟩ := List.exists_cons_of_ne_nil h.nonempty
  have hd := List.forall_mem_cons.mp h.digits
  exact ⟨c, front, rfl, hd.1, dropWhile_append hd.2 hr⟩

/-- The digits of an exponent, behind its sign if it has one. -/
def skipUnsignedExponent : List Char → Except Fault (List Char)
  | [] => .error (.before .invalidNumber [])
  | c :: rest =>
    if isDigit c then .ok (rest.dropWhile isDigit) else .error (.at .invalidNumber (c :: rest))

theorem isDigits_of_skipUnsignedExponent (h : skipUnsignedExponent text = .ok rest) :
    ∃ digits, text = digits ++ rest ∧ IsDigits digits := by
  cases text with
  | nil => cases h
  | cons c text =>
    rw [skipUnsignedExponent] at h
    split at h
    · next hc =>
      cases h
      exact ⟨_, cons_takeWhile_append c text, isDigits_cons_takeWhile hc text⟩
    · cases h

theorem isDigits_of_skipExponent (h : skipExponent text = .ok rest) :
    ∃ sign digits, text = sign ++ (digits ++ rest) ∧ sign ∈ [[], ['+'], ['-']] ∧
      IsDigits digits := by
  unfold skipExponent at h
  split at h
  · obtain ⟨digits, rfl, hd⟩ := isDigits_of_skipUnsignedExponent h
    exact ⟨['+'], digits, rfl, by decide, hd⟩
  · obtain ⟨digits, rfl, hd⟩ := isDigits_of_skipUnsignedExponent h
    exact ⟨['-'], digits, rfl, by decide, hd⟩
  · obtain ⟨digits, rfl, hd⟩ := isDigits_of_skipUnsignedExponent h
    exact ⟨[], digits, rfl, by decide, hd⟩

theorem IsDigits.skipExponent (h : IsDigits digits) (hs : sign ∈ [[], ['+'], ['-']])
    (hr : ∀ c ∈ rest.head?, isDigit c = false) :
    Json.skipExponent (sign ++ (digits ++ rest)) = .ok rest := by
  obtain ⟨c, front, rfl, hc, hd⟩ := h.dropWhile hr
  have hp : c ≠ '+' := by rintro rfl; cases hc
  have hm : c ≠ '-' := by rintro rfl; cases hc
  simp only [List.mem_cons, List.not_mem_nil, or_false] at hs
  rcases hs with rfl | rfl | rfl <;> simp [Json.skipExponent, hp, hm, hc, hd]

theorem isExponent_of_skipAfterDigits (h : skipAfterDigits text = .ok rest) :
    ∃ exponent, text = exponent ++ rest ∧ IsExponent exponent := by
  unfold skipAfterDigits at h
  split at h
  · obtain ⟨sign, digits, rfl, hs, hd⟩ := isDigits_of_skipExponent h
    exact ⟨'e' :: (sign ++ digits), by simp, .mark (.inl rfl) hs hd⟩
  · obtain ⟨sign, digits, rfl, hs, hd⟩ := isDigits_of_skipExponent h
    exact ⟨'E' :: (sign ++ digits), by simp, .mark (.inr rfl) hs hd⟩
  · cases h
    exact ⟨[], rfl, .none⟩

theorem IsExponent.skipAfterDigits (h : IsExponent exponent) (hr : EndsNumber rest) :
    Json.skipAfterDigits (exponent ++ rest) = .ok rest := by
  cases h with
  | none =>
    cases rest with
    | nil => rfl
    | cons c rest =>
      obtain ⟨-, -, he, hE⟩ := hr c rfl
      simp [Json.skipAfterDigits, he, hE]
  | @mark c sign digits hc hs h =>
    have he (text : List Char) : Json.skipAfterDigits (c :: text) = Json.skipExponent text := by
      rcases hc with rfl | rfl <;> rfl
    rw [List.cons_append, he, List.append_assoc]
    exact h.skipExponent hs fun c hc => (hr c hc).1

theorem isFraction_of_skipAfterWhole (h : skipAfterWhole text = .ok rest) :
    ∃ fraction exponent, text = fraction ++ (exponent ++ rest) ∧ IsFraction fraction ∧
      IsExponent exponent := by
  unfold skipAfterWhole at h
  split at h
  · split at h
    · next c text =>
      split at h
      · next hc =>
        rw [List.dropWhile_cons_of_pos hc] at h
        obtain ⟨exponent, he, hx⟩ := isExponent_of_skipAfterDigits h
        refine ⟨'.' :: c :: text.takeWhile isDigit, exponent, ?_,
          .point (isDigits_cons_takeWhile hc text), hx⟩
        rw [← he, List.cons_append, ← cons_takeWhile_append]
      · cases h
    · cases h
  · obtain ⟨exponent, rfl, hx⟩ := isExponent_of_skipAfterDigits h
    exact ⟨[], exponent, rfl, .none, hx⟩

theorem IsExponent.head_append (h : IsExponent exponent) (hr : EndsNumber rest) :
    ∀ c ∈ (exponent ++ rest).head?, isDigit c = false ∧ c ≠ '.' := by
  cases h with
  | none => exact fun c hc => ⟨(hr c hc).1, (hr c hc).2.1⟩
  | mark hc hs h =>
    rintro x ⟨⟩
    rcases hc with rfl | rfl <;> decide

theorem IsFraction.skipAfterWhole (h : IsFraction fraction) (he : IsExponent exponent)
    (hr : EndsNumber rest) : Json.skipAfterWhole (fraction ++ (exponent ++ rest)) = .ok rest := by
  have hh := he.head_append hr
  have hs := he.skipAfterDigits hr
  cases h with
  | none =>
    rw [List.nil_append, Json.skipAfterWhole.eq_def]
    split
    · next hd => exact absurd rfl (hh '.' (by rw [hd]; rfl)).2
    · exact hs
  | @point digits h =>
    obtain ⟨c, front, rfl, hc, hd⟩ := h.dropWhile fun c hc => (hh c hc).1
    simp [Json.skipAfterWhole, hc, hd, hs]

theorem isWhole_of_skipWhole (h : skipWhole text = .ok rest) :
    ∃ whole, text = whole ++ rest ∧ IsWhole whole := by
  have hz : IsWhole ['0'] := isWhole_digitsOf 0
  unfold skipWhole at h
  split at h
  · split at h
    · split at h
      · cases h
      · cases h
        exact ⟨['0'], rfl, hz⟩
    · cases h
      exact ⟨['0'], rfl, hz⟩
  · next c text h0 =>
    split at h
    · next hc =>
      cases h
      refine ⟨_, cons_takeWhile_append c text, (isDigits_cons_takeWhile hc text).isWhole ?_⟩
      rintro ⟨⟩
      exact h0 rfl
    · cases h
  · cases h

theorem IsWhole.skipWhole (h : IsWhole whole) (hr : ∀ c ∈ rest.head?, isDigit c = false) :
    Json.skipWhole (whole ++ rest) = .ok rest := by
  obtain ⟨c, front, rfl, hc, hd⟩ := h.toIsDigits.dropWhile hr
  by_cases h0 : c = '0'
  · subst h0
    cases h.unpadded rfl
    cases rest with
    | nil => rfl
    | cons x rest => simp [Json.skipWhole, hr x rfl]
  · simp [Json.skipWhole, hc, hd]

theorem isMagnitude_of_skipNumber (h : skipNumber text = .ok rest) :
    ∃ magnitude, text = magnitude ++ rest ∧ IsMagnitude magnitude := by
  rw [skipNumber_eq, bind_eq_ok_iff] at h
  obtain ⟨behind, hs, h⟩ := h
  obtain ⟨whole, rfl, hw⟩ := isWhole_of_skipWhole hs
  obtain ⟨fraction, exponent, rfl, hf, he⟩ := isFraction_of_skipAfterWhole h
  exact ⟨whole ++ (fraction ++ exponent), by simp, .parts hw hf he⟩

/-- A number is stepped over as far as it goes. -/
theorem IsMagnitude.skipNumber (h : IsMagnitude magnitude) (hr : EndsNumber rest) :
    Json.skipNumber (magnitude ++ rest) = .ok rest := by
  obtain ⟨hw, hf, he⟩ := h
  next whole fraction exponent =>
  have hh : ∀ c ∈ (fraction ++ (exponent ++ rest)).head?, isDigit c = false := by
    cases hf with
    | none => exact fun c hc => (he.head_append hr c hc).1
    | point => rintro x ⟨⟩; rfl
  rw [skipNumber_eq, List.append_assoc, List.append_assoc, hw.skipWhole hh]
  exact hf.skipAfterWhole he hr

end ApiPresence.Json
