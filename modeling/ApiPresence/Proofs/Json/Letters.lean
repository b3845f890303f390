import ApiPresence.Proofs.Basic
import ApiPresence.Proofs.Json.Grammar

namespace ApiPresence

open Text (digit? digits? isDigitOf)

/-- The letters behind a backslash, and the characters that they stand for. -/
def escapes : List (Char × Char) :=
  [('"', '"'), ('\\', '\\'), ('/', '/'), ('b', '\x08'), ('f', '\x0c'), ('n', '\n'), ('r', '\r'),
    ('t', '\t')]

namespace Json

variable {text letters rest : List Char}

/-- What stands behind a backslash for a character; one beyond 16 bits takes two codes. -/
inductive Escapes : (code : List Char) → Char → Prop
  | letter {x c : Char} (hx : (x, c) ∈ escapes) : Escapes [x] c
  | digits {digits : List Char} {c : Char} (hd : digits.length = 4)
    (hv : digits? 16 digits = some c.toNat) : Escapes ('u' :: digits) c
  | pair {high low : List Char} {i j : Nat} {c : Char} (hh : high.length = 4)
    (hl : low.length = 4) (hi : digits? 16 high = some i) (hj : digits? 16 low = some j)
    (hir : 0xd800 ≤ i ∧ i ≤ 0xdbff) (hjr : 0xdc00 ≤ j ∧ j ≤ 0xdfff)
    (hc : c.toNat = (i - 0xd800) * 1024 + (j - 0xdc00) + 0x10000) :
    Escapes ('u' :: (high ++ '\\' :: 'u' :: low)) c

/-- What stands between the quotes of a string for a text. -/
inductive Denotes : (letters text : List Char) → Prop
  | nil : Denotes [] []
  | plain {letters text : List Char} {c : Char} (hc : 32 ≤ c.toNat) (hq : c ≠ '"' ∧ c ≠ '\\')
    (h : Denotes letters text) : Denotes (c :: letters) (c :: text)
  | escape {letters text code : List Char} {c : Char} (he : Escapes code c)
    (h : Denotes letters text) : Denotes ('\\' :: (code ++ letters)) (c :: text)

section Codes

/-- Four digits, and the number that they are. -/
theorem digits?_eq_some_iff {digits : List Char} (hd : digits.length = 4) :
    digits? 16 digits = some n ↔ ∃ a b c d i j k l, digits = [a, b, c, d] ∧
      digit? 16 a = some i ∧ digit? 16 b = some j ∧ digit? 16 c = some k ∧ digit? 16 d = some l ∧
      n = ((i * 16 + j) * 16 + k) * 16 + l := by
  match digits, hd with
  | [a, b, c, d], _ =>
    simp only [digits?, List.foldlM_cons, List.foldlM_nil, Option.bind_eq_bind,
      Option.bind_eq_some_iff, Option.map_eq_some_iff, Option.pure_def, Option.some.injEq]
    constructor
    · rintro ⟨_, ⟨i, hi, rfl⟩, _, ⟨j, hj, rfl⟩, _, ⟨k, hk, rfl⟩, _, ⟨l, hl, rfl⟩, rfl⟩
      exact ⟨a, b, c, d, i, j, k, l, rfl, hi, hj, hk, hl, by omega⟩
    · rintro ⟨_, _, _, _, i, j, k, l, ⟨⟩, hi, hj, hk, hl, rfl⟩
      exact ⟨_, ⟨i, hi, rfl⟩, _, ⟨j, hj, rfl⟩, _, ⟨k, hk, rfl⟩, _, ⟨l, hl, rfl⟩, by omega⟩

theorem digit?_lt (h : digit? 16 c = some n) : n < 16 := by
  unfold digit? at h
  simp only [Option.ite_none_right_eq_some, Option.some.injEq] at h
  omega

theorem digits?_lt {digits : List Char} (hd : digits.length = 4)
    (hv : digits? 16 digits = some n) : n < 0x10000 := by
  obtain ⟨a, b, c, d, i, j, k, l, -, hi, hj, hk, hl, rfl⟩ := (digits?_eq_some_iff hd).mp hv
  have hi := digit?_lt hi
  have hj := digit?_lt hj
  have hk := digit?_lt hk
  have hl := digit?_lt hl
  omega

theorem exists_digits?_iff {digits : List Char} (hd : digits.length = 4) :
    (∃ n, digits? 16 digits = some n) ↔ ∀ c ∈ digits, isDigitOf 16 c = true := by
  match digits, hd with
  | [a, b, c, d], _ =>
    simp [digits?_eq_some_iff, isDigitOf, Option.isSome_iff_exists]

theorem readHex4_eq_ok_iff : readHex4 text = .ok (n, rest) ↔
    ∃ digits, text = digits ++ rest ∧ digits.length = 4 ∧ digits? 16 digits = some n := by
  constructor
  · intro h
    unfold readHex4 at h
    split at h
    · split at h
      · next ha hb hc hd =>
        cases h
        exact ⟨_, rfl, rfl, (digits?_eq_some_iff rfl).mpr
          ⟨_, _, _, _, _, _, _, _, rfl, ha, hb, hc, hd, rfl⟩⟩
      · cases h
    · split at h <;> cases h
  · rintro ⟨digits, rfl, hd, hv⟩
    obtain ⟨a, b, c, d, i, j, k, l, rfl, hi, hj, hk, hl, rfl⟩ := (digits?_eq_some_iff hd).mp hv
    simp only [List.cons_append, List.nil_append, readHex4, hi, hj, hk, hl]

theorem toNat_ofNat (h : n < 0xd800 ∨ 0xdfff < n ∧ n < 0x110000) : (Char.ofNat n).toNat = n := by
  rw [Char.ofNat, dif_pos h]
  rfl

theorem readUnicodeEscape_digits {digits : List Char} {c : Char} (hd : digits.length = 4)
    (hv : digits? 16 digits = some c.toNat) (rest : List Char) :
    readUnicodeEscape (digits ++ rest) = .ok (c, rest) := by
  have hc : c.toNat < 0xd800 ∨ 0xdfff < c.toNat ∧ c.toNat < 0x110000 := c.valid
  have hlow : ¬ (0xdc00 ≤ c.toNat ∧ c.toNat ≤ 0xdfff) := by omega
  have hhigh : c.toNat < 0xd800 ∨ 0xdbff < c.toNat := by omega
  rw [readUnicodeEscape, readHex4_eq_ok_iff.mpr ⟨digits, rfl, hd, hv⟩]
  refine (if_neg hlow).trans ((if_pos hhigh).trans ?_)
  rw [Char.ofNat_toNat]

theorem readUnicodeEscape_pair {high low : List Char} {c : Char} (hh : high.length = 4)
    (hl : low.length = 4) (hi : digits? 16 high = some i) (hj : digits? 16 low = some j)
    (hir : 0xd800 ≤ i ∧ i ≤ 0xdbff) (hjr : 0xdc00 ≤ j ∧ j ≤ 0xdfff)
    (hc : c.toNat = (i - 0xd800) * 1024 + (j - 0xdc00) + 0x10000) (rest : List Char) :
    readUnicodeEscape (high ++ '\\' :: 'u' :: (low ++ rest)) = .ok (c, rest) := by
  have hlow : ¬ (0xdc00 ≤ i ∧ i ≤ 0xdfff) := by omega
  have hhigh : ¬ (i < 0xd800 ∨ 0xdbff < i) := by omega
  have hpair : ¬ (j < 0xdc00 ∨ 0xdfff < j) := by omega
  rw [readUnicodeEscape, readHex4_eq_ok_iff.mpr ⟨high, rfl, hh, hi⟩]
  refine (if_neg hlow).trans ((if_neg hhigh).trans ?_)
  simp only [readHex4_eq_ok_iff.mpr ⟨low, rfl, hl, hj⟩, ok_bind, if_neg hpair]
  rw [← hc, Char.ofNat_toNat]

/-- A code is read for a character on its own, or with a second code. -/
theorem escapes_of_readUnicodeEscape (h : readUnicodeEscape text = .ok (c, rest)) :
    ∃ code, text = code ++ rest ∧ Escapes ('u' :: code) c := by
  rw [readUnicodeEscape, bind_eq_ok_iff] at h
  obtain ⟨⟨i, behind⟩, hr, h⟩ := h
  obtain ⟨high, rfl, hh, hi⟩ := readHex4_eq_ok_iff.mp hr
  have hlt := digits?_lt hh hi
  dsimp only at h
  split at h
  · cases h
  · next hlow =>
    split at h
    · next hhigh =>
      cases h
      refine ⟨high, rfl, .digits hh ?_⟩
      rw [toNat_ofNat (by omega), hi]
    · next hhigh =>
      split at h
      · cases h
      · cases h
      · rw [bind_eq_ok_iff] at h
        obtain ⟨⟨j, behind⟩, hr, h⟩ := h
        obtain ⟨low, rfl, hl, hj⟩ := readHex4_eq_ok_iff.mp hr
        dsimp only at h
        split at h
        · cases h
        · next hpair =>
          rw [Except.ok.injEq, Prod.mk.injEq] at h
          obtain ⟨rfl, rfl⟩ := h
          refine ⟨high ++ '\\' :: 'u' :: low, by simp, .pair hh hl hi hj (by omega) (by omega) ?_⟩
          rw [toNat_ofNat (by omega)]
      · cases h
      · cases h

theorem readEscape_eq_ok_iff : readEscape text = .ok (c, rest) ↔
    ∃ code, text = code ++ rest ∧ Escapes code c := by
  constructor
  · intro h
    unfold readEscape at h
    split at h
    case h_10 =>
      obtain ⟨code, rfl, he⟩ := escapes_of_readUnicodeEscape h
      exact ⟨'u' :: code, rfl, he⟩
    case h_1 | h_11 => cases h
    all_goals
      cases h
      exact ⟨[_], rfl, .letter (by decide)⟩
  · rintro ⟨code, rfl, he⟩
    cases he with
    | letter hx =>
      simp only [escapes, List.mem_cons, Prod.mk.injEq, List.not_mem_nil, or_false] at hx
      rcases hx with ⟨rfl, rfl⟩ | ⟨rfl, rfl⟩ | ⟨rfl, rfl⟩ | ⟨rfl, rfl⟩ | ⟨rfl, rfl⟩ | ⟨rfl, rfl⟩ |
        ⟨rfl, rfl⟩ | ⟨rfl, rfl⟩ <;> rfl
    | digits hd hv => exact readUnicodeEscape_digits hd hv rest
    | pair hh hl hi hj hir hjr hc =>
      rw [List.cons_append, List.append_assoc]
      exact readUnicodeEscape_pair hh hl hi hj hir hjr hc rest

end Codes

section Strings

theorem Denotes.length_le (h : Denotes letters text) : text.length ≤ letters.length := by
  induction h with
  | nil => exact Nat.le_refl _
  | plain _ _ _ ih => exact Nat.succ_le_succ ih
  | escape _ _ ih =>
    simp only [List.length_cons, List.length_append]
    omega

theorem Denotes.readChars (h : Denotes letters text) (hf : text.length ≤ fuel)
    (rest : List Char) : Json.readChars fuel (letters ++ '"' :: rest) = .ok (text, rest) := by
  induction h generalizing fuel with
  | nil => cases fuel <;> rfl
  | plain hc hq _ ih =>
    obtain ⟨fuel, rfl⟩ := Nat.exists_eq_add_one_of_ne_zero (Nat.ne_zero_of_lt hf)
    simp [Json.readChars, hq, Nat.not_lt.mpr hc, ih (Nat.le_of_succ_le_succ hf)]
    rfl
  | @escape letters text code c he _ ih =>
    obtain ⟨fuel, rfl⟩ := Nat.exists_eq_add_one_of_ne_zero (Nat.ne_zero_of_lt hf)
    have hc (rest : List Char) := readEscape_eq_ok_iff.mpr ⟨code, rfl (a := code ++ rest), he⟩
    simp only [List.cons_append, List.append_assoc, Json.readChars, hc, ok_bind,
      ih (Nat.le_of_succ_le_succ hf)]

theorem denotes_of_readChars (h : readChars fuel text = .ok (cs, rest)) :
    ∃ letters, text = letters ++ '"' :: rest ∧ Denotes letters cs := by
  fun_induction readChars fuel text generalizing cs with
  | case1 => cases h
  | case2 =>
    cases h
    exact ⟨[], rfl, .nil⟩
  | case3 => cases h
  | case4 fuel text ih =>
    simp only [bind_eq_ok_iff] at h
    obtain ⟨⟨c, behind⟩, hc, ⟨cs, more⟩, hcs, h⟩ := h
    cases h
    obtain ⟨code, rfl, he⟩ := readEscape_eq_ok_iff.mp hc
    obtain ⟨letters, rfl, hl⟩ := ih _ hcs
    exact ⟨'\\' :: (code ++ letters), by simp, .escape he hl⟩
  | case5 => cases h
  | case6 fuel c text hq hb hc ih =>
    simp only [bind_eq_ok_iff] at h
    obtain ⟨⟨cs, more⟩, hcs, h⟩ := h
    cases h
    obtain ⟨letters, rfl, hl⟩ := ih hcs
    exact ⟨c :: letters, rfl, .plain (Nat.le_of_not_lt hc) ⟨hq, hb⟩ hl⟩

/-- A string is read for what its letters denote, up to the quote behind them. -/
theorem readString_eq_ok_iff : readString text = .ok (s, rest) ↔
    ∃ letters, text = letters ++ '"' :: rest ∧ Denotes letters s.toList := by
  rw [readString, bind_eq_ok_iff]
  constructor
  · rintro ⟨⟨cs, behind⟩, hcs, h⟩
    cases h
    rw [String.toList_ofList]
    exact denotes_of_readChars hcs
  · rintro ⟨letters, rfl, h⟩
    have hf : s.toList.length ≤ (letters ++ '"' :: rest).length := by
      rw [List.length_append]
      exact Nat.le_add_right_of_le h.length_le
    refine ⟨_, h.readChars hf rest, ?_⟩
    show Except.ok (String.ofList s.toList, rest) = _
    rw [String.ofList_toList]

/-- What denotes a text may stand between the quotes of a string. -/
theorem Denotes.isLetters (h : Denotes letters text) : IsLetters letters := by
  induction h with
  | nil => exact .nil
  | plain hc hq _ ih => exact .plain hc hq ih
  | @escape letters text code c he _ ih =>
    cases he with
    | letter hx =>
      have hm : ∀ e ∈ escapes, e.1 ∈ ['"', '\\', '/', 'b', 'f', 'n', 'r', 't'] := by decide
      exact .escape (hm _ hx) ih
    | digits hd hv => exact .digits hd ((exists_digits?_iff hd).mp ⟨_, hv⟩) ih
    | pair hh hl hi hj =>
      have hlow : IsLetters ('\\' :: 'u' :: (_ ++ letters)) :=
        .digits hl ((exists_digits?_iff hl).mp ⟨_, hj⟩) ih
      rw [List.cons_append, List.append_assoc]
      exact .digits hh ((exists_digits?_iff hh).mp ⟨_, hi⟩) hlow

theorem IsLetters.skipChars (h : IsLetters letters) (hf : letters.length ≤ fuel)
    (rest : List Char) : Json.skipChars fuel (letters ++ '"' :: rest) = .ok rest := by
  induction h generalizing fuel with
  | nil => cases fuel <;> rfl
  | plain hc hq _ ih =>
    obtain ⟨fuel, rfl⟩ := Nat.exists_eq_add_one_of_ne_zero (Nat.ne_zero_of_lt hf)
    simp [Json.skipChars, hq, Nat.not_lt.mpr hc, ih (Nat.le_of_succ_le_succ hf)]
  | @escape x letters hx _ ih =>
    obtain ⟨fuel, rfl⟩ := Nat.exists_eq_add_one_of_ne_zero (Nat.ne_zero_of_lt hf)
    have hs (rest : List Char) : skipEscape (x :: rest) = .ok rest := by
      simp only [List.mem_cons, List.not_mem_nil, or_false] at hx
      rcases hx with rfl | rfl | rfl | rfl | rfl | rfl | rfl | rfl <;> rfl
    simp only [List.cons_append, Json.skipChars, hs, ok_bind]
    exact ih (by simp only [List.length_cons] at hf; omega)
  | @digits digits letters hl hd _ ih =>
    obtain ⟨fuel, rfl⟩ := Nat.exists_eq_add_one_of_ne_zero (Nat.ne_zero_of_lt hf)
    obtain ⟨n, hn⟩ := (exists_digits?_iff hl).mpr hd
    have hs (rest : List Char) : skipEscape ('u' :: (digits ++ rest)) = .ok rest := by
      rw [skipEscape, readHex4_eq_ok_iff.mpr ⟨digits, rfl, hl, hn⟩]
      rfl
    simp only [List.cons_append, List.append_assoc, Json.skipChars, hs, ok_bind]
    exact ih (by simp only [List.length_cons, List.length_append] at hf; omega)

theorem isLetters_of_skipChars (h : skipChars fuel text = .ok rest) :
    ∃ letters, text = letters ++ '"' :: rest ∧ IsLetters letters := by
  fun_induction skipChars fuel text with
  | case1 => cases h
  | case2 =>
    cases h
    exact ⟨[], rfl, .nil⟩
  | case3 => cases h
  | case4 fuel text ih =>
    obtain ⟨behind, hs, h⟩ := bind_eq_ok_iff.mp h
    obtain ⟨letters, rfl, hl⟩ := ih _ h
    unfold skipEscape at hs
    split at hs
    · cases hs
    · obtain ⟨⟨n, _⟩, hn, hs⟩ := bind_eq_ok_iff.mp hs
      cases hs
      obtain ⟨digits, rfl, hd, hv⟩ := readHex4_eq_ok_iff.mp hn
      have hx := (exists_digits?_iff hd).mp ⟨n, hv⟩
      exact ⟨'\\' :: 'u' :: (digits ++ letters), by simp, .digits hd hx hl⟩
    · next x _ _ =>
      split at hs
      · next hx =>
        cases hs
        exact ⟨'\\' :: x :: letters, rfl, .escape hx hl⟩
      · cases hs
  | case5 => cases h
  | case6 fuel c text hq hb hc ih =>
    obtain ⟨letters, rfl, hl⟩ := ih h
    exact ⟨c :: letters, rfl, .plain (Nat.le_of_not_lt hc) ⟨hq, hb⟩ hl⟩

theorem skipString_eq_ok_iff : skipString text = .ok rest ↔
    ∃ letters, text = letters ++ '"' :: rest ∧ IsLetters letters := by
  constructor
  · exact isLetters_of_skipChars
  · rintro ⟨letters, rfl, h⟩
    apply h.skipChars
    rw [List.length_append]
    exact Nat.le_add_right _ _

theorem isLetters_iff : IsLetters letters ↔ skipString (letters ++ ['"']) = .ok [] := by
  rw [skipString_eq_ok_iff]
  constructor
  · exact fun h => ⟨letters, rfl, h⟩
  · rintro ⟨other, he, h⟩
    rwa [List.append_cancel_right he]

instance : Decidable (IsLetters letters) := decidable_of_iff _ isLetters_iff.symm

/-- A string ends at the first quote that is not escaped. -/
theorem IsLetters.unique {other more : List Char} (h : IsLetters letters) (ho : IsLetters other)
    (he : letters ++ '"' :: rest = other ++ '"' :: more) : letters = other ∧ rest = more := by
  have hr : skipString (letters ++ '"' :: rest) = .ok rest :=
    skipString_eq_ok_iff.mpr ⟨letters, rfl, h⟩
  rw [he, skipString_eq_ok_iff.mpr ⟨other, rfl, ho⟩] at hr
  cases hr
  exact ⟨List.append_cancel_right he, rfl⟩

end Strings

end Json
end ApiPresence
