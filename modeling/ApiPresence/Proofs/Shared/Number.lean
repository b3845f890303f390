import ApiPresence.Proofs.Json.Number
import ApiPresence.Proofs.Number.Exact
import ApiPresence.Proofs.Shared.Source
import ApiPresence.Proofs.Yaml.Scalar
import ApiPresence.Yaml.Convert
import Mathlib.Data.List.TakeDrop

namespace ApiPresence

open Text (isDigit digitValue digit? digits?)
open FloatNotation (digitsOf)

theorem foldl_digitValue (digits : List Char) (n : Nat) :
    digits.foldl (fun n c => n * 10 + digitValue c) n = Nat.ofDigitChars 10 digits n := by
  induction digits generalizing n with
  | nil => rfl
  | cons c digits ih =>
    rw [List.foldl_cons, ih, Nat.ofDigitChars_cons, Nat.mul_comm]
    rfl

namespace Yaml

/-- An exponent behind its mark and its sign. -/
def unsignedExponent? (negative : Bool) (digits : List Char) : Option Int :=
  if digits ≠ [] ∧ digits.all isDigit then
    some (if negative then -(digitsValue digits : Int) else digitsValue digits)
  else none

theorem exponent?_unsigned (hc : c = 'e' ∨ c = 'E') (hp : d ≠ '+') (hm : d ≠ '-')
    (text : List Char) : exponent? (c :: d :: text) = unsignedExponent? false (d :: text) := by
  simp [exponent?, unsignedExponent?, hc, hp, hm]

end Yaml

namespace Json

variable {p : Partial} {digits rest text : List Char} {c d : Char} {negative : Bool} {e : Int}

theorem readFraction_digits (first : Bool) (hd : ∀ c ∈ digits, isDigit c = true)
    (hv : Nat.ofDigitChars 10 digits p.significand < 0x10000000000000000)
    (hr : ∀ c ∈ rest.head?, isDigit c = false) (hf : digits ≠ [] ∨ first = false) :
    readFraction p first (digits ++ rest) = readAfterDigits ⟨p.negative,
      Nat.ofDigitChars 10 digits p.significand, p.exponent - digits.length⟩ rest := by
  induction digits generalizing p first with
  | nil =>
    obtain rfl := hf.resolve_left fun h => h rfl
    rw [List.nil_append, List.length_nil, Int.natCast_zero, Int.sub_zero]
    cases rest with
    | nil => rfl
    | cons c rest =>
      rw [readFraction, if_neg (by simp [hr c rfl])]
      rfl
  | cons c digits ih =>
    obtain ⟨hc, hds⟩ := List.forall_mem_cons.mp hd
    rw [Nat.ofDigitChars_cons, Nat.mul_comm] at hv ⊢
    have hn : p.significand * 10 + digitValue c < 0x10000000000000000 :=
      Nat.lt_of_le_of_lt (le_ofDigitChars digits _) hv
    have he : p.exponent - 1 - digits.length = p.exponent - (c :: digits).length := by
      rw [List.length_cons]
      omega
    rw [List.cons_append, readFraction, if_pos hc, ← he]
    exact (if_pos hn).trans (ih false (p := ⟨_, _, _⟩) hds hv (.inr rfl))

theorem readExponentDigits_digits {exponent : Nat} (positive : Bool)
    (hd : ∀ c ∈ digits, isDigit c = true)
    (hv : Nat.ofDigitChars 10 digits exponent ≤ 0x7fffffff) :
    readExponentDigits p positive exponent digits =
      readExponentDigits.finish p positive (Nat.ofDigitChars 10 digits exponent) [] := by
  induction digits generalizing exponent with
  | nil => rfl
  | cons c digits ih =>
    obtain ⟨hc, hds⟩ := List.forall_mem_cons.mp hd
    rw [Nat.ofDigitChars_cons, Nat.mul_comm] at hv ⊢
    have hn : ¬ 0x7fffffff < exponent * 10 + digitValue c :=
      Nat.not_lt.mpr (Nat.le_trans (le_ofDigitChars digits _) hv)
    rw [readExponentDigits, if_pos hc]
    exact (if_neg hn).trans (ih hds hv)

theorem readExponent_eq {c : Char} (hp : c ≠ '+') (hm : c ≠ '-') (text : List Char) :
    readExponent p (c :: text) = readUnsignedExponent p true (c :: text) := by
  simp [readExponent, readUnsignedExponent, hp, hm]

theorem readUnsignedExponent_digits (positive : Bool) (hne : digits ≠ [])
    (hd : ∀ c ∈ digits, isDigit c = true) (hv : Nat.ofDigitChars 10 digits 0 ≤ 0x7fffffff) :
    readUnsignedExponent p positive digits =
      readExponentDigits.finish p positive (Nat.ofDigitChars 10 digits 0) [] := by
  obtain ⟨c, digits, rfl⟩ := List.exists_cons_of_ne_nil hne
  obtain ⟨hc, hds⟩ := List.forall_mem_cons.mp hd
  rw [Nat.ofDigitChars_cons, Nat.mul_zero, Nat.zero_add] at hv ⊢
  rw [readUnsignedExponent, if_pos hc]
  exact readExponentDigits_digits positive hds hv

theorem readUnsignedExponent_of_eq_some (h : Yaml.unsignedExponent? negative digits = some e)
    (he : e.natAbs ≤ 0x7fffffff) (p : Partial) :
    readUnsignedExponent p (!negative) digits =
      { p with exponent := p.exponent + e }.finish [] := by
  rw [Yaml.unsignedExponent?] at h
  split at h
  · next hd =>
    have hv : Yaml.digitsValue digits = Nat.ofDigitChars 10 digits 0 := foldl_digitValue digits 0
    have hl : Nat.ofDigitChars 10 digits 0 ≤ 0x7fffffff := by
      rw [← hv]
      cases negative <;> cases h <;> simpa using he
    rw [readUnsignedExponent_digits _ hd.1 (List.all_eq_true.mp hd.2) hl,
      readExponentDigits.finish, ← hv]
    cases negative <;> cases h <;> rfl
  · cases h

/-- An exponent is read the same in both notations. -/
theorem readAfterDigits_of_exponent? (h : Yaml.exponent? text = some e)
    (he : e.natAbs ≤ 0x7fffffff) (p : Partial) :
    readAfterDigits p text = { p with exponent := p.exponent + e }.finish [] := by
  cases text with
  | nil =>
    cases h
    rw [Int.add_zero]
    rfl
  | cons c text =>
    by_cases hc : c = 'e' ∨ c = 'E'
    · have hread : readAfterDigits p (c :: text) = readExponent p text := by
        rcases hc with rfl | rfl <;> rfl
      rw [hread]
      rcases text with _ | ⟨d, text⟩
      · cases (if_pos hc).symm.trans h
      · by_cases hp : d = '+'
        · subst hp
          exact readUnsignedExponent_of_eq_some ((if_pos hc).symm.trans h) he p
        · by_cases hm : d = '-'
          · subst hm
            exact readUnsignedExponent_of_eq_some ((if_pos hc).symm.trans h) he p
          · rw [Yaml.exponent?_unsigned hc hp hm] at h
            rw [readExponent_eq hp hm]
            exact readUnsignedExponent_of_eq_some h he p
    · cases (if_neg hc).symm.trans h

end Json

namespace Yaml

variable {negative : Bool} {digits : List Char} {d : Char} {e : Int}

theorem beq_word_eq_false {text word : List Char} (hc : ∀ c ∈ text, Json.isNumberChar c = true)
    (hw : word.all Json.isNumberChar = false) : (text == word) = false := by
  rw [beq_eq_false_iff_ne]
  rintro rfl
  rw [List.all_eq_true.mpr hc] at hw
  cases hw

theorem isInfinity_eq_false {text : List Char} (hc : ∀ c ∈ text, Json.isNumberChar c = true) :
    isInfinity text = false := by
  simp (disch := decide) only [isInfinity, beq_word_eq_false hc, Bool.or_self]

theorem isNan_eq_false {text : List Char} (hc : ∀ c ∈ text, Json.isNumberChar c = true) :
    isNan text = false := by
  simp (disch := decide) only [isNan, beq_word_eq_false hc, Bool.or_self]

/-- A text of digits, points and exponents is no infinite float. -/
theorem isFinite_of_float? {text : List Char} (hc : ∀ c ∈ text, Json.isNumberChar c = true)
    (h : float? text = some v) : v.isFinite = true := by
  have hn := isNan_eq_false hc
  simp only [float?] at h
  split at h
  · next rest =>
    have hi := isInfinity_eq_false (List.forall_mem_cons.mp hc).2
    simp only [hi, hn, Bool.false_eq_true, if_false] at h
    exact (Option.filter_eq_some_iff.mp h).2
  · next rest =>
    have hi := isInfinity_eq_false (List.forall_mem_cons.mp hc).2
    simp only [hi, hn, Bool.false_eq_true, if_false] at h
    exact (Option.filter_eq_some_iff.mp h).2
  · have hi := isInfinity_eq_false hc
    simp only [hi, hn, Bool.false_eq_true, if_false] at h
    exact (Option.filter_eq_some_iff.mp h).2


theorem toTree_float {value : Binary64} (h : value.isFinite = true) :
    (Value.number (.float value)).toTree = .ok (.number (.float value)) := by
  cases value with
  | finite => rfl
  | infinite => cases h
  | nan => cases h

/-- A number of digits, points and exponents is one of a tree. -/
theorem toTree_of_resolve {text : List Char} (hc : ∀ c ∈ text, Json.isNumberChar c = true)
    (h : resolve text = .number n) : (Value.number n).toTree = .ok (.number n) := by
  have hf (v : Binary64) (hv : (if isZeroPadded text then none else float? text) = some v) :
      v.isFinite = true := by
    split at hv
    · cases hv
    · exact isFinite_of_float? hc hv
  simp only [resolve] at h
  split at h
  · cases h
  · split at h
    · cases h
    · split at h
      · split at h
        · next hl =>
          cases h
          simp only [isLong, Bool.and_eq_true, decide_eq_true_eq] at hl
          rw [Number.ofInt, dif_pos hl]
          rfl
        · split at h
          · cases h
          · split at h
            · next hv =>
              cases h
              exact toTree_float (hf _ hv)
            · cases h
      · next hv =>
        cases h
        exact toTree_float (hf _ hv)
      · cases h

theorem unsigned_ne (hd : isDigit d = true) : d ≠ '+' ∧ d ≠ '-' := by
  constructor <;> (rintro rfl; cases hd)

/-- A text that starts with a digit, with a character that is in no whole number. -/
structure IsMarked (d : Char) (digits : List Char) : Prop where
  digit : isDigit d = true
  chars : ∀ c ∈ d :: digits, Json.isNumberChar c = true
  marked : ∃ x ∈ d :: digits, digit? 10 x = none

namespace IsMarked

theorem isZeroPadded_eq_false (h : IsMarked d digits) (negative : Bool) :
    isZeroPadded (sign negative ++ d :: digits) = false := by
  have hs := unsigned_ne h.digit
  obtain ⟨x, hx, hn⟩ := h.marked
  have hd : isDigit x = false := by
    by_contra hd
    rw [digit?_of_isDigit (Bool.not_eq_false _ ▸ hd)] at hn
    cases hn
  have hu : isZeroPadded (sign negative ++ d :: digits) = isZeroPadded (d :: digits) := by
    cases negative <;> simp [sign, isZeroPadded, hs]
  have hmem : x ∈ digits := (List.mem_cons.mp hx).resolve_left (by
    rintro rfl
    simp [h.digit] at hd)
  obtain ⟨y, digits, rfl⟩ := List.exists_cons_of_ne_nil (List.ne_nil_of_mem hmem)
  have hall : (y :: digits).all isDigit = false := List.all_eq_false.mpr ⟨x, hmem, by simp [hd]⟩
  rw [hu]
  by_cases h0 : d = '0'
  · subst h0
    exact hall
  · simp [isZeroPadded, h0, hs]

theorem base?_eq_none (h : IsMarked d digits) : base? (d :: digits) = none := by
  have hc := h.chars
  unfold base?
  split
  · next he => cases hc 'x' (by simp [he])
  · next he => cases hc 'o' (by simp [he])
  · next he => cases hc 'b' (by simp [he])
  · rfl

theorem digits?_eq_none (h : IsMarked d digits) : digits? 10 (d :: digits) = none := by
  obtain ⟨x, hx, hn⟩ := h.marked
  have hf (text : List Char) (hx : x ∈ text) (n : Nat) :
      text.foldlM (fun n c => (digit? 10 c).map (n * 10 + ·)) n = none := by
    induction text generalizing n with
    | nil => cases hx
    | cons c text ih =>
      rw [List.foldlM_cons]
      rcases List.mem_cons.mp hx with rfl | hx
      · rw [hn]
        rfl
      · cases digit? 10 c with
        | none => rfl
        | some d => exact ih hx _
  exact hf _ hx 0

theorem whole?_eq_none (h : IsMarked d digits) (negative : Bool) :
    whole? (sign negative ++ d :: digits) = none := by
  have hs := unsigned_ne h.digit
  have hz := h.isZeroPadded_eq_false negative
  cases negative <;> simp [whole?, sign, hs, h.base?_eq_none, h.digits?_eq_none] at hz ⊢

theorem chars_sign (h : IsMarked d digits) (negative : Bool) :
    ∀ c ∈ sign negative ++ d :: digits, Json.isNumberChar c = true := by
  refine List.forall_mem_append.mpr ⟨?_, h.chars⟩
  cases negative with
  | true => exact List.forall_mem_singleton.mpr rfl
  | false => exact nofun

theorem float?_eq (h : IsMarked d digits) (negative : Bool) :
    float? (sign negative ++ d :: digits) =
      (decimal? negative (d :: digits)).filter Binary64.isFinite := by
  have hs := unsigned_ne h.digit
  have hn := isNan_eq_false (h.chars_sign negative)
  have hi := isInfinity_eq_false h.chars
  cases negative <;> simp [sign, float?, hs, hi] at hn ⊢ <;> simp [hn]

/-- A text with a point or an exponent is no whole number, and no word. -/
theorem resolve_eq (h : IsMarked d digits) (hf : decimal? negative (d :: digits) = some value)
    (hfin : value.isFinite = true) :
    resolve (sign negative ++ d :: digits) = .number (.float value) := by
  have hc := h.chars_sign negative
  have he : (sign negative ++ d :: digits).isEmpty = false := by cases negative <;> rfl
  have hnull : isNull (sign negative ++ d :: digits) = false := by
    simp (disch := decide) only [isNull, beq_word_eq_false hc, Bool.or_self]
  have hbool : bool? (sign negative ++ d :: digits) = none := by
    simp (disch := decide) only [bool?, beq_word_eq_false hc, Bool.or_self, Bool.false_eq_true,
      if_false]
  have hfloat : float? (sign negative ++ d :: digits) = some value := by
    rw [h.float?_eq, hf]
    simp [hfin]
  simp only [resolve, he, hnull, hbool, h.isZeroPadded_eq_false, hfloat, h.whole?_eq_none,
    Bool.or_self, Bool.false_eq_true, if_false]

end IsMarked

theorem spanDigits_append {rest : List Char} (hd : ∀ c ∈ digits, isDigit c = true)
    (hr : ∀ c ∈ rest.head?, isDigit c = false) : spanDigits (digits ++ rest) = (digits, rest) := by
  rw [spanDigits, List.span_eq_takeWhile_dropWhile, takeWhile_append hd hr, dropWhile_append hd hr]

theorem head_of_exponent? {text : List Char} (h : exponent? text = some e) :
    ∀ c ∈ text.head?, c = 'e' ∨ c = 'E' := by
  rintro c hc
  obtain ⟨rest, rfl⟩ := List.head?_eq_some_iff.mp hc
  by_contra hn
  cases (if_neg hn).symm.trans h

variable {text whole rest fraction tail : List Char}

theorem decimal?_whole (hs : spanDigits text = (whole, rest)) (hw : whole ≠ [])
    (hr : ∀ c ∈ rest.head?, c ≠ '.') : decimal? negative text = (exponent? rest).map fun e =>
      .ofDecimal negative (digitsValue whole) e := by
  cases rest with
  | nil => simp [decimal?, hs, hw]
  | cons c rest => simp [decimal?, hs, hw, hr c rfl]

theorem decimal?_point (hs : spanDigits text = (whole, '.' :: rest)) (hw : whole ≠ [])
    (hf : spanDigits rest = (fraction, tail)) :
    decimal? negative text = (exponent? tail).map fun e =>
      .ofDecimal negative (digitsValue (whole ++ fraction)) (e - fraction.length) := by
  simp only [decimal?, hs, hf, hw, false_and, if_false]

end Yaml

/-- What both readers take for the same value. -/
inductive Agreed : (letters : List Char) → Tree → Prop
  | null : Agreed ['n', 'u', 'l', 'l'] .null
  | true : Agreed ['t', 'r', 'u', 'e'] (.bool true)
  | false : Agreed ['f', 'a', 'l', 's', 'e'] (.bool false)
  | number {negative : Bool} {digits : List Char} {n : Number}
    (hj : Json.readNumber negative digits = .ok (n, []))
    (hy : Yaml.resolve (sign negative ++ digits) = .number n) :
    Agreed (sign negative ++ digits) (.number n)

theorem agreed_wholeOf (hn : -0x8000000000000000 ≤ n ∧ n < 0x10000000000000000) :
    Agreed (FloatNotation.wholeOf n) (.number (.whole n hn)) := by
  have hs : FloatNotation.wholeOf n = sign (n < 0) ++ digitsOf n.natAbs := by
    rw [FloatNotation.wholeOf]
    by_cases h : n < 0 <;> simp [h, sign]
  have hj : Json.readNumber (n < 0) (digitsOf n.natAbs ++ []) = _ :=
    Json.readNumber_whole (by omega) Json.endsNumber_nil
  have hy := Yaml.resolve_wholeOf hn
  rw [Json.wholeNumber_natAbs hn, List.append_nil] at hj
  rw [hs] at hy ⊢
  exact .number hj hy

namespace DecimalText

variable {d : DecimalText} {e : Int}

namespace IsShort

theorem exponent_head (h : d.IsShort e) : ∀ c ∈ d.exponent.head?, isDigit c = false := by
  intro c hc
  rcases Yaml.head_of_exponent? h.exponent c hc with rfl | rfl <;> rfl

theorem digitsOf_head (h : d.IsShort e) :
    ∀ c ∈ (d.fractionText ++ d.exponent).head?, isDigit c = false := by
  rw [fractionText]
  split
  · exact h.exponent_head
  · rintro c ⟨⟩
    rfl

theorem readAfterWhole (h : d.IsShort e) (negative : Bool) :
    Json.readAfterWhole negative d.whole (d.fractionText ++ d.exponent) =
      Json.readAfterDigits ⟨negative, d.significand, -d.fraction.length⟩ d.exponent := by
  obtain ⟨whole, fraction, exponent⟩ := d
  by_cases hf : fraction = []
  · subst hf
    obtain ⟨c, rest, rfl⟩ := List.exists_cons_of_ne_nil (h.marked.resolve_left fun hn => hn rfl)
    rcases Yaml.head_of_exponent? h.exponent c rfl with rfl | rfl <;> rfl
  · have hs : Nat.ofDigitChars 10 fraction whole < 0x10000000000000000 :=
      Nat.lt_trans h.significand (by decide)
    have hr := Json.readFraction_digits true (p := ⟨negative, whole, 0⟩) h.fraction hs
      h.exponent_head (.inl hf)
    rw [Int.zero_sub] at hr
    rw [fractionText, if_neg hf]
    exact hr

theorem value?_eq (h : d.IsShort e) (negative : Bool) :
    (⟨negative, d.significand, e - d.fraction.length⟩ : Json.Partial).value? =
      some (d.value negative e) :=
  Json.value?_eq _ h.significand h.least h.most

theorem isFinite (h : d.IsShort e) (negative : Bool) : (d.value negative e).isFinite = true :=
  Json.isFinite_of_value? (h.value?_eq negative)

theorem readNumber (h : d.IsShort e) (negative : Bool) :
    Json.readNumber negative d.text = .ok (.float (d.value negative e), []) := by
  have hwhole : d.whole < 0x10000000000000000 :=
    Nat.lt_of_le_of_lt (Json.le_ofDigitChars d.fraction d.whole)
      (Nat.lt_trans h.significand (by decide))
  have he : -(d.fraction.length : Int) + e = e - d.fraction.length := by omega
  have hv := h.value?_eq negative
  rw [text, Json.readNumber_digitsOf hwhole h.digitsOf_head, h.readAfterWhole,
    Json.readAfterDigits_of_exponent? h.exponent h.kept, Json.Partial.finish, he, hv]

theorem decimal?_eq (h : d.IsShort e) (negative : Bool) :
    Yaml.decimal? negative d.text = some (d.value negative e) := by
  have hd : ∀ c ∈ digitsOf d.whole, isDigit c = true := fun c hc => Yaml.isDigit_of_mem_digitsOf hc
  have hs := Yaml.spanDigits_append hd h.digitsOf_head
  have hw : digitsOf d.whole ≠ [] := Nat.toDigits_ne_nil
  have hv : Yaml.digitsValue (digitsOf d.whole ++ d.fraction) = d.significand := by
    rw [Yaml.digitsValue, foldl_digitValue, Nat.ofDigitChars_append, digitsOf,
      Nat.ofDigitChars_ten_toDigits]
    rfl
  by_cases hf : d.fraction = []
  · have hp : ∀ c ∈ (d.fractionText ++ d.exponent).head?, c ≠ '.' := by
      rw [fractionText, if_pos hf]
      intro c hc
      rcases Yaml.head_of_exponent? h.exponent c hc with rfl | rfl <;> decide
    rw [text, Yaml.decimal?_whole hs hw hp, fractionText, if_pos hf, List.nil_append, h.exponent,
      value, ← hv, hf, List.append_nil]
    simp
  · rw [fractionText, if_neg hf] at hs
    rw [text, fractionText, if_neg hf,
      Yaml.decimal?_point hs hw (Yaml.spanDigits_append h.fraction h.exponent_head), h.exponent, hv]
    rfl

/-- A point or the mark of an exponent is in no whole number. -/
theorem exists_mark (h : d.IsShort e) :
    ∃ x ∈ d.fractionText ++ d.exponent, Text.digit? 10 x = none := by
  by_cases hf : d.fraction = []
  · obtain ⟨c, rest, hx⟩ := List.exists_cons_of_ne_nil (h.marked.resolve_left fun hn => hn hf)
    refine ⟨c, by simp [hx], ?_⟩
    rcases Yaml.head_of_exponent? h.exponent c (by simp [hx]) with rfl | rfl <;> rfl
  · exact ⟨'.', by simp [fractionText, hf], rfl⟩

theorem isMarked (h : d.IsShort e) : ∃ c digits, d.text = c :: digits ∧ Yaml.IsMarked c digits := by
  obtain ⟨c, digits, hs, hc⟩ := FloatNotation.digitsOf_eq_cons d.whole
  obtain ⟨x, hx, hn⟩ := h.exists_mark
  have ht : d.text = c :: (digits ++ (d.fractionText ++ d.exponent)) := by
    rw [text, hs]
    rfl
  have hchars := Json.isNumberChar_of_readNumber (h.readNumber false)
  rw [ht] at hchars
  exact ⟨c, _, ht, hc, hchars, x, List.mem_cons_of_mem _ (List.mem_append_right _ hx), hn⟩

theorem agreed (h : d.IsShort e) (negative : Bool) :
    Agreed (sign negative ++ d.text) (.number (.float (d.value negative e))) := by
  obtain ⟨c, digits, ht, hm⟩ := h.isMarked
  have hj := h.readNumber negative
  have hy := h.decimal?_eq negative
  rw [ht] at hj hy ⊢
  exact .number hj (hm.resolve_eq hy (h.isFinite negative))

end IsShort
end DecimalText

theorem IsWord.agreed (h : IsWord letters value) : Agreed letters value := by
  cases h with
  | null => exact .null
  | true => exact .true
  | false => exact .false
  | whole hn => exact agreed_wholeOf hn
  | decimal h negative => exact h.agreed negative

end ApiPresence
