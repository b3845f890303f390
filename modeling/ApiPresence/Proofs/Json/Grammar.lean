import ApiPresence.Proofs.Json.Lexeme
import ApiPresence.Proofs.Number.Text

namespace ApiPresence

/-- Only zero has no digits but zeros. -/
theorem Binary64.digits_shortest_ne_zero (hz : rank ≠ 0) (h : rank < 0x7ff0000000000000) :
    (shortest rank).digits ≠ 0 := by
  intro hd
  have hl := (holds_shortest h).low_le
  rw [Decimal.value, hd, Nat.cast_zero, zero_mul, mul_zero] at hl
  have hh : (roundingRange 0).high ≤ (roundingRange rank).low :=
    high_le_low (Nat.pos_of_ne_zero hz)
  have hp : (roundingRange 0).high = 2 := by decide
  have hn : (roundingRange rank).low = 0 := Nat.le_zero.mp (by exact_mod_cast hl)
  omega

namespace Json

open FloatNotation (digitsOf wholeOf zeros isDigit_digitsOf isDigit_zeros)
open Text (digit?_digitChar hexDigits isDigitOf length_hexDigits)

/-- One digit or more. -/
structure IsDigits (text : List Char) : Prop where
  nonempty : text ≠ []
  digits : ∀ c ∈ text, c.isDigit = true

/-- The digits in front of a point: a zero stands there only on its own. -/
structure IsWhole (text : List Char) : Prop extends IsDigits text where
  unpadded : text.head? = some '0' → text = ['0']

inductive IsFraction : List Char → Prop
  | none : IsFraction []
  | point (h : IsDigits digits) : IsFraction ('.' :: digits)

inductive IsExponent : List Char → Prop
  | none : IsExponent []
  | mark (hc : c = 'e' ∨ c = 'E') (hs : sign ∈ [[], ['+'], ['-']]) (h : IsDigits digits) :
    IsExponent (c :: (sign ++ digits))

inductive IsMagnitude : List Char → Prop
  | parts (hw : IsWhole whole) (hf : IsFraction fraction) (he : IsExponent exponent) :
    IsMagnitude (whole ++ (fraction ++ exponent))

inductive IsNumber : List Char → Prop
  | positive (h : IsMagnitude text) : IsNumber text
  | negative (h : IsMagnitude text) : IsNumber ('-' :: text)

/-- What may stand between the quotes of a string. -/
inductive IsLetters : List Char → Prop
  | nil : IsLetters []
  | plain (hc : 32 ≤ c.toNat) (hq : c ≠ '"' ∧ c ≠ '\\') (h : IsLetters rest) :
    IsLetters (c :: rest)
  | escape (hc : c ∈ ['"', '\\', '/', 'b', 'f', 'n', 'r', 't']) (h : IsLetters rest) :
    IsLetters ('\\' :: c :: rest)
  | digits (hl : digits.length = 4) (hd : ∀ c ∈ digits, isDigitOf 16 c = true)
    (h : IsLetters rest) : IsLetters ('\\' :: 'u' :: (digits ++ rest))

inductive IsString : List Char → Prop
  | quotes (h : IsLetters letters) : IsString ('"' :: (letters ++ ['"']))

mutual

/-- A complete text of JSON that has no blanks outside its strings. -/
inductive IsText : List Char → Prop
  | null : IsText ['n', 'u', 'l', 'l']
  | true : IsText ['t', 'r', 'u', 'e']
  | false : IsText ['f', 'a', 'l', 's', 'e']
  | number (h : IsNumber text) : IsText text
  | string (h : IsString text) : IsText text
  | emptyArray : IsText ['[', ']']
  | array (h : IsText item) (hr : IsItems rest) : IsText ('[' :: (item ++ rest))
  | emptyObject : IsText ['{', '}']
  | object (hk : IsString key) (h : IsText value) (hr : IsMembers rest) :
    IsText ('{' :: (key ++ ':' :: (value ++ rest)))

/-- An array behind one of its items. -/
inductive IsItems : List Char → Prop
  | bracket : IsItems [']']
  | item (h : IsText item) (hr : IsItems rest) : IsItems (',' :: (item ++ rest))

/-- An object behind one of its members. -/
inductive IsMembers : List Char → Prop
  | brace : IsMembers ['}']
  | member (hk : IsString key) (h : IsText value) (hr : IsMembers rest) :
    IsMembers (',' :: (key ++ ':' :: (value ++ rest)))

end

section Numbers

variable {text digits others : List Char}

theorem isDigits_digitsOf (n : Nat) : IsDigits (digitsOf n) := by
  obtain ⟨c, digits, hs, -⟩ := FloatNotation.digitsOf_eq_cons n
  constructor
  · rw [hs]
    exact List.cons_ne_nil c digits
  · exact isDigit_digitsOf n

theorem IsDigits.append (h : IsDigits digits) (ho : ∀ c ∈ others, c.isDigit = true) :
    IsDigits (digits ++ others) where
  nonempty := List.append_ne_nil_of_left_ne_nil h.nonempty others
  digits := List.forall_mem_append.mpr ⟨h.digits, ho⟩

theorem IsDigits.prepend (h : IsDigits digits) (ho : ∀ c ∈ others, c.isDigit = true) :
    IsDigits (others ++ digits) where
  nonempty := List.append_ne_nil_of_right_ne_nil others h.nonempty
  digits := List.forall_mem_append.mpr ⟨ho, h.digits⟩

theorem head?_digitsOf_ne (hn : n ≠ 0) : (digitsOf n).head? ≠ some '0' :=
  head?_digitsOf (Nat.pos_of_ne_zero hn)

theorem isWhole_digitsOf (n : Nat) : IsWhole (digitsOf n) where
  toIsDigits := isDigits_digitsOf n
  unpadded := by
    intro h
    by_cases hn : n = 0
    · subst hn
      rfl
    · exact absurd h (head?_digitsOf_ne hn)

theorem isNumber_wholeOf (n : Int) : IsNumber (wholeOf n) := by
  have hm : IsMagnitude (digitsOf n.natAbs ++ ([] ++ [])) :=
    .parts (isWhole_digitsOf n.natAbs) .none .none
  rw [List.append_nil, List.append_nil] at hm
  rw [wholeOf]
  split
  · exact .negative hm
  · exact .positive hm

theorem isExponent_wholeOf (hs : sign = [] ∨ sign = ['+'] ∧ 0 ≤ n) :
    IsExponent ('e' :: (sign ++ wholeOf n)) := by
  have hd := isDigits_digitsOf n.natAbs
  rw [wholeOf]
  split
  · next hn =>
    have he : sign = [] := hs.resolve_right fun h => by omega
    subst he
    exact @IsExponent.mark 'e' ['-'] _ (.inl rfl) (by decide) hd
  · next hn =>
    apply IsExponent.mark (.inl rfl) _ hd
    rcases hs with rfl | ⟨rfl, -⟩ <;> decide

theorem IsDigits.isWhole (h : IsDigits text) (hh : text.head? ≠ some '0') : IsWhole text where
  toIsDigits := h
  unpadded ht := absurd ht hh

theorem IsDigits.take (h : IsDigits digits) (hn : n ≠ 0) : IsDigits (digits.take n) where
  nonempty := by simp [hn, h.nonempty]
  digits c hc := h.digits c (List.mem_of_mem_take hc)

theorem IsDigits.drop (h : IsDigits digits) (hn : n < digits.length) :
    IsDigits (digits.drop n) where
  nonempty := by simp [hn]
  digits c hc := h.digits c (List.mem_of_mem_drop hc)

/-- The first digit stands in front of a point whatever it is. -/
theorem IsDigits.isWhole_take (h : IsDigits digits) : IsWhole (digits.take 1) where
  toIsDigits := h.take Nat.one_ne_zero
  unpadded := by
    cases digits with
    | nil => exact nofun
    | cons c digits => simp

/-- A float has digits on both sides of its point, and no zeros in front of others. -/
theorem isMagnitude_magnitude (style : FloatNotation) {d : Decimal}
    (hz : d.digits = 0 → d.exponent = 0) : IsMagnitude (style.magnitude d) := by
  have hw := isWhole_digitsOf d.digits
  have hd := hw.toIsDigits
  have hh : d.exponent ≠ 0 → (digitsOf d.digits).head? ≠ some '0' := by
    intro he
    exact head?_digitsOf_ne fun h => he (hz h)
  have hl := List.length_pos_of_ne_nil hd.nonempty
  rw [FloatNotation.magnitude]
  generalize digitsOf d.digits = digits at *
  split
  · next hp =>
    have hf : IsWhole (digits ++ zeros d.exponent.toNat) := by
      by_cases he : d.exponent = 0
      · simpa [he, zeros] using hw
      · apply (hd.append (isDigit_zeros _)).isWhole
        rw [List.head?_append_of_ne_nil _ hd.nonempty]
        exact hh he
    have hm := IsMagnitude.parts hf (.point (isDigits_digitsOf 0)) .none
    rwa [List.append_nil] at hm
  · split
    · next hp =>
      have hk : d.exponent ≠ 0 := by omega
      have hf : IsWhole (digits.take (digits.length + d.exponent).toNat) := by
        apply (hd.take (by omega)).isWhole
        rw [List.head?_take, if_neg (by omega)]
        exact hh hk
      have hr := hd.drop (n := (digits.length + d.exponent).toNat) (by omega)
      have hm := IsMagnitude.parts hf (.point hr) .none
      rwa [List.append_nil] at hm
    · split
      · have hf : IsWhole ['0'] := isWhole_digitsOf 0
        have hr := hd.prepend (isDigit_zeros (-(digits.length + d.exponent)).toNat)
        have hm := IsMagnitude.parts hf (.point hr) .none
        rwa [List.append_nil] at hm
      · have hf : IsFraction (if digits.length ≤ 1 then [] else '.' :: digits.drop 1) := by
          split
          · exact .none
          · exact .point (hd.drop (by omega))
        rw [List.append_assoc, List.append_assoc]
        apply IsMagnitude.parts hd.isWhole_take hf
        apply isExponent_wholeOf
        split
        · next hs =>
          right
          simp at hs
          exact ⟨rfl, by omega⟩
        · exact .inl rfl

theorem isNumber_text (style : FloatNotation) (negative : Bool) (h : rank < 0x7ff0000000000000) :
    IsNumber (style.text negative rank) := by
  have hm : IsMagnitude (style.magnitude (Binary64.shortest rank)) := by
    apply isMagnitude_magnitude
    intro hd
    by_cases hz : rank = 0
    · subst hz
      rfl
    · exact absurd hd (Binary64.digits_shortest_ne_zero hz h)
  rw [FloatNotation.text]
  split
  · exact .negative hm
  · exact .positive hm

theorem isText_numberText (n : Number) : IsText (numberText n) := by
  cases n with
  | whole value inRange => exact .number (isNumber_wholeOf value)
  | float value =>
    cases value with
    | finite negative rank => exact .number (isNumber_text floatNotation negative rank.isLt)
    | infinite negative => exact .null
    | nan => exact .null

end Numbers

section Strings

theorem isDigitOf_hexDigits (n k : Nat) : ∀ c ∈ hexDigits false n k, isDigitOf 16 c = true := by
  induction k generalizing n with
  | zero => exact List.forall_mem_nil _
  | succ k ih =>
    rw [hexDigits, List.forall_mem_append, List.forall_mem_singleton, isDigitOf,
      digit?_digitChar false (Nat.mod_lt n (by decide))]
    exact ⟨ih (n / 16), rfl⟩

theorem isLetters_escape (c : Char) (h : IsLetters rest) : IsLetters (escape c ++ rest) := by
  unfold escape
  split
  case h_8 hq hb _ _ _ _ _ =>
    split
    · exact .digits (length_hexDigits false c.toNat 4) (isDigitOf_hexDigits c.toNat 4) h
    · next hc => exact .plain (Nat.le_of_not_lt hc) ⟨hq, hb⟩ h
  all_goals exact .escape (by decide) h

theorem isString_quoted (s : String) : IsString (quoted s) := by
  have hl : IsLetters (s.toList.flatMap escape) := by
    induction s.toList with
    | nil => exact .nil
    | cons c text ih => exact isLetters_escape c ih
  exact .quotes hl

end Strings

mutual

/-- What is written for a tree on one line is a complete text, whatever the tree is. -/
theorem isText_write (level : Nat) : (t : Tree) → IsText (write .compact level t)
  | .null => .null
  | .bool true => .true
  | .bool false => .false
  | .number n => isText_numberText n
  | .string s => .string (isString_quoted s)
  | .array [] => .emptyArray
  | .array (item :: rest) => by
    have hr := isItems_writeItems (level + 1) rest
    simpa [write, Layout.lineBreak] using IsText.array (isText_write (level + 1) item) hr
  | .object [] => .emptyObject
  | .object ((key, value) :: rest) => by
    have hv := isText_write (level + 1) value
    have hr := isMembers_writeMembers (level + 1) rest
    simpa [write, Layout.lineBreak, Layout.colon] using IsText.object (isString_quoted key) hv hr

theorem isItems_writeItems (level : Nat) :
    (items : List Tree) → IsItems (writeItems .compact level items ++ [']'])
  | [] => .bracket
  | item :: rest => by
    have hr := isItems_writeItems level rest
    simpa [writeItems, Layout.lineBreak] using IsItems.item (isText_write level item) hr

theorem isMembers_writeMembers (level : Nat) :
    (members : List (String × Tree)) → IsMembers (writeMembers .compact level members ++ ['}'])
  | [] => .brace
  | (key, value) :: rest => by
    have hv := isText_write level value
    have hr := isMembers_writeMembers level rest
    simpa [writeMembers, Layout.lineBreak, Layout.colon] using
      IsMembers.member (isString_quoted key) hv hr

end

/-- No character of a text is a control. -/
def Solid (text : List Char) : Prop := ∀ c ∈ text, 32 ≤ c.toNat

section Solid

variable {text : List Char} {c : Char}

@[simp]
theorem solid_nil : Solid [] := List.forall_mem_nil _

@[simp]
theorem solid_cons : Solid (c :: text) ↔ 32 ≤ c.toNat ∧ Solid text := List.forall_mem_cons

@[simp]
theorem solid_append : Solid (a ++ b) ↔ Solid a ∧ Solid b := List.forall_mem_append

theorem le_of_isDigit (h : c.isDigit = true) : 32 ≤ c.toNat := by
  simp only [Char.isDigit, Bool.and_eq_true, decide_eq_true_eq, UInt32.le_iff_toNat_le] at h
  exact Nat.le_trans (by decide) h.1

theorem isDigitOf_eq_false (h : c.toNat < 32) : isDigitOf 16 c = false := by
  have hc (n : Fin 32) : isDigitOf 16 (Char.ofNat n) = false := by
    decide +revert
  have hn := hc ⟨c.toNat, h⟩
  rwa [Char.ofNat_toNat] at hn

theorem le_of_isDigitOf (h : isDigitOf 16 c = true) : 32 ≤ c.toNat := by
  by_contra hc
  rw [isDigitOf_eq_false (Nat.lt_of_not_le hc)] at h
  cases h

theorem IsDigits.solid (h : IsDigits text) : Solid text := fun c hc => le_of_isDigit (h.digits c hc)

theorem IsFraction.solid (h : IsFraction text) : Solid text := by
  cases h with
  | none => exact solid_nil
  | point h => simp [h.solid]

theorem IsExponent.solid (h : IsExponent text) : Solid text := by
  cases h with
  | none => exact solid_nil
  | mark hc hs h =>
    have hm : 32 ≤ 'e'.toNat ∧ 32 ≤ 'E'.toNat := by decide
    have hp : ∀ sign ∈ [[], ['+'], ['-']], Solid sign := by simp
    rw [solid_cons, solid_append]
    exact ⟨hc.elim (· ▸ hm.1) (· ▸ hm.2), hp _ hs, h.solid⟩

theorem IsNumber.solid (h : IsNumber text) : Solid text := by
  cases h with
  | positive h | negative h =>
    obtain ⟨hw, hf, he⟩ := h
    simp [hw.solid, hf.solid, he.solid]

theorem IsLetters.solid (h : IsLetters text) : Solid text := by
  induction h with
  | nil => exact solid_nil
  | plain hc hq h ih => exact solid_cons.mpr ⟨hc, ih⟩
  | escape hc h ih =>
    have hl : Solid ['"', '\\', '/', 'b', 'f', 'n', 'r', 't'] := by simp
    rw [solid_cons, solid_cons]
    exact ⟨by decide, hl _ hc, ih⟩
  | @digits digits rest hl hd h ih =>
    have hs : Solid digits := fun c hc => le_of_isDigitOf (hd c hc)
    simp [hs, ih]

theorem IsString.solid (h : IsString text) : Solid text := by
  cases h with
  | quotes h => simp [h.solid]

/-- A text of JSON without blanks has no controls: its strings show them by escapes. -/
theorem IsText.solid (h : IsText text) : Solid text := by
  induction h using IsText.rec (motive_2 := fun text _ => Solid text)
      (motive_3 := fun text _ => Solid text) with
  | null | true | false | emptyArray | emptyObject | bracket | brace => simp
  | number h => exact h.solid
  | string h => exact h.solid
  | array _ _ ih ihr | item _ _ ih ihr => simp [ih, ihr]
  | object hk _ _ ih ihr | member hk _ _ ih ihr => simp [hk.solid, ih, ihr]

end Solid

end Json
end ApiPresence
