import ApiPresence.Json.Structure
import ApiPresence.Proofs.Json.Extent

namespace ApiPresence.Json

open Text (isDigit)

variable {text rest more gap : List Char}

theorem not_isNumber_cons (hm : c ≠ '-') (hd : isDigit c = false) : ¬ IsNumber (c :: text) := by
  intro h
  cases h with
  | negative => exact hm rfl
  | positive h =>
    obtain ⟨x, front, hx, hc⟩ := h.head
    cases hx
    exact Bool.noConfusion (hd.symm.trans hc)

/-- What a reader takes is a value, and no number: its end does not depend on what follows. -/
structure ReadsValue (read : List Char → Except Fault (α × List Char)) : Prop where
  skips {gap text : List Char} (hg : Blank gap) : read (gap ++ text) = read text
  value {text rest : List Char} {a : α} (h : read text = .ok (a, rest)) :
    ∃ gap value, text = gap ++ (value ++ rest) ∧ Blank gap ∧ IsValue value ∧ ¬ IsNumber value ∧
      ∀ more, read (value ++ more) = .ok (a, more)

namespace ReadsValue

variable {read : List Char → Except Fault (α × List Char)} {value : List Char}

/-- A reader that passes over blanks is judged by what it takes behind them. -/
theorem of_skips (hs : ∀ {gap text}, Blank gap → read (gap ++ text) = read text)
    (hv : ∀ {text a rest}, skipBlanks text = text → read text = .ok (a, rest) →
      ∃ value, text = value ++ rest ∧ IsValue value ∧ ¬ IsNumber value ∧
        ∀ more, read (value ++ more) = .ok (a, more)) : ReadsValue read where
  skips := hs
  value {text rest a} h := by
    obtain ⟨gap, ht, hg⟩ := exists_gap text
    have hi : skipBlanks (skipBlanks text) = skipBlanks text := by
      rw [← hg.skipBlanks_append, ← ht]
    rw [ht, hs hg] at h
    obtain ⟨value, he, hv, hn, hr⟩ := hv hi h
    exact ⟨gap, value, he ▸ ht, hg, hv, hn, hr⟩

/-- Of a value a reader takes everything, and the same whatever follows. -/
theorem eq_ok_iff (hr : ReadsValue read) (hv : IsValue value)
    (hn : IsNumber value → EndsNumber more) :
    read (value ++ more) = .ok (a, rest) ↔ rest = more ∧ read value = .ok (a, []) := by
  have hself (text : List Char) : skipBlanks (value ++ text) = value ++ text :=
    hv.startsValue.skipBlanks_append
  constructor
  · intro h
    obtain ⟨gap, taken, ht, hg, htaken, hnumber, hall⟩ := hr.value h
    have hs : value ++ more = taken ++ rest := by
      rw [← hself, ht, hg.skipBlanks_isValue htaken]
    obtain ⟨rfl, rfl⟩ := hv.unique htaken hs hn fun h => absurd h hnumber
    have hempty := hall []
    rw [List.append_nil] at hempty
    exact ⟨rfl, hempty⟩
  · rintro ⟨rfl, h⟩
    obtain ⟨gap, taken, ht, hg, htaken, hnumber, hall⟩ := hr.value h
    rw [List.append_nil] at ht
    have hs : value = taken := by
      rw [← List.append_nil value, ← hself, List.append_nil, ht, ← List.append_nil taken,
        hg.skipBlanks_isValue htaken]
    rw [hs]
    exact hall _

end ReadsValue

theorem wrongType_ne_ok {r : α} : wrongType expected text ≠ .ok r := by
  unfold wrongType
  split
  · exact nofun
  · exact nofun
  · intro h
    obtain ⟨_, -, h⟩ := bind_eq_ok_iff.mp h
    cases h

theorem readTextValue_eq_ok_iff : readTextValue expected text = .ok (s, rest) ↔
    ∃ gap letters, text = gap ++ '"' :: (letters ++ '"' :: rest) ∧ Blank gap ∧
      Denotes letters s.toList := by
  constructor
  · intro h
    unfold readTextValue at h
    split at h
    · cases h
    · next hs =>
      obtain ⟨letters, rfl, hl⟩ := readString_eq_ok_iff.mp h
      obtain ⟨gap, rfl, hg⟩ := exists_blank hs
      exact ⟨gap, letters, rfl, hg, hl⟩
    · exact absurd h wrongType_ne_ok
  · rintro ⟨gap, letters, rfl, hg, hl⟩
    rw [readTextValue, hg.skipBlanks_append, skipBlanks_cons (by decide)]
    exact readString_eq_ok_iff.mpr ⟨letters, rfl, hl⟩

theorem readUnit_eq_ok_iff : readUnit text = .ok rest ↔
    ∃ gap, text = gap ++ (['n', 'u', 'l', 'l'] ++ rest) ∧ Blank gap := by
  constructor
  · intro h
    unfold readUnit at h
    split at h
    · cases h
    · next hs =>
      cases readWord_eq_ok_iff.mp h
      exact exists_blank hs
    · exact absurd h wrongType_ne_ok
  · rintro ⟨gap, rfl, hg⟩
    rw [readUnit, hg.skipBlanks_append]
    rfl

theorem IsString.not_isNumber (h : IsString text) : ¬ IsNumber text := by
  obtain ⟨-⟩ := h
  exact not_isNumber_cons (by decide) rfl

theorem readsValue_textValue : ReadsValue (readTextValue expected) where
  skips hg := by rw [readTextValue, readTextValue, hg.skipBlanks_append]
  value h := by
    obtain ⟨gap, letters, rfl, hg, hl⟩ := readTextValue_eq_ok_iff.mp h
    have hs : IsString ('"' :: (letters ++ ['"'])) := .quotes hl.isLetters
    refine ⟨gap, _, by simp, hg, .string hs, hs.not_isNumber, fun more => ?_⟩
    exact readTextValue_eq_ok_iff.mpr ⟨[], letters, by simp, List.forall_mem_nil _, hl⟩

theorem readsValue_bool : ReadsValue readBool := by
  apply ReadsValue.of_skips
  · intro gap text hg
    rw [readBool, readBool, hg.skipBlanks_append]
  · intro text a rest hs h
    unfold readBool at h
    split at h
    · cases h
    · next hb =>
      obtain ⟨rest, hw, h⟩ := bind_eq_ok_iff.mp h
      cases h
      cases readWord_eq_ok_iff.mp hw
      exact ⟨_, hs.symm.trans hb, .true, not_isNumber_cons (by decide) rfl, fun _ => rfl⟩
    · next hb =>
      obtain ⟨rest, hw, h⟩ := bind_eq_ok_iff.mp h
      cases h
      cases readWord_eq_ok_iff.mp hw
      exact ⟨_, hs.symm.trans hb, .false, not_isNumber_cons (by decide) rfl, fun _ => rfl⟩
    · exact absurd h wrongType_ne_ok

theorem readOptional_some {read : List Char → Except Fault (α × List Char)}
    (hn : ∀ front, skipBlanks text ≠ 'n' :: front) (h : read text = .ok (a, rest)) :
    readOptional read text = .ok (some a, rest) := by
  unfold readOptional
  split
  · next hs => exact absurd hs (hn _)
  · rw [h, ok_bind]

theorem ReadsValue.optional {read : List Char → Except Fault (α × List Char)}
    (hr : ReadsValue read) : ReadsValue (readOptional read) := by
  apply ReadsValue.of_skips
  · intro gap text hg
    unfold readOptional
    rw [hg.skipBlanks_append, hr.skips hg]
  · intro text a rest hs h
    unfold readOptional at h
    split at h
    · next hb =>
      obtain ⟨rest, hw, h⟩ := bind_eq_ok_iff.mp h
      cases h
      cases readWord_eq_ok_iff.mp hw
      exact ⟨_, hs.symm.trans hb, .null, not_isNumber_cons (by decide) rfl, fun _ => rfl⟩
    · next hb =>
      obtain ⟨⟨a, rest⟩, ha, h⟩ := bind_eq_ok_iff.mp h
      cases h
      obtain ⟨gap, value, rfl, hg, hv, hn, hall⟩ := hr.value ha
      rw [hg.skipBlanks_isValue hv] at hs
      refine ⟨value, hs.symm, hv, hn, fun more => readOptional_some ?_ (hall more)⟩
      intro front hf
      rw [hv.startsValue.skipBlanks_append] at hf
      obtain ⟨c, hc, -, -⟩ := hv.startsValue
      obtain ⟨letters, rfl⟩ := List.head?_eq_some_iff.mp hc
      cases hf
      apply hb
      rw [hg.skipBlanks_isValue hv]
      rfl

/-- The same value under another name or within a larger one. -/
theorem ReadsValue.map {read : List Char → Except Fault (α × List Char)} (hr : ReadsValue read)
    (f : α → β) : ReadsValue fun text => do
      let (a, rest) ← read text
      .ok (f a, rest) where
  skips hg := by rw [hr.skips hg]
  value h := by
    obtain ⟨⟨a, rest⟩, ha, h⟩ := bind_eq_ok_iff.mp h
    cases h
    obtain ⟨gap, value, rfl, hg, hv, hn, hall⟩ := hr.value ha
    refine ⟨gap, value, rfl, hg, hv, hn, fun more => ?_⟩
    rw [hall more, ok_bind]

section Variants

variable {known : List (String × α)} {name : String} {letters : List Char} {a : α}

theorem findVariant_eq_ok_iff :
    findVariant known name rest = .ok a ↔ known.lookup name = some a := by
  unfold findVariant
  split
  · next h => rw [h, ok_eq_ok_iff, Option.some.injEq, eq_comm]
  · next h => simp [h]

theorem readVariant_string (hl : Denotes letters name.toList) (hk : known.lookup name = some a) :
    readVariant known ('"' :: (letters ++ '"' :: rest)) = .ok (a, rest) := by
  rw [readVariant, skipBlanks_cons (by decide)]
  show readString _ >>= _ = _
  rw [readString_eq_ok_iff.mpr ⟨letters, rfl, hl⟩]
  show findVariant known name rest >>= _ = _
  rw [findVariant_eq_ok_iff.mpr hk]
  rfl

/-- A variant in an object is the key of its only member, whose value is null. -/
theorem readVariant_object {m : Member} (hm : m.IsWellFormed)
    (hl : Denotes m.key.value name.toList) (hn : m.value.value = ['n', 'u', 'l', 'l'])
    (hk : known.lookup name = some a) :
    readVariant known ('{' :: (m.text ++ '}' :: rest)) = .ok (a, rest) := by
  have hkey : readTextValue "variant identifier" (m.text ++ '}' :: rest) = .ok (name, _) :=
    readTextValue_eq_ok_iff.mpr ⟨m.key.front, m.key.value, m.text_append _, hm.key.front, hl⟩
  rw [readVariant, skipBlanks_cons (by decide)]
  show readTextValue _ _ >>= _ = _
  rw [hkey]
  show findVariant known name _ >>= _ = _
  rw [findVariant_eq_ok_iff.mpr hk]
  show readColon _ >>= _ = _
  rw [readColon_append hm.key.back, hn]
  show readUnit _ >>= _ = _
  rw [readUnit_eq_ok_iff.mpr ⟨m.value.front, rfl, hm.around.front⟩, ok_bind,
    hm.around.back.skipBlanks_append, skipBlanks_cons (by decide)]
  rfl

theorem readsValue_variant : ReadsValue (readVariant known) := by
  apply ReadsValue.of_skips
  · intro gap text hg
    rw [readVariant, readVariant, hg.skipBlanks_append]
  · intro text a rest hs h
    unfold readVariant at h
    split at h
    · cases h
    · next hb =>
      obtain ⟨⟨name, rest⟩, hname, h⟩ := bind_eq_ok_iff.mp h
      obtain ⟨value, hk, h⟩ := bind_eq_ok_iff.mp h
      cases h
      obtain ⟨letters, rfl, hl⟩ := readString_eq_ok_iff.mp hname
      have hstring : IsString ('"' :: (letters ++ ['"'])) := .quotes hl.isLetters
      refine ⟨'"' :: (letters ++ ['"']), ?_, .string hstring, hstring.not_isNumber,
        fun more => ?_⟩
      · rw [← hs, hb, List.cons_append, List.append_assoc]
        rfl
      rw [List.cons_append, List.append_assoc]
      exact readVariant_string hl (findVariant_eq_ok_iff.mp hk)
    · next hb =>
      simp only [bind_eq_ok_iff] at h
      obtain ⟨⟨name, _⟩, hname, value, hk, _, hcolon, behindUnit, hunit, h⟩ := h
      obtain ⟨front, rfl, hf⟩ := readUnit_eq_ok_iff.mp hunit
      obtain ⟨back, rfl, hback⟩ := exists_blank_of_readColon hcolon
      obtain ⟨inner, letters, rfl, hi, hl⟩ := readTextValue_eq_ok_iff.mp hname
      split at h
      · next hclose =>
        cases h
        obtain ⟨close, rfl, hc⟩ := exists_blank hclose
        let m : Member := ⟨⟨inner, letters, back⟩, ⟨front, ['n', 'u', 'l', 'l'], close⟩⟩
        have hm : m.IsWellFormed := ⟨⟨hi, hback⟩, hl.isLetters, ⟨hf, hc⟩, .null⟩
        have ho (more : List Char) :
            Object.text ⟨[m], []⟩ ++ more = '{' :: (m.text ++ '}' :: more) :=
          Object.text_cons_append m [] [] more
        refine ⟨Object.text ⟨[m], []⟩, ?_, ?_, not_isNumber_cons (by decide) rfl, fun more => ?_⟩
        · rw [← hs, hb, ho, m.text_append]
        · apply Object.IsWellFormed.isValue
          exact ⟨List.forall_mem_singleton.mpr hm, List.forall_mem_nil _⟩
        · rw [ho]
          exact readVariant_object hm hl rfl (findVariant_eq_ok_iff.mp hk)
      · cases h
      · cases h
    · cases h

end Variants

end ApiPresence.Json
