import ApiPresence.Proofs.Json.Value

namespace ApiPresence.Json

variable {text rest more gap inner : List Char}

/-- The blanks in front of a text, and the rest of it. -/
theorem exists_gap (text : List Char) : ∃ gap, text = gap ++ skipBlanks text ∧ Blank gap :=
  ⟨text.takeWhile isBlank, List.takeWhile_append_dropWhile.symm, fun _ => List.mem_takeWhile_imp⟩

theorem exists_blank (h : skipBlanks text = rest) : ∃ gap, text = gap ++ rest ∧ Blank gap :=
  h ▸ exists_gap text

theorem readWord_eq_ok_iff {letters : List Char} :
    readWord letters text = .ok rest ↔ text = letters ++ rest := by
  induction letters generalizing text with
  | nil => exact ok_eq_ok_iff.trans eq_comm
  | cons x letters ih =>
    cases text with
    | nil => simp [readWord]
    | cons c text =>
      rw [readWord]
      split <;> simp_all

theorem exists_blank_of_readColon (h : readColon text = .ok rest) :
    ∃ gap, text = gap ++ ':' :: rest ∧ Blank gap := by
  unfold readColon at h
  split at h
  · next hs =>
    cases h
    exact exists_blank hs
  · cases h
  · cases h

/-- What is stepped over is a value, and so are the items and the members behind it. -/
structure SkipsWritten (fuel : Nat) : Prop where
  value {text rest : List Char} (h : skipValue fuel text = .ok rest) :
    ∃ gap value, text = gap ++ (value ++ rest) ∧ Blank gap ∧ IsValue value
  items {text rest : List Char} (h : skipMoreItems fuel text = .ok rest) :
    ∃ (back : List Char) (items : List (Spaced (List Char))),
      text = back ++ (behind (items.map (·.written)) ++ ']' :: rest) ∧ Blank back ∧
        ∀ item ∈ items, item.IsBlank ∧ IsValue item.value
  members {text rest : List Char} (h : skipMember fuel text = .ok rest) :
    ∃ (m : Member) (members : List Member),
      text = m.text ++ (behind (members.map (·.text)) ++ '}' :: rest) ∧
        ∀ x ∈ m :: members, x.IsWellFormed

namespace SkipsWritten

theorem array (hs : SkipsWritten fuel) (h : skipValue fuel text = .ok more)
    (hm : skipMoreItems fuel more = .ok rest) (hi : Blank inner) :
    ∃ value, '[' :: (inner ++ text) = value ++ rest ∧ IsValue value := by
  obtain ⟨front, value, rfl, hf, hv⟩ := hs.value h
  obtain ⟨back, items, rfl, hb, hitems⟩ := hs.items hm
  have hall : ∀ item ∈ (⟨inner ++ front, value, back⟩ : Spaced (List Char)) :: items,
      item.IsBlank ∧ IsValue item.value :=
    List.forall_mem_cons.mpr ⟨⟨⟨hi.append hf, hb⟩, hv⟩, hitems⟩
  refine ⟨_, ?_, isValue_array (List.forall_mem_nil _) hall⟩
  rw [List.map_cons, enclosed_cons_append, Spaced.written_append]
  simp only [List.append_assoc, List.nil_append]

theorem object (hs : SkipsWritten fuel) (h : skipMember fuel text = .ok rest)
    (hi : Blank inner) : ∃ value, '{' :: (inner ++ text) = value ++ rest ∧ IsValue value := by
  obtain ⟨m, members, rfl, hm⟩ := hs.members h
  obtain ⟨hm, hms⟩ := List.forall_mem_cons.mp hm
  obtain ⟨⟨front, letters, back⟩, value⟩ := m
  have ho : Object.IsWellFormed ⟨⟨⟨inner ++ front, letters, back⟩, value⟩ :: members, []⟩ := by
    refine ⟨List.forall_mem_cons.mpr ⟨?_, hms⟩, List.forall_mem_nil _⟩
    exact { hm with key := ⟨hi.append hm.key.front, hm.key.back⟩ }
  refine ⟨_, ?_, ho.isValue⟩
  rw [Object.text_cons_append, Member.text_append, Member.text_append]
  simp only [List.append_assoc, List.nil_append]

theorem value_succ (hs : SkipsWritten fuel) (h : skipValue (fuel + 1) text = .ok rest) :
    ∃ gap value, text = gap ++ (value ++ rest) ∧ Blank gap ∧ IsValue value := by
  obtain ⟨gap, ht, hg⟩ := exists_gap text
  suffices hv : ∃ value, skipBlanks text = value ++ rest ∧ IsValue value by
    obtain ⟨value, hb, hv⟩ := hv
    exact ⟨gap, value, hb ▸ ht, hg, hv⟩
  unfold skipValue at h
  split at h
  case h_1 => cases h
  case h_2 hb =>
    rw [hb, readWord_eq_ok_iff.mp h]
    exact ⟨_, rfl, .null⟩
  case h_3 hb =>
    rw [hb, readWord_eq_ok_iff.mp h]
    exact ⟨_, rfl, .true⟩
  case h_4 hb =>
    rw [hb, readWord_eq_ok_iff.mp h]
    exact ⟨_, rfl, .false⟩
  case h_5 hb =>
    obtain ⟨magnitude, rfl, hm⟩ := isMagnitude_of_skipNumber h
    exact ⟨'-' :: magnitude, hb, .number (.negative hm)⟩
  case h_6 hb =>
    obtain ⟨letters, rfl, hl⟩ := skipString_eq_ok_iff.mp h
    exact ⟨'"' :: (letters ++ ['"']), by simp [hb], .string ⟨hl⟩⟩
  case h_7 inside hb =>
    obtain ⟨inner, hi, hblank⟩ := exists_gap inside
    rw [hb]
    split at h
    · cases h
    · next hclose =>
      cases h
      rw [hi, hclose]
      exact ⟨enclosed '[' ']' [] inner, by simp [enclosed], isValue_emptyArray hblank⟩
    · obtain ⟨more, hv, hm⟩ := bind_eq_ok_iff.mp h
      rw [hi]
      exact hs.array hv hm hblank
  case h_8 inside hb =>
    obtain ⟨inner, hi, hblank⟩ := exists_gap inside
    rw [hb]
    split at h
    · cases h
    · next hclose =>
      cases h
      rw [hi, hclose]
      exact ⟨_, (Object.text_nil_append inner _).symm,
        Object.IsWellFormed.isValue ⟨List.forall_mem_nil _, hblank⟩⟩
    · rw [hi]
      exact hs.object h hblank
  case h_9 hb =>
    split at h
    · obtain ⟨magnitude, hm, h⟩ := isMagnitude_of_skipNumber h
      exact ⟨magnitude, hb.trans hm, .number (.positive h)⟩
    · cases h

theorem items_succ (hs : SkipsWritten fuel) (h : skipMoreItems (fuel + 1) text = .ok rest) :
    ∃ (back : List Char) (items : List (Spaced (List Char))),
      text = back ++ (behind (items.map (·.written)) ++ ']' :: rest) ∧ Blank back ∧
        ∀ item ∈ items, item.IsBlank ∧ IsValue item.value := by
  obtain ⟨gap, ht, hg⟩ := exists_gap text
  rw [ht]
  unfold skipMoreItems at h
  split at h
  case h_1 => cases h
  case h_2 hb =>
    cases h
    exact ⟨gap, [], by rw [hb]; rfl, hg, List.forall_mem_nil _⟩
  case h_3 hb =>
    obtain ⟨more, hvalue, hmore⟩ := bind_eq_ok_iff.mp h
    obtain ⟨back, items, rfl, hback, hitems⟩ := hs.items hmore
    obtain ⟨front, value, rfl, hf, hv⟩ := hs.value hvalue
    refine ⟨gap, ⟨front, value, back⟩ :: items, ?_, hg,
      List.forall_mem_cons.mpr ⟨⟨⟨hf, hback⟩, hv⟩, hitems⟩⟩
    rw [hb, List.map_cons, behind_cons_append, Spaced.written_append]
  case h_4 => cases h

theorem members_succ (hs : SkipsWritten fuel) (h : skipMember (fuel + 1) text = .ok rest) :
    ∃ (m : Member) (members : List Member),
      text = m.text ++ (behind (members.map (·.text)) ++ '}' :: rest) ∧
        ∀ x ∈ m :: members, x.IsWellFormed := by
  obtain ⟨gap, ht, hg⟩ := exists_gap text
  rw [ht]
  unfold skipMember at h
  split at h
  case h_1 | h_3 => cases h
  case h_2 hb =>
    simp only [bind_eq_ok_iff] at h
    obtain ⟨behindKey, hstring, behindColon, hcolon, more, hvalue, h⟩ := h
    obtain ⟨front, value, rfl, hf, hv⟩ := hs.value hvalue
    obtain ⟨beforeColon, rfl, hc⟩ := exists_blank_of_readColon hcolon
    obtain ⟨letters, rfl, hl⟩ := skipString_eq_ok_iff.mp hstring
    obtain ⟨back, hmore, hback⟩ := exists_gap more
    have hm : Member.IsWellFormed ⟨⟨gap, letters, beforeColon⟩, ⟨front, value, back⟩⟩ :=
      ⟨⟨hg, hc⟩, hl, ⟨hf, hback⟩, hv⟩
    rw [hb, hmore]
    split at h
    · cases h
    · next hclose =>
      cases h
      refine ⟨_, [], ?_, List.forall_mem_singleton.mpr hm⟩
      rw [hclose]
      exact (Member.text_append ⟨⟨gap, letters, beforeColon⟩, ⟨front, value, back⟩⟩ _).symm
    · next hcomma =>
      obtain ⟨m, members, rfl, hms⟩ := hs.members h
      refine ⟨_, m :: members, ?_, List.forall_mem_cons.mpr ⟨hm, hms⟩⟩
      rw [hcomma, List.map_cons, behind_cons_append]
      exact (Member.text_append ⟨⟨gap, letters, beforeColon⟩, ⟨front, value, back⟩⟩ _).symm
    · cases h

end SkipsWritten

theorem skipsWritten (fuel : Nat) : SkipsWritten fuel := by
  induction fuel with
  | zero => constructor <;> (intro text rest h; cases h)
  | succ fuel ih => exact ⟨ih.value_succ, ih.items_succ, ih.members_succ⟩

/-- A text starts with one value at most. -/
theorem IsValue.unique {value other : List Char} (hv : IsValue value) (ho : IsValue other)
    (he : value ++ text = other ++ rest) (hn : IsNumber value → EndsNumber text)
    (hm : IsNumber other → EndsNumber rest) : value = other ∧ text = rest := by
  have ht := hv.skipped (value.length + other.length) text (Nat.le_add_right _ _) hn
  rw [he, ho.skipped (value.length + other.length) rest (Nat.le_add_left _ _) hm] at ht
  cases ht
  exact ⟨List.append_cancel_right he, rfl⟩

theorem Blank.skipBlanks_isValue {value : List Char} (hg : Blank gap) (hv : IsValue value) :
    skipBlanks (gap ++ (value ++ rest)) = value ++ rest := by
  rw [hg.skipBlanks_append, hv.startsValue.skipBlanks_append]

/-- A text is a value when it can be stepped over from its first character to its last. -/
theorem isValue_iff :
    IsValue text ↔ skipBlanks text = text ∧ skipValue text.length text = .ok [] := by
  constructor
  · intro h
    have hb : skipBlanks (text ++ []) = text ++ [] := h.startsValue.skipBlanks_append
    have hs := h.skipped text.length [] (Nat.le_refl _) fun _ => endsNumber_nil
    rw [List.append_nil] at hb hs
    exact ⟨hb, hs⟩
  · rintro ⟨hb, hs⟩
    obtain ⟨gap, value, ht, hg, hv⟩ := (skipsWritten _).value hs
    rw [ht, hg.skipBlanks_isValue hv, List.append_nil] at hb
    rw [ht, List.append_nil, ← hb]
    exact hv

instance : Decidable (IsValue text) := decidable_of_iff _ isValue_iff.symm

-- Left to instance search, this may be decided by going through all the characters there are.
instance (gap : List Char) : Decidable (Blank gap) := List.decidableBAll (isBlank · = true) gap

instance (s : Spaced (List Char)) : Decidable s.IsBlank :=
  decidable_of_iff (Blank s.front ∧ Blank s.back) ⟨fun h => ⟨h.1, h.2⟩, fun h => ⟨h.front, h.back⟩⟩

instance (m : Member) : Decidable m.IsWellFormed :=
  decidable_of_iff
    (m.key.IsBlank ∧ IsLetters m.key.value ∧ m.value.IsBlank ∧ IsValue m.value.value)
    ⟨fun ⟨hk, hl, hb, hv⟩ => ⟨hk, hl, hb, hv⟩, fun ⟨hk, hl, hb, hv⟩ => ⟨hk, hl, hb, hv⟩⟩

instance (o : Object) : Decidable o.IsWellFormed :=
  decidable_of_iff ((∀ m ∈ o.members, m.IsWellFormed) ∧ Blank o.gap)
    ⟨fun ⟨hm, hg⟩ => ⟨hm, hg⟩, fun ⟨hm, hg⟩ => ⟨hm, hg⟩⟩

end ApiPresence.Json
