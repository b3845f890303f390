import ApiPresence.Proofs.Json.Field

namespace ApiPresence.Json

variable {text rest more gap back front : List Char} {σ : Type} {fields : List (Field σ)}
  {f : Field σ} {s s₁ s' : σ}

theorem readArrayEnd_eq_ok_iff : readArrayEnd text = .ok rest ↔
    ∃ gap, text = gap ++ ']' :: rest ∧ Blank gap := by
  constructor
  · intro h
    unfold readArrayEnd at h
    split at h
    · cases h
    · next hb =>
      cases h
      exact exists_blank hb
    · split at h <;> cases h
    · cases h
  · rintro ⟨gap, rfl, hg⟩
    rw [readArrayEnd, hg.skipBlanks_append, skipBlanks_cons (by decide)]
    rfl

theorem readElements_close (hg : Blank gap) :
    readElements fields first s (gap ++ ']' :: rest) = .ok (s, rest) := by
  cases fields with
  | nil =>
    rw [readElements, readArrayEnd_eq_ok_iff.mpr ⟨gap, rfl, hg⟩]
    rfl
  | cons f fields =>
    rw [readElements, nextItem_close hg, hg.pastClosing_append (by decide)]
    rfl

theorem readElements_cons (hn : nextItem first text = .ok (some front))
    (hr : f.read s front = .ok (s₁, rest)) :
    readElements (f :: fields) first s text = readElements fields false s₁ rest := by
  rw [readElements, hn, ok_bind]
  dsimp only
  rw [hr, ok_bind]

theorem exists_gap_of_nextItem_none (h : nextItem first text = .ok none) :
    ∃ gap, text = gap ++ ']' :: pastClosing text ∧ Blank gap := by
  unfold nextItem at h
  split at h
  · cases h
  · next hb =>
    rw [pastClosing, hb]
    exact exists_blank hb
  · split at h
    · cases h
    · split at h
      · split at h <;> cases h
      · cases h

theorem exists_gap_of_nextItem_true (h : nextItem true text = .ok (some front)) :
    ∃ gap, text = gap ++ front ∧ Blank gap := by
  unfold nextItem at h
  split at h
  · cases h
  · cases h
  · next hb =>
    rw [if_pos rfl] at h
    cases h
    exact exists_blank hb

theorem exists_gap_of_nextItem_false (h : nextItem false text = .ok (some front)) :
    ∃ back gap, text = back ++ ',' :: (gap ++ front) ∧ Blank back ∧ Blank gap := by
  unfold nextItem at h
  split at h
  · cases h
  · cases h
  · next hb =>
    rw [if_neg Bool.false_ne_true] at h
    split at h
    · next hc =>
      obtain ⟨back, rfl, hback⟩ := exists_blank (hc ▸ hb)
      split at h
      · cases h
      · cases h
      · cases h
        obtain ⟨gap, hg, hblank⟩ := exists_blank rfl
        exact ⟨back, gap, by rw [← hg], hback, hblank⟩
    · cases h

theorem nextItem_behind (hb : Blank back) (hg : Blank gap) (hs : StartsValue text) :
    nextItem false (back ++ ',' :: (gap ++ (text ++ rest))) = .ok (some (text ++ rest)) := by
  rw [nextItem, hb.skipBlanks_append]
  exact nextItem_comma hg hs

theorem readElements_cases (h : readElements fields first s text = .ok (s', rest)) :
    (∃ gap, text = gap ++ ']' :: rest ∧ Blank gap ∧ s' = s) ∨
      ∃ f others front s₁ behindItem, fields = f :: others ∧
        nextItem first text = .ok (some front) ∧ f.read s front = .ok (s₁, behindItem) ∧
          readElements others false s₁ behindItem = .ok (s', rest) := by
  cases fields with
  | nil =>
    obtain ⟨behindEnd, he, h⟩ := bind_eq_ok_iff.mp h
    cases h
    obtain ⟨gap, rfl, hg⟩ := readArrayEnd_eq_ok_iff.mp he
    exact .inl ⟨gap, rfl, hg, rfl⟩
  | cons f others =>
    obtain ⟨next, hn, hread⟩ := bind_eq_ok_iff.mp h
    cases next with
    | none =>
      cases hread
      obtain ⟨gap, ht, hg⟩ := exists_gap_of_nextItem_none hn
      exact .inl ⟨gap, ht, hg, rfl⟩
    | some front =>
      obtain ⟨⟨s₁, behindItem⟩, hitem, hmore⟩ := bind_eq_ok_iff.mp hread
      exact .inr ⟨f, others, front, s₁, behindItem, rfl, hn, hitem, hmore⟩

/-- Of an array a reader takes the items behind an item up to its end, whatever follows. -/
theorem exists_items (hfields : ∀ f ∈ fields, f.ReadsValue)
    (h : readElements fields false s text = .ok (s', rest)) :
    ∃ (back : List Char) (items : List (Spaced (List Char))),
      text = back ++ (behind (items.map (·.written)) ++ ']' :: rest) ∧ Blank back ∧
        (∀ item ∈ items, item.IsBlank ∧ IsValue item.value) ∧ ∀ more,
          readElements fields false s (back ++ (behind (items.map (·.written)) ++ ']' :: more)) =
            .ok (s', more) := by
  induction fields generalizing s text with
  | nil =>
    rcases readElements_cases h with ⟨gap, rfl, hg, rfl⟩ | ⟨_, _, _, _, _, hc, _⟩
    · exact ⟨gap, [], rfl, hg, List.forall_mem_nil _, fun more => readElements_close hg⟩
    · cases hc
  | cons f fields ih =>
    obtain ⟨hr, hfields⟩ := List.forall_mem_cons.mp hfields
    rcases readElements_cases h with
      ⟨gap, rfl, hg, rfl⟩ | ⟨_, _, front, s₁, _, hc, hn, hread, hmore⟩
    · exact ⟨gap, [], rfl, hg, List.forall_mem_nil _, fun more => readElements_close hg⟩
    · cases hc
      obtain ⟨inner, items, rfl, hi, hitems, hall⟩ := ih hfields hmore
      obtain ⟨gap, value, rfl, hg, hv, -, hvalue⟩ := (hr s).value hread
      obtain ⟨back, beforeGap, rfl, hb, hbefore⟩ := exists_gap_of_nextItem_false hn
      refine ⟨back, ⟨beforeGap ++ gap, value, inner⟩ :: items, ?_, hb,
        List.forall_mem_cons.mpr ⟨⟨⟨hbefore.append hg, hi⟩, hv⟩, hitems⟩, fun more => ?_⟩
      · rw [List.map_cons, behind_cons_append, Spaced.written_append, List.append_assoc beforeGap]
      · rw [List.map_cons, behind_cons_append, Spaced.written_append,
          readElements_cons (nextItem_behind hb (hbefore.append hg) hv.startsValue) (hvalue _)]
        exact hall more

/-- What a reader of a structure takes behind a bracket is an array. -/
theorem exists_array (hfields : ∀ f ∈ fields, f.ReadsValue)
    (h : readElements fields true s text = .ok (s', rest)) :
    ∃ value, '[' :: text = value ++ rest ∧ IsValue value ∧ ¬ IsNumber value ∧ ∀ more,
      readStructure expected fields s (value ++ more) = .ok (s', more) := by
  have hs (text : List Char) :
      readStructure expected fields s ('[' :: text) = readElements fields true s text := by
    rw [readStructure, skipBlanks_cons (by decide)]
    rfl
  rcases readElements_cases h with
    ⟨gap, rfl, hg, rfl⟩ | ⟨f, others, front, s₁, _, rfl, hn, hread, hmore⟩
  · have ht (more : List Char) : enclosed '[' ']' [] gap ++ more = '[' :: (gap ++ ']' :: more) := by
      simp [enclosed]
    refine ⟨enclosed '[' ']' [] gap, (ht rest).symm, isValue_emptyArray hg,
      not_isNumber_cons (by decide) rfl, fun more => ?_⟩
    rw [ht, hs]
    exact readElements_close hg
  · obtain ⟨hr, hothers⟩ := List.forall_mem_cons.mp hfields
    obtain ⟨inner, items, rfl, hi, hitems, hall⟩ := exists_items hothers hmore
    obtain ⟨gap, value, rfl, hg, hv, -, hvalue⟩ := (hr s).value hread
    obtain ⟨before, rfl, hbefore⟩ := exists_gap_of_nextItem_true hn
    have hwritten : ∀ item ∈ (⟨before ++ gap, value, inner⟩ : Spaced (List Char)) :: items,
        item.IsBlank ∧ IsValue item.value :=
      List.forall_mem_cons.mpr ⟨⟨⟨hbefore.append hg, hi⟩, hv⟩, hitems⟩
    refine ⟨_, ?_, isValue_array (List.forall_mem_nil _) hwritten,
      not_isNumber_cons (by decide) rfl, fun more => ?_⟩
    · rw [List.map_cons, enclosed_cons_append, Spaced.written_append, List.append_assoc before]
      rfl
    · rw [List.map_cons, enclosed_cons_append, Spaced.written_append, hs,
        readElements_cons (nextItem_first (hbefore.append hg) hv.startsValue) (hvalue _)]
      exact hall more

theorem exists_object_of_brace (hfields : ∀ f ∈ fields, f.ReadsValue)
    (h : readStructure expected fields s text = .ok (s', rest))
    (hb : (skipBlanks text).head? = some '{') :
    ∃ gap o, text = gap ++ (Object.text o ++ rest) ∧ Blank gap ∧ o.IsWellFormed := by
  obtain ⟨inside, hi⟩ := List.head?_eq_some_iff.mp hb
  obtain ⟨gap, ht, hg⟩ := exists_blank hi
  rw [readStructure, hi] at h
  obtain ⟨o, ho, hw⟩ := exists_object hfields h
  exact ⟨gap, o, ho ▸ ht, hg, hw⟩

theorem readsValue_structure (hfields : ∀ f ∈ fields, f.ReadsValue) :
    ReadsValue (readStructure expected fields s) := by
  apply ReadsValue.of_skips
  · intro gap text hg
    rw [readStructure, readStructure, hg.skipBlanks_append]
  · intro text s' rest hs h
    have hself := h
    unfold readStructure at h
    split at h
    · cases h
    · next hb =>
      rw [← hs, hb]
      exact exists_array hfields h
    · next hb =>
      obtain ⟨o, ho, hw⟩ := exists_object hfields h
      rw [hb] at hs
      rw [← hs, ho] at hself ⊢
      refine ⟨o.text, rfl, hw.isValue, not_isNumber_cons (by decide) rfl, fun more => ?_⟩
      exact (readStructure_object_iff hfields hw).mpr
        ⟨rfl, ((readStructure_object_iff hfields hw).mp hself).2⟩
    · exact absurd h wrongType_ne_ok

end ApiPresence.Json
