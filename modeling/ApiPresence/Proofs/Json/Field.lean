import ApiPresence.Proofs.Json.Reader

namespace ApiPresence.Json

/-- The key of a member stands for a text; one with half of a pair of codes stands for none. -/
def Member.Names (m : Member) (name : String) : Prop := Denotes m.key.value name.toList

def Field.ReadsValue (f : Field σ) : Prop := ∀ s, Json.ReadsValue (f.read s)

/-- What the members of an object make of a draft, each known name at most once. -/
inductive Settles (fields : List (Field σ)) : σ → List Member → σ → Prop
  | nil : Settles fields s [] s
  | unknown (hn : m.Names name) (hf : fields.find? (·.name = name) = none)
    (h : Settles fields s ms s') : Settles fields s (m :: ms) s'
  | known (hn : m.Names name) (hf : fields.find? (·.name = name) = some f)
    (hs : f.isSet s = false) (hr : f.read s m.value.value = .ok (s₁, []))
    (h : Settles fields s₁ ms s') : Settles fields s (m :: ms) s'

variable {text rest more gap back front : List Char} {σ : Type} {fields : List (Field σ)}
  {f : Field σ} {s s₁ s' : σ} {m : Member} {ms : List Member} {name : String}

theorem Member.Names.readString (h : m.Names name) (rest : List Char) :
    Json.readString (m.key.value ++ '"' :: rest) = .ok (name, rest) :=
  readString_eq_ok_iff.mpr ⟨m.key.value, rfl, h⟩

theorem Member.names_iff :
    m.Names name ↔ Json.readString (m.key.value ++ ['"']) = .ok (name, []) := by
  constructor
  · exact fun h => h.readString []
  · intro h
    obtain ⟨letters, he, hl⟩ := readString_eq_ok_iff.mp h
    have hk : m.key.value = letters := List.append_cancel_right he
    rwa [Names, hk]

instance : Decidable (m.Names name) := decidable_of_iff _ Member.names_iff.symm

theorem Member.Names.unique {other : String} (h : m.Names name) (ho : m.Names other) :
    name = other := by
  have hr := h.readString []
  rw [ho.readString] at hr
  cases hr
  rfl

theorem settles_nil_iff : Settles fields s [] s' ↔ s' = s := by
  constructor
  · intro h
    cases h
    rfl
  · rintro rfl
    exact .nil

theorem settles_unknown_iff (hn : m.Names name) (hf : fields.find? (·.name = name) = none) :
    Settles fields s (m :: ms) s' ↔ Settles fields s ms s' := by
  constructor
  · intro h
    cases h with
    | unknown _ _ h => exact h
    | known hname hfound =>
      rw [hname.unique hn, hf] at hfound
      cases hfound
  · exact .unknown hn hf

theorem settles_known_iff (hn : m.Names name) (hf : fields.find? (·.name = name) = some f) :
    Settles fields s (m :: ms) s' ↔ f.isSet s = false ∧
      ∃ s₁, f.read s m.value.value = .ok (s₁, []) ∧ Settles fields s₁ ms s' := by
  constructor
  · intro h
    cases h with
    | unknown hname hfound =>
      rw [hname.unique hn, hf] at hfound
      cases hfound
    | known hname hfound hs hr h =>
      rw [hname.unique hn, hf] at hfound
      cases hfound
      exact ⟨hs, _, hr, h⟩
  · rintro ⟨hs, s₁, hr, h⟩
    exact .known hn hf hs hr h

/-- Every member that is read has a name. -/
theorem Settles.named (h : Settles fields s ms s') : ∀ m ∈ ms, ∃ name, m.Names name := by
  induction h with
  | nil => exact List.forall_mem_nil _
  | unknown hn _ _ ih => exact List.forall_mem_cons.mpr ⟨⟨_, hn⟩, ih⟩
  | known hn _ _ _ _ ih => exact List.forall_mem_cons.mpr ⟨⟨_, hn⟩, ih⟩

/-- A member behind the quote in front of its key, and what follows it. -/
def Member.unquoted (m : Member) (rest : List Char) : List Char :=
  m.key.value ++ '"' :: (m.key.back ++
    ':' :: (m.value.front ++ (m.value.value ++ (m.value.back ++ rest))))

/-- What is read of a member behind the quote in front of its key, and behind the member. -/
def readMember (fields : List (Field σ)) (fuel : Nat) (s : σ) (text : List Char) :
    Except Fault (σ × List Char) := do
  let (name, rest) ← readString text
  match fields.find? (·.name = name) with
  | none =>
    let rest ← readColon rest
    let rest ← skipValue (2 * rest.length + 1) rest
    readMembers fields fuel false s rest
  | some field =>
    if field.isSet s then
      .error (.before (unwanted (.duplicateField name)) (givenUp rest))
    else
      let rest ← readColon rest
      let (s, rest) ← field.read s rest
      readMembers fields fuel false s rest

theorem readMembers_close (hg : Blank gap) :
    readMembers fields (fuel + 1) first s (gap ++ '}' :: rest) = .ok (s, rest) := by
  rw [readMembers, nextKey_close hg, hg.pastClosing_append (by decide)]
  rfl

theorem readMembers_key (h : nextKey first text = .ok (some rest)) :
    readMembers fields (fuel + 1) first s text = readMember fields fuel s rest := by
  rw [readMembers, h]
  rfl

theorem readMembers_first (hf : Blank m.key.front) :
    readMembers fields (fuel + 1) true s (m.text ++ rest) =
      readMember fields fuel s (m.unquoted rest) := by
  apply readMembers_key
  rw [m.text_append]
  exact nextKey_first hf

theorem readMembers_comma (hb : Blank back) (hf : Blank m.key.front) :
    readMembers fields (fuel + 1) false s (back ++ ',' :: (m.text ++ rest)) =
      readMember fields fuel s (m.unquoted rest) := by
  apply readMembers_key
  rw [m.text_append, nextKey, hb.skipBlanks_append]
  exact nextKey_comma hf

theorem readMember_unknown (hm : m.IsWellFormed) (hn : m.Names name)
    (hf : fields.find? (·.name = name) = none) (hr : EndsNumber (m.value.back ++ rest)) :
    readMember fields fuel s (m.unquoted rest) =
      readMembers fields fuel false s (m.value.back ++ rest) := by
  have hv (fuel : Nat) (hl : m.value.value.length ≤ fuel) :
      skipValue (fuel + 1) (m.value.front ++ (m.value.value ++ (m.value.back ++ rest))) =
        .ok (m.value.back ++ rest) := by
    rw [hm.around.front.skipValue_append]
    exact hm.value.skipped _ _ (Nat.le_succ_of_le hl) fun _ => hr
  simp only [readMember, Member.unquoted, hn.readString, ok_bind, hf, readColon_append hm.key.back]
  rw [hv _ (by simp only [List.length_append]; omega), ok_bind]

theorem readMember_known (hm : m.IsWellFormed) (hn : m.Names name)
    (hf : fields.find? (·.name = name) = some f) (hr : f.ReadsValue) (hs : f.isSet s = false) :
    readMember fields fuel s (m.unquoted rest) =
      f.read s (m.value.value ++ (m.value.back ++ rest)) >>= fun (s, rest) =>
        readMembers fields fuel false s rest := by
  simp only [readMember, Member.unquoted, hn.readString, ok_bind, hf, readColon_append hm.key.back,
    hs, (hr s).skips hm.around.front]
  rfl

/-- A known name stands in an object once. -/
theorem readMember_again (hn : m.Names name) (hf : fields.find? (·.name = name) = some f)
    (hs : f.isSet s = true) : readMember fields fuel s (m.unquoted rest) ≠ .ok r := by
  simp only [readMember, Member.unquoted, hn.readString, ok_bind, hf, hs]
  exact nofun

theorem exists_names_of_readMember (hm : m.IsWellFormed)
    (h : readMember fields fuel s (m.unquoted rest) = .ok r) : ∃ name, m.Names name := by
  obtain ⟨⟨name, behindKey⟩, hr, -⟩ := bind_eq_ok_iff.mp h
  obtain ⟨letters, he, hl⟩ := readString_eq_ok_iff.mp hr
  obtain ⟨rfl, -⟩ := hl.isLetters.unique hm.letters he.symm
  exact ⟨name, hl⟩

/-- Given what the members behind a member make of a draft, what it makes of one with them. -/
theorem readMember_eq_ok_iff (hfields : ∀ f ∈ fields, f.ReadsValue) (hm : m.IsWellFormed)
    (he : EndsNumber (m.value.back ++ behindMember))
    (ih : ∀ s₁, readMembers fields fuel false s₁ (m.value.back ++ behindMember) = .ok (s', rest) ↔
      rest = more ∧ Settles fields s₁ ms s') :
    readMember fields fuel s (m.unquoted behindMember) = .ok (s', rest) ↔
      rest = more ∧ Settles fields s (m :: ms) s' := by
  by_cases hn : ∃ name, m.Names name
  · obtain ⟨name, hn⟩ := hn
    cases hf : fields.find? (·.name = name) with
    | none => rw [readMember_unknown hm hn hf he, settles_unknown_iff hn hf, ih]
    | some f =>
      have hr := hfields f (List.mem_of_find?_eq_some hf)
      rw [settles_known_iff hn hf]
      cases hs : f.isSet s with
      | true => exact iff_of_false (readMember_again hn hf hs) fun h => nomatch h.2.1
      | false =>
        have hv (s₁ : σ) (behindValue : List Char) :
            f.read s (m.value.value ++ (m.value.back ++ behindMember)) = .ok (s₁, behindValue) ↔
              behindValue = m.value.back ++ behindMember ∧
                f.read s m.value.value = .ok (s₁, []) :=
          (hr s).eq_ok_iff hm.value fun _ => he
        rw [readMember_known hm hn hf hr hs, bind_eq_ok_iff]
        constructor
        · rintro ⟨⟨s₁, behindValue⟩, hread, h⟩
          obtain ⟨rfl, hs₁⟩ := (hv s₁ behindValue).mp hread
          obtain ⟨hrest, h⟩ := (ih s₁).mp h
          exact ⟨hrest, rfl, s₁, hs₁, h⟩
        · rintro ⟨hrest, -, s₁, hs₁, h⟩
          exact ⟨(s₁, _), (hv s₁ _).mpr ⟨rfl, hs₁⟩, (ih s₁).mpr ⟨hrest, h⟩⟩
  · apply iff_of_false
    · exact fun h => hn (exists_names_of_readMember hm h)
    · exact fun h => hn (h.2.named m List.mem_cons_self)

theorem readMembers_eq_ok_iff (hfields : ∀ f ∈ fields, f.ReadsValue) (hb : Blank back)
    (hg : Blank gap) (hm : ∀ m ∈ ms, m.IsWellFormed) (hfuel : ms.length < fuel) :
    readMembers fields fuel false s (back ++ (behind (ms.map (·.text)) ++ (gap ++ '}' :: more))) =
      .ok (s', rest) ↔ rest = more ∧ Settles fields s ms s' := by
  obtain ⟨fuel, rfl⟩ := Nat.exists_eq_add_one_of_ne_zero (Nat.ne_zero_of_lt hfuel)
  induction ms generalizing back fuel s with
  | nil =>
    rw [List.map_nil, behind_nil, List.nil_append, ← List.append_assoc,
      readMembers_close (hb.append hg), settles_nil_iff, ok_eq_ok_iff, Prod.mk.injEq, and_comm]
  | cons m ms ih =>
    obtain ⟨hm, hms⟩ := List.forall_mem_cons.mp hm
    obtain ⟨fuel, rfl⟩ := Nat.exists_eq_add_one_of_ne_zero (n := fuel) (by
      rintro rfl
      exact Nat.not_lt_zero _ (Nat.lt_of_succ_lt_succ hfuel))
    rw [List.map_cons, behind_cons_append, readMembers_comma hb hm.key.front]
    apply readMember_eq_ok_iff hfields hm (endsNumber_behind hm.around.back hg _ _ (.inr rfl))
    intro s₁
    exact ih hm.around.back hms fuel (Nat.lt_of_succ_lt_succ hfuel)

/-- Of an object a reader of a structure takes what its members settle. -/
theorem readStructure_object_iff (hfields : ∀ f ∈ fields, f.ReadsValue) {o : Object}
    (ho : o.IsWellFormed) :
    readStructure expected fields s (o.text ++ more) = .ok (s', rest) ↔
      rest = more ∧ Settles fields s o.members s' := by
  obtain ⟨members, gap⟩ := o
  obtain ⟨hm, hg⟩ := ho
  cases members with
  | nil =>
    rw [Object.text_nil_append, readStructure, skipBlanks_cons (by decide)]
    show readMembers _ _ _ _ _ = _ ↔ _
    rw [readMembers_close hg, settles_nil_iff, ok_eq_ok_iff, Prod.mk.injEq, and_comm]
  | cons m ms =>
    obtain ⟨hm, hms⟩ := List.forall_mem_cons.mp hm
    have hl := length_le_behind (ms.map (·.text))
    rw [Object.text_cons_append, readStructure, skipBlanks_cons (by decide)]
    show readMembers _ _ _ _ _ = _ ↔ _
    rw [readMembers_first hm.key.front]
    apply readMember_eq_ok_iff hfields hm (endsNumber_behind hm.around.back hg _ _ (.inr rfl))
    intro s₁
    apply readMembers_eq_ok_iff hfields hm.around.back hg hms
    rw [List.length_map] at hl
    simp only [List.length_append, List.length_cons]
    omega

theorem exists_gap_of_nextKey_none (h : nextKey first text = .ok none) :
    ∃ gap, text = gap ++ '}' :: pastClosing text ∧ Blank gap := by
  unfold nextKey at h
  split at h
  · cases h
  · next hb =>
    rw [pastClosing, hb]
    exact exists_blank hb
  · split at h
    · split at h <;> cases h
    · split at h
      · split at h <;> cases h
      · cases h

theorem exists_front_of_nextKey_true (h : nextKey true text = .ok (some rest)) :
    ∃ front, text = front ++ '"' :: rest ∧ Blank front := by
  unfold nextKey at h
  split at h
  · cases h
  · cases h
  · next hb =>
    rw [if_pos rfl] at h
    split at h
    · next hc =>
      cases h
      exact exists_blank (hc ▸ hb)
    · cases h

theorem exists_front_of_nextKey_false (h : nextKey false text = .ok (some rest)) :
    ∃ back front, text = back ++ ',' :: (front ++ '"' :: rest) ∧ Blank back ∧ Blank front := by
  unfold nextKey at h
  split at h
  · cases h
  · cases h
  · next hb =>
    rw [if_neg Bool.false_ne_true] at h
    split at h
    · next hc =>
      obtain ⟨back, rfl, hback⟩ := exists_blank (hc ▸ hb)
      split at h
      · cases h
      · next hq =>
        cases h
        obtain ⟨front, rfl, hf⟩ := exists_blank hq
        exact ⟨back, front, rfl, hback, hf⟩
      · cases h
      · cases h
    · cases h

/-- Behind the quote in front of its key stand a member and those that follow it. -/
theorem exists_members_of_readMember (hfields : ∀ f ∈ fields, f.ReadsValue) (hf : Blank front)
    (ih : ∀ {s text}, readMembers fields fuel false s text = .ok (s', rest) →
      ∃ (back : List Char) (ms : List Member),
        text = back ++ (behind (ms.map (·.text)) ++ '}' :: rest) ∧ Blank back ∧
          ∀ m ∈ ms, m.IsWellFormed)
    (h : readMember fields fuel s text = .ok (s', rest)) :
    ∃ (m : Member) (ms : List Member),
      front ++ '"' :: text = m.text ++ (behind (ms.map (·.text)) ++ '}' :: rest) ∧
        ∀ x ∈ m :: ms, x.IsWellFormed := by
  unfold readMember at h
  obtain ⟨⟨name, behindKey⟩, hname, hmember⟩ := bind_eq_ok_iff.mp h
  obtain ⟨letters, rfl, hl⟩ := readString_eq_ok_iff.mp hname
  suffices hvalue : ∃ before gap value behindValue s₁,
      behindKey = before ++ ':' :: (gap ++ (value ++ behindValue)) ∧ Blank before ∧ Blank gap ∧
        IsValue value ∧ readMembers fields fuel false s₁ behindValue = .ok (s', rest) by
    obtain ⟨before, gap, value, _, s₁, rfl, hbefore, hg, hv, h⟩ := hvalue
    obtain ⟨back, ms, rfl, hb, hms⟩ := ih h
    have hm : Member.IsWellFormed ⟨⟨front, letters, before⟩, ⟨gap, value, back⟩⟩ :=
      ⟨⟨hf, hbefore⟩, hl.isLetters, ⟨hg, hb⟩, hv⟩
    refine ⟨_, ms, ?_, List.forall_mem_cons.mpr ⟨hm, hms⟩⟩
    rw [Member.text_append]
  dsimp only at hmember
  split at hmember
  · simp only [bind_eq_ok_iff] at hmember
    obtain ⟨afterColon, hcolon, behindValue, hskip, hmore⟩ := hmember
    obtain ⟨before, rfl, hbefore⟩ := exists_blank_of_readColon hcolon
    obtain ⟨gap, value, rfl, hg, hv⟩ := (skipsWritten _).value hskip
    exact ⟨before, gap, value, behindValue, s, rfl, hbefore, hg, hv, hmore⟩
  · next f hfound =>
    split at hmember
    · cases hmember
    · simp only [bind_eq_ok_iff] at hmember
      obtain ⟨afterColon, hcolon, ⟨s₁, behindValue⟩, hread, hmore⟩ := hmember
      obtain ⟨before, rfl, hbefore⟩ := exists_blank_of_readColon hcolon
      have hr := hfields f (List.mem_of_find?_eq_some hfound)
      obtain ⟨gap, value, rfl, hg, hv, -, -⟩ := (hr s).value hread
      exact ⟨before, gap, value, behindValue, s₁, rfl, hbefore, hg, hv, hmore⟩

theorem readMembers_cases (h : readMembers fields (fuel + 1) first s text = .ok (s', rest)) :
    (∃ gap, text = gap ++ '}' :: rest ∧ Blank gap) ∨ ∃ behindQuote,
      nextKey first text = .ok (some behindQuote) ∧
        readMember fields fuel s behindQuote = .ok (s', rest) := by
  cases hk : nextKey first text with
  | error e =>
    rw [readMembers, hk] at h
    cases h
  | ok next =>
    cases next with
    | none =>
      rw [readMembers, hk] at h
      cases h
      exact .inl (exists_gap_of_nextKey_none hk)
    | some behindQuote => exact .inr ⟨behindQuote, rfl, readMembers_key hk ▸ h⟩

theorem exists_members_of_readMembers (hfields : ∀ f ∈ fields, f.ReadsValue)
    (h : readMembers fields fuel false s text = .ok (s', rest)) :
    ∃ (back : List Char) (ms : List Member),
      text = back ++ (behind (ms.map (·.text)) ++ '}' :: rest) ∧ Blank back ∧
        ∀ m ∈ ms, m.IsWellFormed := by
  induction fuel generalizing s text with
  | zero => cases h
  | succ fuel ih =>
    rcases readMembers_cases h with ⟨gap, rfl, hg⟩ | ⟨behindQuote, hk, hread⟩
    · exact ⟨gap, [], rfl, hg, List.forall_mem_nil _⟩
    · obtain ⟨back, front, rfl, hb, hf⟩ := exists_front_of_nextKey_false hk
      obtain ⟨m, ms, he, hm⟩ := exists_members_of_readMember hfields hf ih hread
      refine ⟨back, m :: ms, ?_, hb, hm⟩
      rw [he, List.map_cons, behind_cons_append]

/-- What a reader of a structure takes behind a brace is an object. -/
theorem exists_object (hfields : ∀ f ∈ fields, f.ReadsValue)
    (h : readMembers fields (fuel + 1) true s text = .ok (s', rest)) :
    ∃ o : Object, '{' :: text = o.text ++ rest ∧ o.IsWellFormed := by
  rcases readMembers_cases h with ⟨gap, rfl, hg⟩ | ⟨behindQuote, hk, hread⟩
  · exact ⟨⟨[], gap⟩, (Object.text_nil_append _ _).symm, List.forall_mem_nil _, hg⟩
  · obtain ⟨front, rfl, hf⟩ := exists_front_of_nextKey_true hk
    obtain ⟨m, ms, he, hm⟩ :=
      exists_members_of_readMember hfields hf (exists_members_of_readMembers hfields) hread
    refine ⟨⟨m :: ms, []⟩, ?_, hm, List.forall_mem_nil _⟩
    rw [he]
    exact (Object.text_cons_append m ms [] rest).symm

end ApiPresence.Json
