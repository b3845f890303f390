import ApiPresence.Proofs.Json.Letters
import ApiPresence.Proofs.Json.Magnitude
import ApiPresence.Proofs.Json.RoundTrip

namespace ApiPresence

open Json (Blank)

/-- Something and the blanks around it. -/
structure Spaced (α : Type) where
  front : List Char
  value : α
  back : List Char

/-- A text with the blanks around it. -/
def Spaced.written (s : Spaced (List Char)) : List Char := s.front ++ (s.value ++ s.back)

theorem Spaced.written_append (s : Spaced (List Char)) (rest : List Char) :
    s.written ++ rest = s.front ++ (s.value ++ (s.back ++ rest)) := by
  rw [written, List.append_assoc, List.append_assoc]

theorem Spaced.length_written (s : Spaced (List Char)) :
    s.written.length = s.front.length + (s.value.length + s.back.length) := by
  rw [written, List.length_append, List.length_append]

structure Spaced.IsBlank (s : Spaced α) : Prop where
  front : Blank s.front
  back : Blank s.back

namespace Json

open Text (isDigit)

/-- Parts with commas between them, and brackets around them. -/
def enclosed (opening closing : Char) (parts : List (List Char)) (gap : List Char) : List Char :=
  opening :: ([','].intercalate parts ++ (gap ++ [closing]))

/-- A member of an object as it is written; its key is what stands between the quotes. -/
structure Member where
  key : Spaced (List Char)
  value : Spaced (List Char)

def Member.text (m : Member) : List Char :=
  m.key.front ++ '"' :: (m.key.value ++ '"' :: (m.key.back ++ ':' :: m.value.written))

/-- An object as it is written, with a gap behind its members or in place of them. -/
structure Object where
  members : List Member
  gap : List Char

def Object.text (o : Object) : List Char := enclosed '{' '}' (o.members.map (·.text)) o.gap

/-- A complete text of JSON, with blanks between its parts. -/
inductive IsValue : List Char → Prop
  | null : IsValue ['n', 'u', 'l', 'l']
  | true : IsValue ['t', 'r', 'u', 'e']
  | false : IsValue ['f', 'a', 'l', 's', 'e']
  | number (h : IsNumber text) : IsValue text
  | string (h : IsString text) : IsValue text
  | array {items : List (Spaced (List Char))} (hg : Blank gap) (hb : ∀ item ∈ items, item.IsBlank)
    (h : ∀ item ∈ items, IsValue item.value) :
    IsValue (enclosed '[' ']' (items.map (·.written)) gap)
  | object {o : Object} (hg : Blank o.gap)
    (hk : ∀ m ∈ o.members, m.key.IsBlank ∧ IsLetters m.key.value)
    (hb : ∀ m ∈ o.members, m.value.IsBlank) (h : ∀ m ∈ o.members, IsValue m.value.value) :
    IsValue o.text

theorem isValue_array {items : List (Spaced (List Char))} {gap : List Char} (hg : Blank gap)
    (h : ∀ item ∈ items, item.IsBlank ∧ IsValue item.value) :
    IsValue (enclosed '[' ']' (items.map (·.written)) gap) :=
  .array hg (fun item hi => (h item hi).1) fun item hi => (h item hi).2

theorem isValue_emptyArray {gap : List Char} (hg : Blank gap) :
    IsValue (enclosed '[' ']' [] gap) := by
  have h : ∀ item ∈ ([] : List (Spaced (List Char))), item.IsBlank ∧ IsValue item.value := nofun
  exact isValue_array hg h

structure Member.IsWellFormed (m : Member) : Prop where
  key : m.key.IsBlank
  letters : IsLetters m.key.value
  around : m.value.IsBlank
  value : IsValue m.value.value

structure Object.IsWellFormed (o : Object) : Prop where
  members : ∀ m ∈ o.members, m.IsWellFormed
  gap : Blank o.gap

theorem Object.IsWellFormed.isValue {o : Object} (h : o.IsWellFormed) : IsValue o.text :=
  .object h.gap (fun m hm => ⟨(h.members m hm).key, (h.members m hm).letters⟩)
    (fun m hm => (h.members m hm).around) fun m hm => (h.members m hm).value

variable {text rest more gap back : List Char}

/-- Parts behind another one, each behind a comma. -/
def behind (parts : List (List Char)) : List Char := parts.flatMap (',' :: ·)

theorem behind_nil : behind [] = [] := rfl

theorem behind_cons (part : List Char) (parts : List (List Char)) :
    behind (part :: parts) = ',' :: (part ++ behind parts) := rfl

theorem behind_cons_append (part : List Char) (parts : List (List Char)) (rest : List Char) :
    behind (part :: parts) ++ rest = ',' :: (part ++ (behind parts ++ rest)) := by
  rw [behind_cons, List.cons_append, List.append_assoc]

theorem intercalate_cons (part : List Char) (parts : List (List Char)) :
    [','].intercalate (part :: parts) = part ++ behind parts := by
  induction parts generalizing part with
  | nil => simp [behind]
  | cons next parts ih => rw [List.intercalate_cons_cons, ih, behind_cons, List.append_assoc]; rfl

theorem enclosed_cons (opening closing : Char) (part : List Char) (parts : List (List Char))
    (gap : List Char) : enclosed opening closing (part :: parts) gap =
      opening :: (part ++ (behind parts ++ (gap ++ [closing]))) := by
  rw [enclosed, intercalate_cons, List.append_assoc]

theorem enclosed_cons_append (opening closing : Char) (part : List Char)
    (parts : List (List Char)) (gap rest : List Char) :
    enclosed opening closing (part :: parts) gap ++ rest =
      opening :: (part ++ (behind parts ++ (gap ++ closing :: rest))) := by
  rw [enclosed_cons]
  simp only [List.cons_append, List.append_assoc, List.nil_append]

theorem Object.text_nil_append (gap rest : List Char) :
    Object.text ⟨[], gap⟩ ++ rest = '{' :: (gap ++ '}' :: rest) := by
  simp [Object.text, enclosed]

theorem Object.text_cons_append (m : Member) (members : List Member) (gap rest : List Char) :
    Object.text ⟨m :: members, gap⟩ ++ rest =
      '{' :: (m.text ++ (behind (members.map (·.text)) ++ (gap ++ '}' :: rest))) :=
  enclosed_cons_append '{' '}' m.text _ gap rest

theorem length_le_behind (parts : List (List Char)) : parts.length ≤ (behind parts).length := by
  induction parts with
  | nil => exact Nat.le_refl _
  | cons part parts ih =>
    rw [behind_cons, List.length_cons, List.length_cons, List.length_append]
    omega

theorem endsNumber_behind (hb : Blank back) (hg : Blank gap) (parts : List (List Char))
    (rest : List Char) (hc : closing = ']' ∨ closing = '}') :
    EndsNumber (back ++ (behind parts ++ (gap ++ closing :: rest))) := by
  apply hb.endsNumber_append
  cases parts with
  | nil =>
    apply hg.endsNumber_append
    rintro c ⟨⟩
    rcases hc with rfl | rfl <;> decide
  | cons part parts =>
    rintro c ⟨⟩
    decide

theorem Blank.append {front : List Char} (hf : Blank front) (hb : Blank back) :
    Blank (front ++ back) := List.forall_mem_append.mpr ⟨hf, hb⟩

theorem Blank.skipValue_append (hg : Blank gap) :
    skipValue (fuel + 1) (gap ++ text) = skipValue (fuel + 1) text := by
  simp only [skipValue, hg.skipBlanks_append]

theorem IsMagnitude.head (h : IsMagnitude text) :
    ∃ c front, text = c :: front ∧ isDigit c = true := by
  obtain ⟨hw, -, -⟩ := h
  have hn : ∀ c ∈ ([] : List Char).head?, isDigit c = false := nofun
  obtain ⟨c, front, rfl, hc, -⟩ := hw.toIsDigits.dropWhile hn
  exact ⟨c, _, rfl, hc⟩

theorem IsValue.startsValue (h : IsValue text) : StartsValue text := by
  cases h with
  | null | true | false | array | object => exact ⟨_, rfl, by decide⟩
  | number h =>
    cases h with
    | negative => exact ⟨'-', rfl, by decide⟩
    | positive h =>
      obtain ⟨c, front, rfl, hc⟩ := h.head
      refine ⟨c, rfl, not_isBlank_of_isDigit hc, ?_⟩
      rintro rfl
      cases hc
  | string h =>
    cases h with
    | quotes => exact ⟨'"', rfl, by decide⟩

section Skipping

/-- A value is stepped over, up to what follows it; a number only where it ends. -/
def Skipped (value : List Char) : Prop :=
  ∀ fuel more, value.length ≤ fuel → (IsNumber value → EndsNumber more) →
    skipValue fuel (value ++ more) = .ok more

theorem IsNumber.skipValue (h : IsNumber text) (hr : EndsNumber rest) :
    Json.skipValue (fuel + 1) (text ++ rest) = .ok rest := by
  cases h with
  | @negative text h =>
    simp (disch := decide) only [List.cons_append, Json.skipValue, skipBlanks_cons, h.skipNumber hr]
  | positive h =>
    have hs := h.skipNumber hr
    obtain ⟨c, front, rfl, hc⟩ := h.head
    rw [List.cons_append] at hs ⊢
    rw [Json.skipValue, skipBlanks_cons (not_isBlank_of_isDigit hc)]
    split
    case h_9 he =>
      cases he
      rw [if_pos hc, hs]
    all_goals next he => cases he <;> cases hc

theorem skipMoreItems_close (hg : Blank gap) :
    skipMoreItems (fuel + 1) (gap ++ ']' :: rest) = .ok rest := by
  rw [skipMoreItems, hg.skipBlanks_append, skipBlanks_cons (by decide)]
  rfl

theorem skipMoreItems_comma (hg : Blank gap) : skipMoreItems (fuel + 1) (gap ++ ',' :: rest) =
    skipValue fuel rest >>= skipMoreItems fuel := by
  rw [skipMoreItems, hg.skipBlanks_append, skipBlanks_cons (by decide)]
  rfl

theorem skipMoreItems_behind {items : List (Spaced (List Char))} (hback : Blank back)
    (hg : Blank gap) (hb : ∀ item ∈ items, item.IsBlank) (hi : ∀ item ∈ items, Skipped item.value)
    (hf : (behind (items.map (·.written))).length < fuel) :
    skipMoreItems fuel (back ++ (behind (items.map (·.written)) ++ (gap ++ ']' :: more))) =
      .ok more := by
  obtain ⟨fuel, rfl⟩ := Nat.exists_eq_add_one_of_ne_zero (Nat.ne_zero_of_lt hf)
  induction items generalizing back fuel with
  | nil =>
    rw [List.map_nil, behind_nil, List.nil_append, ← List.append_assoc]
    exact skipMoreItems_close (hback.append hg)
  | cons item items ih =>
    obtain ⟨hb, hbs⟩ := List.forall_mem_cons.mp hb
    obtain ⟨hi, his⟩ := List.forall_mem_cons.mp hi
    rw [List.map_cons, behind_cons, List.length_cons, List.length_append,
      item.length_written] at hf
    obtain ⟨fuel, rfl⟩ := Nat.exists_eq_add_one_of_ne_zero (n := fuel) (by omega)
    have he := endsNumber_behind hb.back hg (items.map (·.written)) more (.inl rfl)
    have hv := hi (fuel + 1) _ (by omega) fun _ => he
    rw [List.map_cons, behind_cons_append, skipMoreItems_comma hback, item.written_append,
      hb.front.skipValue_append, hv, ok_bind]
    exact ih hb.back hbs his fuel (by omega)

theorem skipValue_array (hg : Blank gap) (hs : StartsValue text) :
    skipValue (fuel + 1) ('[' :: (gap ++ (text ++ rest))) =
      skipValue fuel (text ++ rest) >>= skipMoreItems fuel := by
  simp (disch := decide) only [skipValue, skipBlanks_cons, hg.skipBlanks_append,
    hs.skipBlanks_append]
  obtain ⟨c, hc, -, hn⟩ := hs
  obtain ⟨cs, rfl⟩ := List.head?_eq_some_iff.mp hc
  simp [hn]

theorem skipped_array {items : List (Spaced (List Char))} (hg : Blank gap)
    (hb : ∀ item ∈ items, item.IsBlank) (hs : ∀ item ∈ items, StartsValue item.value)
    (hi : ∀ item ∈ items, Skipped item.value) :
    Skipped (enclosed '[' ']' (items.map (·.written)) gap) := by
  intro fuel more hf _
  obtain ⟨fuel, rfl⟩ := Nat.exists_eq_add_one_of_ne_zero (Nat.ne_zero_of_lt hf)
  cases items with
  | nil =>
    simp (disch := decide) [enclosed, skipValue, skipBlanks_cons, hg.skipBlanks_append]
  | cons item items =>
    obtain ⟨hb, hbs⟩ := List.forall_mem_cons.mp hb
    obtain ⟨hi, his⟩ := List.forall_mem_cons.mp hi
    have hs := hs item List.mem_cons_self
    have hpos := hs.length_pos
    rw [List.map_cons, enclosed_cons] at hf
    simp only [List.length_cons, List.length_append, item.length_written] at hf
    have he := endsNumber_behind hb.back hg (items.map (·.written)) more (.inl rfl)
    have hv := hi fuel _ (by omega) fun _ => he
    rw [List.map_cons, enclosed_cons_append, item.written_append, skipValue_array hb.front hs, hv]
    exact skipMoreItems_behind hb.back hg hbs his (by omega)

theorem readColon_append (hg : Blank gap) (text : List Char) :
    readColon (gap ++ ':' :: text) = .ok text := by
  rw [readColon, hg.skipBlanks_append, skipBlanks_cons (by decide)]
  rfl

/-- What is stepped over behind a member: the end of its object, or the members that follow. -/
def skipMoreMembers (fuel : Nat) (text : List Char) : Except Fault (List Char) :=
  match skipBlanks text with
  | [] => .error (.before .eofInObject [])
  | '}' :: rest => .ok rest
  | ',' :: rest => skipMember fuel rest
  | rest => .error (.at .expectedObjectCommaOrEnd rest)

theorem skipMoreMembers_close (hg : Blank gap) :
    skipMoreMembers fuel (gap ++ '}' :: rest) = .ok rest := by
  rw [skipMoreMembers, hg.skipBlanks_append, skipBlanks_cons (by decide)]
  rfl

theorem skipMoreMembers_comma (hg : Blank gap) :
    skipMoreMembers fuel (gap ++ ',' :: rest) = skipMember fuel rest := by
  rw [skipMoreMembers, hg.skipBlanks_append, skipBlanks_cons (by decide)]
  rfl

theorem Member.text_append (m : Member) (rest : List Char) :
    m.text ++ rest = m.key.front ++ '"' :: (m.key.value ++ '"' :: (m.key.back ++
      ':' :: (m.value.front ++ (m.value.value ++ (m.value.back ++ rest))))) := by
  simp only [text, List.append_assoc, List.cons_append, Spaced.written_append]

theorem Member.length_text (m : Member) :
    m.text.length = m.key.front.length + (m.key.value.length +
      (m.key.back.length + (m.value.written.length + 3))) := by
  simp only [text, List.length_append, List.length_cons]
  omega

theorem skipMember_text {m : Member} (hk : m.key.IsBlank) (hl : IsLetters m.key.value)
    (hf : Blank m.value.front) :
    skipMember (fuel + 2) (m.text ++ rest) =
      skipValue (fuel + 1) (m.value.value ++ (m.value.back ++ rest)) >>=
        skipMoreMembers (fuel + 1) := by
  have hs (text : List Char) : skipString (m.key.value ++ '"' :: text) = .ok text :=
    skipString_eq_ok_iff.mpr ⟨m.key.value, rfl, hl⟩
  simp (disch := decide) only [m.text_append, skipMember, hk.front.skipBlanks_append,
    skipBlanks_cons, hs, ok_bind, readColon_append hk.back, hf.skipValue_append]
  rfl

/-- A member is written and its value can be stepped over. -/
structure Member.Skips (m : Member) : Prop where
  key : m.key.IsBlank
  letters : IsLetters m.key.value
  around : m.value.IsBlank
  value : Skipped m.value.value

theorem Member.Skips.skipMember {m : Member} (h : m.Skips) (hf : m.text.length ≤ fuel + 2)
    (hr : EndsNumber (m.value.back ++ rest)) :
    Json.skipMember (fuel + 2) (m.text ++ rest) =
      skipMoreMembers (fuel + 1) (m.value.back ++ rest) := by
  have hl := m.length_text
  rw [m.value.length_written] at hl
  rw [skipMember_text h.key h.letters h.around.front,
    h.value (fuel + 1) _ (by omega) fun _ => hr, ok_bind]

theorem skipMoreMembers_behind {members : List Member} (hback : Blank back) (hg : Blank gap)
    (hm : ∀ m ∈ members, m.Skips) (hf : (behind (members.map (·.text))).length ≤ fuel) :
    skipMoreMembers fuel (back ++ (behind (members.map (·.text)) ++ (gap ++ '}' :: more))) =
      .ok more := by
  induction members generalizing back fuel with
  | nil =>
    rw [List.map_nil, behind_nil, List.nil_append, ← List.append_assoc]
    exact skipMoreMembers_close (hback.append hg)
  | cons m members ih =>
    obtain ⟨hm, hms⟩ := List.forall_mem_cons.mp hm
    have hl := m.length_text
    rw [List.map_cons, behind_cons, List.length_cons, List.length_append] at hf
    obtain ⟨fuel, rfl⟩ := Nat.exists_eq_add_of_le' (show 2 ≤ fuel by omega)
    have he := endsNumber_behind hm.around.back hg (members.map (·.text)) more (.inr rfl)
    rw [List.map_cons, behind_cons_append, skipMoreMembers_comma hback,
      hm.skipMember (by omega) he]
    exact ih hm.around.back hms (by omega)

theorem skipValue_object {m : Member} (hf : Blank m.key.front) :
    skipValue (fuel + 2) ('{' :: (m.text ++ rest)) = skipMember (fuel + 1) (m.text ++ rest) := by
  simp (disch := decide) only [m.text_append, skipValue, skipMember, skipBlanks_cons,
    hf.skipBlanks_append]
  rfl

theorem skipped_object {o : Object} (hg : Blank o.gap) (hm : ∀ m ∈ o.members, m.Skips) :
    Skipped o.text := by
  intro fuel more hf _
  obtain ⟨fuel, rfl⟩ := Nat.exists_eq_add_one_of_ne_zero (Nat.ne_zero_of_lt hf)
  obtain ⟨members, gap⟩ := o
  cases members with
  | nil =>
    simp (disch := decide) only [Object.text_nil_append, skipValue, skipBlanks_cons,
      hg.skipBlanks_append]
  | cons m members =>
    obtain ⟨hm, hms⟩ := List.forall_mem_cons.mp hm
    have hl := m.length_text
    rw [Object.text, List.map_cons, enclosed_cons] at hf
    simp only [List.length_cons, List.length_append] at hf
    obtain ⟨fuel, rfl⟩ := Nat.exists_eq_add_of_le' (show 2 ≤ fuel by omega)
    have he := endsNumber_behind hm.around.back hg (members.map (·.text)) more (.inr rfl)
    rw [Object.text_cons_append, skipValue_object hm.key.front, hm.skipMember (by omega) he]
    exact skipMoreMembers_behind hm.around.back hg hms (by omega)

theorem IsValue.skipped (h : IsValue text) : Skipped text := by
  induction h with
  | null | true | false =>
    intro fuel more hf _
    obtain ⟨fuel, rfl⟩ := Nat.exists_eq_add_one_of_ne_zero (Nat.ne_zero_of_lt hf)
    rfl
  | number h =>
    intro fuel more hf hr
    have hp := (IsValue.number h).startsValue.length_pos
    obtain ⟨fuel, rfl⟩ := Nat.exists_eq_add_one_of_ne_zero (n := fuel) (by omega)
    exact h.skipValue (hr h)
  | string h =>
    intro fuel more hf _
    obtain ⟨hl⟩ := h
    obtain ⟨fuel, rfl⟩ := Nat.exists_eq_add_one_of_ne_zero (Nat.ne_zero_of_lt hf)
    simp (disch := decide) only [List.cons_append, List.append_assoc, List.nil_append, skipValue,
      skipBlanks_cons]
    exact skipString_eq_ok_iff.mpr ⟨_, rfl, hl⟩
  | array hg hb h ih => exact skipped_array hg hb (fun item hi => (h item hi).startsValue) ih
  | object hg hk hb _ ih =>
    exact skipped_object hg fun m hm => ⟨(hk m hm).1, (hk m hm).2, hb m hm, ih m hm⟩

end Skipping

end Json
end ApiPresence
