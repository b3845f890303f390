import ApiPresence.Proofs.Shared.Number

namespace ApiPresence

open Json (Blank EndsNumber StartsValue readItems readEntries readValue)
open Text (isDigit)

variable {letters text rest more gap : List Char} {value : Tree} {s : Source} {fuel depth : Nat}

namespace Spells

theorem denotes (h : Spells letters text) : Json.Denotes letters text := by
  induction h with
  | nil => exact .nil
  | raw hc _ ih => exact .plain hc.solid ⟨hc.unquoted, hc.unescaped⟩ ih
  | escape hx _ ih => exact .escape (.letter hx) ih
  | digits hd hv _ ih => exact .escape (.digits hd hv) ih

theorem readString (h : Spells letters name.toList) (rest : List Char) :
    Json.readString (letters ++ '"' :: rest) = .ok (name, rest) :=
  Json.readString_eq_ok_iff.mpr ⟨letters, rfl, h.denotes⟩

end Spells

theorem startsValue_digit (h : isDigit c = true) (rest : List Char) : StartsValue (c :: rest) := by
  refine ⟨c, rfl, Json.not_isBlank_of_isDigit h, ?_⟩
  rintro rfl
  cases h

theorem Agreed.startsValue (h : Agreed letters value) : StartsValue letters := by
  cases h with
  | null | true | false => exact ⟨_, rfl, by decide⟩
  | @number negative digits n hj _ =>
    cases negative with
    | true => exact ⟨'-', rfl, by decide⟩
    | false =>
      obtain ⟨c, more, rfl, hc⟩ := Json.isDigit_of_readNumber hj
      exact startsValue_digit hc more

theorem Source.IsShared.startsValue (h : s.IsShared depth) : StartsValue s.text := by
  cases h with
  | word h => exact h.agreed.startsValue
  | string => exact ⟨'"', rfl, by decide⟩
  | emptyArray | array => exact ⟨'[', rfl, by decide⟩
  | emptyObject | object => exact ⟨'{', rfl, by decide⟩

/-- A text is read as its tree, whatever follows it that could not belong to it. -/
def Source.Reads (depth : Nat) (s : Source) : Prop :=
  ∀ fuel rest, s.text.length ≤ fuel → EndsNumber rest →
    readValue fuel depth (s.text ++ rest) = .ok (s.tree, rest)

theorem Agreed.reads (h : Agreed letters value) : (Source.word letters value).Reads depth := by
  intro fuel rest hf hr
  have hl : 0 < letters.length := h.startsValue.length_pos
  obtain ⟨fuel, rfl⟩ := Nat.exists_eq_add_of_le' (Nat.le_trans hl hf)
  cases h with
  | null | true | false => rfl
  | @number negative digits n hj _ =>
    have hn := Json.readNumber_append hj hr
    cases negative with
    | true => exact Json.readValue_minus hn
    | false =>
      obtain ⟨c, more, rfl, hc⟩ := Json.isDigit_of_readNumber hj
      exact Json.readValue_digit hc hn

theorem Spells.reads {name : String} (h : Spells letters name.toList) :
    (Source.string letters name).Reads depth := by
  intro fuel rest hf hr
  obtain ⟨fuel, rfl⟩ := Nat.exists_eq_add_one_of_ne_zero (Nat.ne_zero_of_lt hf)
  have hs : Json.skipBlanks ('"' :: (letters ++ '"' :: rest)) = '"' :: (letters ++ '"' :: rest) :=
    Json.skipBlanks_cons (by decide)
  have ht : (Source.string letters name).text ++ rest = '"' :: (letters ++ '"' :: rest) := by
    simp [Source.text]
  rw [ht]
  simp only [readValue, hs, h.readString, ok_bind]
  rfl

theorem Json.Blank.readItems_append (hg : Blank gap) (first : Bool) (text : List Char) :
    readItems (fuel + 1) depth first (gap ++ text) = readItems (fuel + 1) depth first text := by
  simp only [readItems, Json.nextItem, Json.pastClosing, hg.skipBlanks_append]

theorem Json.Blank.readEntries_append (hg : Blank gap) (first : Bool) (text : List Char) :
    readEntries (fuel + 1) depth first (gap ++ text) = readEntries (fuel + 1) depth first text := by
  simp only [readEntries, Json.nextKey, Json.pastClosing, hg.skipBlanks_append]

namespace Source

theorem endsNumber_itemsText (hg : Blank gap) (items : List (Spaced Source)) :
    EndsNumber (gap ++ (itemsText items ++ rest)) := by
  refine hg.endsNumber_append ?_
  cases items with
  | nil => rintro c ⟨⟩; decide
  | cons item items => rintro c ⟨⟩; decide

theorem endsNumber_membersText (hg : Blank gap) (members : List (Key × Spaced Source)) :
    EndsNumber (gap ++ (membersText members ++ rest)) := by
  refine hg.endsNumber_append ?_
  cases members with
  | nil => rintro c ⟨⟩; decide
  | cons member members => rintro c ⟨⟩; decide

theorem length_itemsText_pos (items : List (Spaced Source)) : 0 < (itemsText items).length := by
  cases items <;> exact Nat.zero_lt_succ _

theorem length_membersText_pos (members : List (Key × Spaced Source)) :
    0 < (membersText members).length := by
  obtain _ | ⟨⟨key, item⟩, members⟩ := members <;> exact Nat.zero_lt_succ _

theorem readItems_itemsText {items : List (Spaced Source)} (hgap : Blank gap)
    (hg : ∀ item ∈ items, Blank item.front ∧ Blank item.back)
    (hs : ∀ item ∈ items, StartsValue item.value.text)
    (hi : ∀ item ∈ items, item.value.Reads depth) (hf : (itemsText items).length ≤ fuel) :
    readItems fuel depth false (gap ++ (itemsText items ++ rest)) =
      .ok (itemTrees items, rest) := by
  have hpos := length_itemsText_pos items
  obtain ⟨fuel, rfl⟩ := Nat.exists_eq_add_one_of_ne_zero (n := fuel) (by omega)
  rw [hgap.readItems_append]
  induction items generalizing fuel gap with
  | nil => exact Json.readItems_close (List.forall_mem_nil _)
  | cons item items ih =>
    obtain ⟨front, value, back⟩ := item
    obtain ⟨⟨hfront, hback⟩, hgs⟩ := List.forall_mem_cons.mp hg
    obtain ⟨hs, hss⟩ := List.forall_mem_cons.mp hs
    obtain ⟨hi, his⟩ : value.Reads depth ∧ ∀ item ∈ items, item.value.Reads depth :=
      List.forall_mem_cons.mp hi
    have hpos := length_itemsText_pos items
    simp only [itemsText, List.length_cons, List.length_append] at hf
    obtain ⟨fuel, rfl⟩ := Nat.exists_eq_add_one_of_ne_zero (n := fuel) (by omega)
    have hrest := ih hback hgs hss his hpos fuel (by omega)
    rw [← hback.readItems_append] at hrest
    simp only [itemsText, List.cons_append, List.append_assoc]
    exact Json.readItems_cons (Json.nextItem_comma hfront hs)
      (hi _ _ (by omega) (endsNumber_itemsText hback items)) hrest

theorem readEntries_member {key : Key} {value : Source} {front : List Char} (hk : key.IsShared)
    (hf : Blank front) (hv : value.Reads depth) (hl : value.text.length ≤ fuel + 1)
    (hr : EndsNumber mid)
    (hn : Json.nextKey first text =
      .ok (some (key.letters ++ '"' :: (key.back ++ ':' :: (front ++ (value.text ++ mid))))))
    (hm : readEntries (fuel + 1) depth false mid = .ok (entries, rest)) :
    readEntries (fuel + 2) depth first text = .ok ((key.name, value.tree) :: entries, rest) :=
  Json.readEntries_cons hn (hk.spells.readString _) (Json.readColon_append hk.blank_back _)
    (hf.readValue_append.trans (hv _ _ hl hr)) hm

theorem readEntries_membersText {members : List (Key × Spaced Source)} (hgap : Blank gap)
    (hk : ∀ member ∈ members, member.1.IsShared)
    (hg : ∀ member ∈ members, Blank member.2.front ∧ Blank member.2.back)
    (hm : ∀ member ∈ members, member.2.value.Reads depth)
    (hf : (membersText members).length ≤ fuel) :
    readEntries fuel depth false (gap ++ (membersText members ++ rest)) =
      .ok (memberTrees members, rest) := by
  have hpos := length_membersText_pos members
  obtain ⟨fuel, rfl⟩ := Nat.exists_eq_add_one_of_ne_zero (n := fuel) (by omega)
  rw [hgap.readEntries_append]
  induction members generalizing fuel gap with
  | nil => exact Json.readEntries_close (List.forall_mem_nil _)
  | cons member members ih =>
    obtain ⟨key, front, value, back⟩ := member
    obtain ⟨hkey, hks⟩ := List.forall_mem_cons.mp hk
    obtain ⟨⟨hfront, hback⟩, hgs⟩ := List.forall_mem_cons.mp hg
    obtain ⟨hv, hvs⟩ : value.Reads depth ∧ ∀ member ∈ members, member.2.value.Reads depth :=
      List.forall_mem_cons.mp hm
    have hpos := length_membersText_pos members
    simp only [membersText, List.length_cons, List.length_append] at hf
    obtain ⟨fuel, rfl⟩ := Nat.exists_eq_add_one_of_ne_zero (n := fuel) (by omega)
    have hrest := ih hback hks hgs hvs hpos fuel (by omega)
    rw [← hback.readEntries_append] at hrest
    simp only [membersText, Key.quoted, List.cons_append, List.append_assoc]
    exact readEntries_member hkey hfront hv (by omega) (endsNumber_membersText hback members)
      (Json.nextKey_comma hkey.front) hrest

theorem reads_array {first : Spaced Source} {items : List (Spaced Source)}
    (hg : ∀ item ∈ first :: items, Blank item.front ∧ Blank item.back)
    (hs : ∀ item ∈ first :: items, StartsValue item.value.text)
    (hi : ∀ item ∈ first :: items, item.value.Reads (depth + 1)) :
    (array first items).Reads (depth + 2) := by
  intro fuel rest hf hr
  obtain ⟨front, value, back⟩ := first
  obtain ⟨⟨hfront, hback⟩, hgs⟩ := List.forall_mem_cons.mp hg
  obtain ⟨hs, hss⟩ := List.forall_mem_cons.mp hs
  obtain ⟨hi, his⟩ : value.Reads (depth + 1) ∧ ∀ item ∈ items, item.value.Reads (depth + 1) :=
    List.forall_mem_cons.mp hi
  have hpos : 0 < value.text.length := hs.length_pos
  have hclose := length_itemsText_pos items
  simp only [Source.text, List.length_cons, List.length_append] at hf
  obtain ⟨fuel, rfl⟩ := Nat.exists_eq_add_of_le' (Nat.le_trans (by omega : 2 ≤ _) hf)
  simp only [Source.text, List.cons_append, List.append_assoc]
  exact Json.readValue_array (Json.readItems_cons (Json.nextItem_first hfront hs)
    (hi _ _ (by omega) (endsNumber_itemsText hback items))
    (readItems_itemsText hback hgs hss his (by omega)))

theorem reads_object {first : Key × Spaced Source} {members : List (Key × Spaced Source)}
    (hk : ∀ member ∈ first :: members, member.1.IsShared)
    (hg : ∀ member ∈ first :: members, Blank member.2.front ∧ Blank member.2.back)
    (hm : ∀ member ∈ first :: members, member.2.value.Reads (depth + 1)) :
    (object first members).Reads (depth + 2) := by
  intro fuel rest hf hr
  obtain ⟨key, front, value, back⟩ := first
  obtain ⟨hkey, hks⟩ := List.forall_mem_cons.mp hk
  obtain ⟨⟨hfront, hback⟩, hgs⟩ := List.forall_mem_cons.mp hg
  obtain ⟨hv, hvs⟩ :
      value.Reads (depth + 1) ∧ ∀ member ∈ members, member.2.value.Reads (depth + 1) :=
    List.forall_mem_cons.mp hm
  simp only [Source.text, Key.quoted, List.length_cons, List.length_append] at hf
  obtain ⟨fuel, rfl⟩ := Nat.exists_eq_add_of_le' (Nat.le_trans (by omega : 3 ≤ _) hf)
  simp only [Source.text, Key.quoted, List.cons_append, List.append_assoc]
  exact Json.readValue_object (readEntries_member hkey hfront hv (by omega)
    (endsNumber_membersText hback members) (Json.nextKey_first hkey.front)
    (readEntries_membersText hback hks hgs hvs (by omega)))

theorem IsShared.reads (h : s.IsShared depth) : s.Reads (depth + 1) := by
  induction h with
  | word h => exact h.agreed.reads
  | string h => exact h.reads
  | emptyArray hg =>
    intro fuel rest hf hr
    simp only [Source.text, List.length_cons, List.length_append] at hf
    obtain ⟨fuel, rfl⟩ := Nat.exists_eq_add_of_le' (Nat.le_trans (by omega : 2 ≤ _) hf)
    simp only [Source.text, List.cons_append, List.append_assoc]
    exact Json.readValue_array (Json.readItems_close hg)
  | array hg h ih => exact reads_array hg (fun item hi => (h item hi).startsValue) ih
  | emptyObject hg =>
    intro fuel rest hf hr
    simp only [Source.text, List.length_cons, List.length_append] at hf
    obtain ⟨fuel, rfl⟩ := Nat.exists_eq_add_of_le' (Nat.le_trans (by omega : 2 ≤ _) hf)
    simp only [Source.text, List.cons_append, List.append_assoc]
    exact Json.readValue_object (Json.readEntries_close hg)
  | object hk _ hg _ ih => exact reads_object hk hg ih

end Source

/-- As JSON, a document that both notations share is its tree. -/
theorem Spaced.IsShared.parse {document : Spaced Source} (h : document.IsShared 127) :
    Json.parse (String.ofList document.text) = .ok document.value.tree := by
  have hback := blank_of_edge h.back
  have hends : EndsNumber document.back := by
    rw [← List.append_nil document.back]
    exact hback.endsNumber_append Json.endsNumber_nil
  have hskip : Json.skipBlanks document.back = [] := by
    rw [← List.append_nil document.back]
    exact hback.skipBlanks_append
  have hl : document.value.text.length ≤ 2 * document.text.length + 1 := by
    simp only [Spaced.text, List.length_append]
    omega
  have hv : readValue (2 * document.text.length + 1) Json.depthLimit document.text =
      .ok (document.value.tree, document.back) := by
    rw [Spaced.text, (blank_of_edge h.front).readValue_append]
    exact h.value.reads _ _ hl hends
  have hend : Json.readEnd document.back = .ok () := by rw [Json.readEnd, hskip]
  have ht : Json.readTree document.text = .ok document.value.tree := by
    simp only [Json.readTree, hv, ok_bind, hend]
  rw [Json.parse, String.toList_ofList, ht]
  rfl

end ApiPresence
