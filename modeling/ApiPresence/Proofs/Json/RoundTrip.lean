import ApiPresence.Json.Reader
import ApiPresence.Proofs.Json.Lexeme
import ApiPresence.Proofs.Number

namespace ApiPresence

namespace Tree

mutual

/-- The tree as it is read back: the members of every object in order, of one key the last. -/
def sorted : Tree → Tree
  | .null => .null
  | .bool value => .bool value
  | .number value => .number value
  | .string value => .string value
  | .array items => .array (sortedItems items)
  | .object members => .ofEntries (sortedMembers members)

def sortedItems : List Tree → List Tree
  | [] => []
  | item :: rest => item.sorted :: sortedItems rest

def sortedMembers : List (String × Tree) → List (String × Tree)
  | [] => []
  | (key, value) :: rest => (key, value.sorted) :: sortedMembers rest

end

theorem sortedItems_eq (items : List Tree) : sortedItems items = items.map sorted := by
  induction items with
  | nil => rfl
  | cons item rest ih => rw [sortedItems, ih, List.map_cons]

theorem sortedMembers_eq (members : List (String × Tree)) :
    sortedMembers members = members.map fun member => (member.1, member.2.sorted) := by
  induction members with
  | nil => rfl
  | cons member rest ih => rw [sortedMembers, ih, List.map_cons]

/-- No floats, whose digits reading rounds, and nesting to a depth. -/
inductive Readable : (depth : Nat) → Tree → Prop
  | null : Readable depth .null
  | bool : Readable depth (.bool value)
  | whole : Readable depth (.number (.whole value inRange))
  | string : Readable depth (.string value)
  | array (h : ∀ item ∈ items, Readable depth item) : Readable (depth + 1) (.array items)
  | object (h : ∀ member ∈ members, Readable depth member.2) :
    Readable (depth + 1) (.object members)

end Tree

namespace Json

variable {layout : Layout} {level depth fuel : Nat} {text rest : List Char}

theorem skipBlanks_cons (h : isBlank c = false) : skipBlanks (c :: rest) = c :: rest :=
  List.dropWhile_cons_of_neg (by simp [h])

/-- What may stand around values. -/
def Blank (gap : List Char) : Prop := ∀ c ∈ gap, isBlank c = true

theorem Blank.skipBlanks_append (h : Blank gap) : skipBlanks (gap ++ text) = skipBlanks text :=
  List.dropWhile_append_of_pos h

theorem blank_lineBreak : Blank (layout.lineBreak level) := by
  intro c hc
  cases layout with
  | compact => cases hc
  | pretty =>
    rcases List.mem_cons.mp hc with rfl | hc
    · rfl
    · rw [List.eq_of_mem_replicate hc]
      rfl

/-- A text that starts with a value: nothing to skip in front, and no end of an array. -/
def StartsValue (text : List Char) : Prop :=
  ∃ c ∈ text.head?, isBlank c = false ∧ c ≠ ']'

theorem StartsValue.skipBlanks_append (h : StartsValue text) :
    skipBlanks (text ++ rest) = text ++ rest := by
  obtain ⟨c, hc, hb, -⟩ := h
  obtain ⟨cs, rfl⟩ := List.head?_eq_some_iff.mp hc
  exact skipBlanks_cons hb

theorem StartsValue.length_pos (h : StartsValue text) : 0 < text.length := by
  obtain ⟨c, hc, -⟩ := h
  obtain ⟨cs, rfl⟩ := List.head?_eq_some_iff.mp hc
  exact Nat.zero_lt_succ _

theorem not_isBlank_of_isDigit (h : c.isDigit = true) : isBlank c = false := by
  simp only [isBlank, Bool.or_eq_false_iff, decide_eq_false_iff_not]
  refine ⟨⟨⟨?_, ?_⟩, ?_⟩, ?_⟩ <;> (rintro rfl; cases h)

theorem startsValue_wholeOf (n : Int) : StartsValue (FloatNotation.wholeOf n) := by
  rw [FloatNotation.wholeOf]
  split
  · exact ⟨'-', rfl, by decide⟩
  · obtain ⟨c, digits, hs, hc⟩ := FloatNotation.digitsOf_eq_cons n.natAbs
    rw [hs]
    exact ⟨c, rfl, not_isBlank_of_isDigit hc, by rintro rfl; cases hc⟩

theorem startsValue_write (h : Tree.Readable depth t) : StartsValue (write layout level t) := by
  cases h with
  | null => exact ⟨'n', rfl, by decide⟩
  | @bool _ value =>
    cases value
    · exact ⟨'f', rfl, by decide⟩
    · exact ⟨'t', rfl, by decide⟩
  | whole => exact startsValue_wholeOf _
  | string => exact ⟨'"', rfl, by decide⟩
  | @array items => cases items <;> exact ⟨'[', rfl, by decide⟩
  | @object members => cases members <;> exact ⟨'{', rfl, by decide⟩

/-- What stands between values, and behind the last one, ends a number. -/
theorem Blank.endsNumber_append (hg : Blank gap) (h : EndsNumber rest) :
    EndsNumber (gap ++ rest) := by
  cases gap with
  | nil => exact h
  | cons c gap =>
    have hc := hg c List.mem_cons_self
    rintro x ⟨⟩
    simp only [isBlank, Bool.or_eq_true, decide_eq_true_eq] at hc
    obtain ((rfl | rfl) | rfl) | rfl := hc <;> decide

theorem endsNumber_behind_item :
    EndsNumber (writeItems layout level items ++ (layout.lineBreak outer ++ ']' :: rest)) := by
  cases items with
  | nil => exact blank_lineBreak.endsNumber_append (by rintro c ⟨⟩; decide)
  | cons item items =>
    rintro c ⟨⟩
    decide

theorem endsNumber_behind_member :
    EndsNumber (writeMembers layout level members ++ (layout.lineBreak outer ++ '}' :: rest)) := by
  cases members with
  | nil => exact blank_lineBreak.endsNumber_append (by rintro c ⟨⟩; decide)
  | cons member members =>
    rintro c ⟨⟩
    decide

theorem nextItem_first (hg : Blank gap) (h : StartsValue text) :
    nextItem true (gap ++ (text ++ rest)) = .ok (some (text ++ rest)) := by
  rw [nextItem, hg.skipBlanks_append, h.skipBlanks_append]
  obtain ⟨c, hc, -, hn⟩ := h
  obtain ⟨cs, rfl⟩ := List.head?_eq_some_iff.mp hc
  simp

theorem nextItem_comma (hg : Blank gap) (h : StartsValue text) :
    nextItem false (',' :: (gap ++ (text ++ rest))) = .ok (some (text ++ rest)) := by
  rw [nextItem, skipBlanks_cons (by decide)]
  obtain ⟨c, hc, hb, hn⟩ := h
  obtain ⟨cs, rfl⟩ := List.head?_eq_some_iff.mp hc
  simp [hn, hg.skipBlanks_append, skipBlanks_cons hb]

theorem nextItem_close (hg : Blank gap) : nextItem first (gap ++ ']' :: rest) = .ok none := by
  rw [nextItem, hg.skipBlanks_append, skipBlanks_cons (by decide)]
  rfl

theorem nextKey_first (hg : Blank gap) : nextKey true (gap ++ '"' :: rest) = .ok (some rest) := by
  rw [nextKey, hg.skipBlanks_append, skipBlanks_cons (by decide)]
  rfl

theorem nextKey_comma (hg : Blank gap) :
    nextKey false (',' :: (gap ++ '"' :: rest)) = .ok (some rest) := by
  rw [nextKey, skipBlanks_cons (by decide)]
  simp [hg.skipBlanks_append, skipBlanks_cons (show isBlank '"' = false by decide)]

theorem nextKey_close (hg : Blank gap) : nextKey first (gap ++ '}' :: rest) = .ok none := by
  rw [nextKey, hg.skipBlanks_append, skipBlanks_cons (by decide)]
  rfl

theorem Blank.pastClosing_append (hg : Blank gap) (h : isBlank c = false) :
    pastClosing (gap ++ c :: rest) = rest := by
  rw [pastClosing, hg.skipBlanks_append, skipBlanks_cons h]
  rfl

theorem readColon_colon : readColon (layout.colon ++ text) = .ok (layout.colon.tail ++ text) := by
  cases layout <;> rfl

theorem Blank.readValue_append (hg : Blank gap) :
    readValue (fuel + 1) depth (gap ++ text) = readValue (fuel + 1) depth text := by
  simp only [readValue, hg.skipBlanks_append]

theorem blank_colon : Blank layout.colon.tail := by
  cases layout with
  | compact => exact List.forall_mem_nil _
  | pretty => exact List.forall_mem_singleton.mpr rfl

theorem quoted_append (s : String) (rest : List Char) :
    quoted s ++ rest = '"' :: (s.toList.flatMap escape ++ '"' :: rest) := by
  simp [quoted]

theorem readItems_close (hg : Blank gap) :
    readItems (fuel + 1) depth first (gap ++ ']' :: rest) = .ok ([], rest) := by
  rw [readItems, nextItem_close hg, hg.pastClosing_append (by decide)]
  rfl

theorem readItems_cons (hn : nextItem first text = .ok (some front))
    (hi : readValue fuel depth front = .ok (item, mid))
    (hr : readItems fuel depth false mid = .ok (items, rest)) :
    readItems (fuel + 1) depth first text = .ok (item :: items, rest) := by
  simp only [readItems, hn, hi, hr, bind, Except.bind]

theorem readEntries_close (hg : Blank gap) :
    readEntries (fuel + 1) depth first (gap ++ '}' :: rest) = .ok ([], rest) := by
  rw [readEntries, nextKey_close hg, hg.pastClosing_append (by decide)]
  rfl

theorem readEntries_cons (hn : nextKey first text = .ok (some front))
    (hk : readString front = .ok (key, behind)) (hc : readColon behind = .ok afterColon)
    (hv : readValue fuel depth afterColon = .ok (value, mid))
    (hr : readEntries fuel depth false mid = .ok (entries, rest)) :
    readEntries (fuel + 1) depth first text = .ok ((key, value) :: entries, rest) := by
  simp only [readEntries, hn, hk, hc, hv, hr, bind, Except.bind]

theorem readValue_array (h : readItems fuel (depth + 1) true text = .ok (items, rest)) :
    readValue (fuel + 1) (depth + 2) ('[' :: text) = .ok (.array items, rest) := by
  simp [readValue, skipBlanks_cons (show isBlank '[' = false by decide), h, bind, Except.bind]

theorem readValue_object (h : readEntries fuel (depth + 1) true text = .ok (entries, rest)) :
    readValue (fuel + 1) (depth + 2) ('{' :: text) = .ok (.ofEntries entries, rest) := by
  simp [readValue, skipBlanks_cons (show isBlank '{' = false by decide), h, bind, Except.bind]

/-- The text of a tree is read as the tree, whatever follows it that could not belong to it. -/
def ReadsBack (layout : Layout) (level depth : Nat) (t : Tree) : Prop :=
  ∀ fuel rest, (write layout level t).length ≤ fuel → EndsNumber rest →
    readValue fuel depth (write layout level t ++ rest) = .ok (t.sorted, rest)

theorem readItems_writeItems
    (hs : ∀ item ∈ items, StartsValue (write layout level item))
    (hb : ∀ item ∈ items, ReadsBack layout level depth item)
    (hf : (writeItems layout level items).length < fuel) :
    readItems fuel depth false
        (writeItems layout level items ++ (layout.lineBreak outer ++ ']' :: rest)) =
      .ok (Tree.sortedItems items, rest) := by
  induction items generalizing fuel with
  | nil =>
    obtain _ | fuel := fuel
    · cases hf
    · exact readItems_close blank_lineBreak
  | cons item items ih =>
    obtain _ | fuel := fuel
    · cases hf
    · obtain ⟨hs, hss⟩ := List.forall_mem_cons.mp hs
      obtain ⟨hb, hbs⟩ := List.forall_mem_cons.mp hb
      simp only [writeItems, List.length_append, List.length_cons] at hf
      simp only [writeItems, List.cons_append, List.append_assoc]
      exact readItems_cons (nextItem_comma blank_lineBreak hs)
        (hb fuel _ (by omega) endsNumber_behind_item)
        (ih hss hbs (by omega))

theorem readEntries_writeMembers
    (hb : ∀ key value, (key, value) ∈ members → ReadsBack layout level depth value)
    (hf : (writeMembers layout level members).length < fuel) :
    readEntries fuel depth false
        (writeMembers layout level members ++ (layout.lineBreak outer ++ '}' :: rest)) =
      .ok (Tree.sortedMembers members, rest) := by
  induction members generalizing fuel with
  | nil =>
    obtain _ | fuel := fuel
    · cases hf
    · exact readEntries_close blank_lineBreak
  | cons member members ih =>
    obtain ⟨key, value⟩ := member
    obtain _ | _ | fuel := fuel
    · cases hf
    · simp [writeMembers] at hf
    · have hv := hb key value List.mem_cons_self
      have hvs := fun k v hm => hb k v (List.mem_cons_of_mem _ hm)
      simp only [writeMembers, List.length_append, List.length_cons] at hf
      simp only [writeMembers, List.cons_append, List.append_assoc, quoted_append]
      exact readEntries_cons (nextKey_comma blank_lineBreak) (readString_escape key _)
        readColon_colon
        (blank_colon.readValue_append.trans (hv (fuel + 1) _ (by omega) endsNumber_behind_member))
        (ih hvs (by omega))

theorem readsBack_array (hs : ∀ item ∈ items, StartsValue (write layout (level + 1) item))
    (hb : ∀ item ∈ items, ReadsBack layout (level + 1) (depth + 1) item) :
    ReadsBack layout level (depth + 2) (.array items) := by
  intro fuel rest hf hr
  cases items with
  | nil =>
    obtain _ | _ | fuel := fuel
    · cases hf
    · simp [write] at hf
    · rfl
  | cons item items =>
    obtain _ | _ | fuel := fuel
    · cases hf
    · simp [write] at hf
    · obtain ⟨hs, hss⟩ := List.forall_mem_cons.mp hs
      obtain ⟨hb, hbs⟩ := List.forall_mem_cons.mp hb
      have hp := hs.length_pos
      simp only [write, List.length_append, List.length_cons] at hf
      simp only [write, List.cons_append, List.append_assoc, List.nil_append]
      exact readValue_array (readItems_cons (nextItem_first blank_lineBreak hs)
        (hb fuel _ (by omega) endsNumber_behind_item) (readItems_writeItems hss hbs (by omega)))

theorem readsBack_object
    (hb : ∀ key value, (key, value) ∈ members →
      ReadsBack layout (level + 1) (depth + 1) value) :
    ReadsBack layout level (depth + 2) (.object members) := by
  intro fuel rest hf hr
  cases members with
  | nil =>
    obtain _ | _ | fuel := fuel
    · cases hf
    · simp [write] at hf
    · rfl
  | cons member members =>
    obtain ⟨key, value⟩ := member
    simp only [write, quoted, List.length_append, List.length_cons] at hf
    obtain _ | _ | _ | fuel := fuel
    · omega
    · omega
    · omega
    · have hv := hb key value List.mem_cons_self
      have hvs := fun k v hm => hb k v (List.mem_cons_of_mem _ hm)
      simp only [write, List.cons_append, List.append_assoc, List.nil_append, quoted_append]
      exact readValue_object (readEntries_cons (nextKey_first blank_lineBreak)
        (readString_escape key _) readColon_colon
        (blank_colon.readValue_append.trans (hv (fuel + 1) _ (by omega) endsNumber_behind_member))
        (readEntries_writeMembers hvs (by omega)))

theorem readValue_minus (h : readNumber true text = .ok (number, rest)) :
    readValue (fuel + 1) depth ('-' :: text) = .ok (.number number, rest) := by
  simp [readValue, skipBlanks_cons (show isBlank '-' = false by decide), h, bind, Except.bind]

theorem readValue_digit (hc : c.isDigit = true)
    (h : readNumber false (c :: text) = .ok (number, rest)) :
    readValue (fuel + 1) depth (c :: text) = .ok (.number number, rest) := by
  rw [readValue, skipBlanks_cons (not_isBlank_of_isDigit hc)]
  split
  case h_9 he =>
    cases he
    rw [if_pos (isDigit_eq c ▸ hc), h]
    rfl
  all_goals next he => cases he <;> cases hc

theorem readsBack_whole (hn : -0x8000000000000000 ≤ n ∧ n < 0x10000000000000000) :
    ReadsBack layout level depth (.number (.whole n hn)) := by
  rintro (_ | fuel) rest hf hr
  · exact absurd hf (Nat.not_le.mpr (startsValue_wholeOf n).length_pos)
  · show readValue (fuel + 1) depth (FloatNotation.wholeOf n ++ rest) = _
    have hl : n.natAbs < 0x10000000000000000 := by omega
    have hw := wholeNumber_natAbs hn
    rw [FloatNotation.wholeOf]
    split
    · next hneg =>
      rw [decide_eq_true hneg] at hw
      exact readValue_minus (hw ▸ readNumber_whole hl hr)
    · next hpos =>
      rw [decide_eq_false hpos] at hw
      have hv : readNumber false (FloatNotation.digitsOf n.natAbs ++ rest) = _ :=
        readNumber_whole hl hr
      obtain ⟨c, digits, hs, hc⟩ := FloatNotation.digitsOf_eq_cons n.natAbs
      rw [hs, hw] at hv
      rw [hs]
      exact readValue_digit hc hv

theorem readsBack_string (s : String) : ReadsBack layout level depth (.string s) := by
  rintro (_ | fuel) rest hf hr
  · simp [write, quoted] at hf
  · show readValue (fuel + 1) depth (quoted s ++ rest) = _
    rw [quoted_append]
    simp only [readValue, skipBlanks_cons (show isBlank '"' = false by decide),
      readString_escape, bind, Except.bind]
    rfl

theorem readsBack_of_readable (h : Tree.Readable depth t) :
    ReadsBack layout level (depth + 1) t := by
  induction h generalizing level with
  | null =>
    rintro (_ | fuel) rest hf hr
    · cases hf
    · rfl
  | @bool _ value =>
    rintro (_ | fuel) rest hf hr
    · cases value <;> cases hf
    · cases value <;> rfl
  | whole => exact readsBack_whole _
  | string => exact readsBack_string _
  | array h ih =>
    exact readsBack_array (fun item hi => startsValue_write (h item hi)) fun item hi => ih item hi
  | object h ih => exact readsBack_object fun key value hm => ih (key, value) hm

/-- The text of a tree without floats is read back in either layout. -/
theorem parse_print (h : Tree.Readable 127 t) (layout : Layout) :
    parse (print layout t) = .ok t.sorted := by
  have hb : ReadsBack layout 0 depthLimit t := readsBack_of_readable h
  have hr := hb (2 * (write layout 0 t).length + 1) [] (by omega) endsNumber_nil
  rw [List.append_nil] at hr
  have ht : readTree (write layout 0 t) = .ok t.sorted := by
    rw [readTree, hr]
    rfl
  rw [parse, print, String.toList_ofList, ht]
  rfl

end Json
end ApiPresence
