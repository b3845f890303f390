import ApiPresence.Proofs.Yaml.Lexeme.Plain
import ApiPresence.Proofs.Yaml.Lexeme.Quoted
import ApiPresence.Yaml.Token.Stream

namespace ApiPresence.Yaml

open Text (digitChar hexDigits)

theorem plain_of_styleOf (h : styleOf text = .plain) :
    needsQuotes text = false ∧ isPlainAllowed text = true := by
  unfold styleOf at h
  split at h
  · split at h <;> cases h
  · split at h
    · next hp => simpa using hp
    · split at h <;> cases h

theorem isKept_of_styleOf (h : styleOf text = .singleQuoted) : Quoted.IsKept text := by
  unfold styleOf at h
  split at h
  · split at h <;> cases h
  · next hn =>
    split at h
    · cases h
    · split at h
      · next hk =>
        simp only [isSingleQuotedAllowed, Bool.and_eq_true, Bool.not_eq_true',
          List.all_eq_true] at hk
        exact ⟨hk.1.1, hn, hk.1.2, hk.2⟩
      · cases h

theorem literal_of_styleOf (h : styleOf text = .literal) :
    text ≠ [] ∧ ∀ c ∈ text, isPlainText c = true := by
  unfold styleOf at h
  split at h
  · next hn =>
    split at h
    · next hb =>
      simp only [isBlockAllowed, Bool.and_eq_true, List.all_eq_true] at hb
      exact ⟨List.ne_nil_of_mem hn, hb.1.1⟩
    · cases h
  · split at h
    · cases h
    · split at h <;> cases h

/-- An empty text would be read as null. -/
theorem ne_nil_of_needsQuotes (h : needsQuotes text = false) : text ≠ [] := by
  rintro rfl
  cases h

theorem isBare_of_styleOf (h : styleOf text = .plain) : IsBare text :=
  have hp := plain_of_styleOf h
  isBare_of_isPlainAllowed hp.2 (ne_nil_of_needsQuotes hp.1)

/-- A text of characters that can be written as they are. -/
def PlainText (text : List Char) : Prop := ∀ c ∈ text, isPlainText c = true

theorem isAllowed_of_isPlainText (h : isPlainText c = true) : isAllowed c = true := by
  simp only [isPlainText, isAllowed, Bool.or_eq_true, Bool.and_eq_true, decide_eq_true_eq] at h ⊢
  omega

namespace PlainText

@[simp]
theorem nil : PlainText [] := nofun

@[simp]
theorem cons_iff : PlainText (c :: text) ↔ isPlainText c = true ∧ PlainText text :=
  List.forall_mem_cons

@[simp]
theorem append_iff : PlainText (a ++ b) ↔ PlainText a ∧ PlainText b := List.forall_mem_append

@[simp]
theorem spaces (n : Nat) : PlainText (spaces n) := by
  intro c hc
  rw [List.eq_of_mem_replicate hc]
  rfl

theorem dropLast (h : PlainText text) : PlainText text.dropLast :=
  fun c hc => h c (List.dropLast_subset text hc)

theorem of_numerals (h : ∀ c, isNumeral c = false → c ∉ text) : PlainText text := by
  intro c hc
  refine isPlainText_of_isNumeral ?_
  by_contra hn
  exact h c (Bool.eq_false_iff.mpr hn) hc

@[simp]
theorem numberText (n : Number) : PlainText (numberText n) := by
  cases n with
  | whole value inRange => exact of_numerals fun c hc => FloatNotation.not_mem_wholeOf hc value
  | float value =>
    cases value with
    | finite negative rank =>
      exact of_numerals fun c hc => FloatNotation.not_mem_text hc floatNotation negative rank
    | infinite negative => cases negative <;> exact List.all_eq_true.mp rfl
    | nan => exact List.all_eq_true.mp rfl

theorem singleQuotedBody (h : PlainText text) (indent : Nat) (afterBreak : Bool) :
    PlainText (singleQuotedBody indent afterBreak text) := by
  induction text generalizing afterBreak with
  | nil => cases afterBreak <;> simp [Yaml.singleQuotedBody]
  | cons c text ih =>
    obtain ⟨hc, ht⟩ := cons_iff.mp h
    have hq : isPlainText '\'' = true := by decide
    rw [Yaml.singleQuotedBody]
    split <;> [skip; split] <;> [skip; split; split] <;> simp [*]

theorem blockBody (h : PlainText text) (indent : Nat) (afterBreak : Bool) :
    PlainText (blockBody indent afterBreak text) := by
  induction text generalizing afterBreak with
  | nil => simp [Yaml.blockBody]
  | cons c text ih =>
    obtain ⟨hc, ht⟩ := cons_iff.mp h
    rw [Yaml.blockBody]
    split <;> [skip; split] <;> simp [*]

theorem hexDigits (n k : Nat) : PlainText (hexDigits true n k) := by
  have hd : ∀ d < 16, isPlainText (digitChar true d) = true := by decide
  induction k generalizing n with
  | zero => exact nil
  | succ k ih =>
    rw [Text.hexDigits, append_iff]
    exact ⟨ih _, List.forall_mem_singleton.mpr (hd _ (Nat.mod_lt n (by decide)))⟩

theorem escape (c : Char) : PlainText (escape c) := by
  unfold Yaml.escape
  split
  case h_15 =>
    have hx : ∀ x ∈ ['\\', 'x', 'u', 'U'], isPlainText x = true := List.all_eq_true.mp rfl
    split
    · simpa
    · split <;> [skip; split] <;> simp [hexDigits, hx]
  all_goals exact List.all_eq_true.mp rfl

theorem blockHints (text : List Char) : PlainText (blockHints text) := by
  have hx : ∀ x ∈ ['2', '-', '+'], isPlainText x = true := List.all_eq_true.mp rfl
  unfold Yaml.blockHints
  repeat' split
  all_goals simp [hx]

@[simp]
theorem stringLines (indent : Nat) (s : String) : PlainText (stringLines indent s) := by
  have hx : ∀ x ∈ ['\n', '\'', '"', '|'], isPlainText x = true := List.all_eq_true.mp rfl
  simp only [List.forall_mem_cons] at hx
  cases hs : styleOf s.toList <;> simp only [Yaml.stringLines, hs, append_iff, cons_iff, hx]
  case plain => exact ⟨(isBare_of_styleOf hs).allowed, trivial, nil⟩
  case singleQuoted => simpa using singleQuotedBody (isKept_of_styleOf hs).plain indent false
  case doubleQuoted =>
    have he : PlainText (s.toList.flatMap Yaml.escape) := fun c hc => by
      obtain ⟨x, -, hx⟩ := List.mem_flatMap.mp hc
      exact escape x c hx
    simpa
  case literal =>
    have hb := blockBody (literal_of_styleOf hs).2 indent true
    split <;> simp [blockHints, hb, hx]

end PlainText

theorem plainText_simpleKey (key : String) : PlainText (simpleKey key) :=
  (PlainText.stringLines 0 key).dropLast

/-- The marks that stand between strings and numbers, and the other scalars. -/
theorem isPlainText_mark : ∀ x ∈ ['\n', ' ', '-', '?', ':', '[', ']', '\x7b', '\x7d', 'a', 'e', 'f',
    'l', 'n', 'r', 's', 't', 'u'], isPlainText x = true :=
  List.all_eq_true.mp rfl

mutual

/-- Whatever a tree is, only printable characters are written for it. -/
theorem plainText_nodeLines (indent : Nat) : (t : Tree) → PlainText (nodeLines indent t)
  | .null | .bool true | .bool false | .number _ | .string _ | .array [] | .object [] => by
    simp [nodeLines, isPlainText_mark]
  | .array (item :: rest) => by
    simp [nodeLines, isPlainText_mark, plainText_nodeLines _ item, plainText_itemLines _ rest]
  | .object ((key, value) :: rest) => by
    simp [nodeLines, plainText_entryLines _ key value, plainText_memberLines _ rest]

theorem plainText_itemLines (indent : Nat) :
    (items : List Tree) → PlainText (itemLines indent items)
  | [] => by simp [itemLines]
  | item :: rest => by
    simp [itemLines, isPlainText_mark, plainText_nodeLines _ item, plainText_itemLines _ rest]

theorem plainText_memberLines (indent : Nat) :
    (members : List (String × Tree)) → PlainText (memberLines indent members)
  | [] => by simp [memberLines]
  | (key, value) :: rest => by
    simp [memberLines, plainText_entryLines _ key value, plainText_memberLines _ rest]

theorem plainText_entryLines (indent : Nat) (key : String) :
    (t : Tree) → PlainText (entryLines indent key t)
  | .array (item :: rest) => by
    rw [entryLines]
    split <;> simp [isPlainText_mark, plainText_simpleKey, plainText_nodeLines _ item,
      plainText_itemLines _ rest]
  | .object ((k, v) :: rest) => by
    rw [entryLines]
    split <;> simp [isPlainText_mark, plainText_simpleKey, plainText_entryLines _ k v,
      plainText_memberLines _ rest]
  | .null | .bool true | .bool false | .number _ | .string _ | .array [] | .object [] => by
    simp only [entryLines]
    split <;> simp [nodeLines, isPlainText_mark, plainText_simpleKey]

end

/-- A text that is written holds nothing that a text may not hold. -/
theorem isAllowed_print (t : Tree) : ∀ c ∈ (print t).toList, isAllowed c = true := by
  have hp : PlainText (print t).toList := by
    unfold print
    rw [String.toList_ofList]
    split
    · exact PlainText.stringLines 2 _
    · exact plainText_nodeLines 0 _
  exact fun c hc => isAllowed_of_isPlainText (hp c hc)

end ApiPresence.Yaml
