import ApiPresence.Proofs.Number
import ApiPresence.Yaml.Convert
import ApiPresence.Yaml.Merge

namespace ApiPresence

theorem Binary64.sameValue_trans {x y z : Binary64} (h : x.sameValue y = true)
    (h' : y.sameValue z = true) : x.sameValue z = true := by
  cases x <;> cases y <;> cases z <;> simp [sameValue] at h h' ⊢
  all_goals grind

theorem Number.sameValue_trans {m n k : Number} (h : m.sameValue n = true)
    (h' : n.sameValue k = true) : m.sameValue k = true := by
  cases m <;> cases n <;> cases k <;> simp [sameValue] at h h' ⊢
  · exact h.trans h'
  · exact Binary64.sameValue_trans h h'

namespace Yaml.Value

theorem same_null_iff : null.same b = true ↔ b = .null := by
  cases b <;> simp [same]

theorem same_bool_iff : (bool x).same b = true ↔ b = .bool x := by
  cases b with
  | bool y => simp only [same, beq_iff_eq, bool.injEq, @eq_comm _ x]
  | _ => simp [same]

theorem same_number_iff : (number m).same b = true ↔
    ∃ n, b = .number n ∧ m.sameValue n = true := by
  cases b <;> simp [same]

theorem same_string_iff : (string s).same b = true ↔ b = .string s := by
  cases b with
  | string t => simp only [same, beq_iff_eq, string.injEq, @eq_comm _ s]
  | _ => simp [same]

theorem same_sequence_iff : (sequence items).same b = true ↔
    ∃ others, b = .sequence others ∧ sameItems items others = true := by
  cases b <;> simp [same]

theorem same_mapping_iff : (mapping entries).same b = true ↔
    ∃ others, b = .mapping others ∧ entries.length = others.length ∧
      sameEntries entries others = true := by
  cases b <;> simp [same]

theorem same_tagged_iff : (tagged name a).same b = true ↔
    ∃ other, b = .tagged name other ∧ a.same other = true := by
  cases b with
  | tagged t c => simp [same, @eq_comm _ name, and_assoc]
  | _ => simp [same]

theorem sameEntries_iff : sameEntries entries others = true ↔
    ∀ e ∈ entries, ∃ f ∈ others, e.1.same f.1 = true ∧ e.2.same f.2 = true := by
  induction entries with
  | nil => simp [sameEntries]
  | cons e rest ih => simp [sameEntries, ih]

mutual

/-- Keys that agree with the same key agree. -/
theorem same_trans : (a : Value) → a.same b = true → b.same c = true → a.same c = true
  | .null, h, h' => by
    obtain rfl := same_null_iff.mp h
    exact h'
  | .bool x, h, h' => by
    obtain rfl := same_bool_iff.mp h
    exact h'
  | .number m, h, h' => by
    obtain ⟨n, rfl, hn⟩ := same_number_iff.mp h
    obtain ⟨k, rfl, hk⟩ := same_number_iff.mp h'
    exact same_number_iff.mpr ⟨k, rfl, Number.sameValue_trans hn hk⟩
  | .string s, h, h' => by
    obtain rfl := same_string_iff.mp h
    exact h'
  | .sequence items, h, h' => by
    obtain ⟨bs, rfl, hb⟩ := same_sequence_iff.mp h
    obtain ⟨cs, rfl, hc⟩ := same_sequence_iff.mp h'
    exact same_sequence_iff.mpr ⟨cs, rfl, sameItems_trans items hb hc⟩
  | .mapping entries, h, h' => by
    obtain ⟨bs, rfl, hl, hb⟩ := same_mapping_iff.mp h
    obtain ⟨cs, rfl, hl', hc⟩ := same_mapping_iff.mp h'
    exact same_mapping_iff.mpr ⟨cs, rfl, hl.trans hl', sameEntries_trans entries hb hc⟩
  | .tagged name a, h, h' => by
    obtain ⟨b, rfl, hb⟩ := same_tagged_iff.mp h
    obtain ⟨c, rfl, hc⟩ := same_tagged_iff.mp h'
    exact same_tagged_iff.mpr ⟨c, rfl, same_trans a hb hc⟩

theorem sameItems_trans : (items : List Value) → sameItems items bs = true →
    sameItems bs cs = true → sameItems items cs = true
  | [], h, h' => by
    cases bs with
    | nil => exact h'
    | cons b bs => cases h
  | a :: rest, h, h' => by
    cases bs with
    | nil => cases h
    | cons b bs =>
      cases cs with
      | nil => cases h'
      | cons c cs =>
        rw [sameItems, Bool.and_eq_true] at h h' ⊢
        exact ⟨same_trans a h.1 h'.1, sameItems_trans rest h.2 h'.2⟩

theorem sameEntries_trans : (entries : List (Value × Value)) → sameEntries entries bs = true →
    sameEntries bs cs = true → sameEntries entries cs = true
  | [], _, _ => rfl
  | (key, value) :: rest, h, h' => by
    rw [sameEntries_iff, List.forall_mem_cons] at h
    obtain ⟨⟨f, hf, hk, hv⟩, hr⟩ := h
    obtain ⟨g, hg, hk', hv'⟩ := sameEntries_iff.mp h' f hf
    rw [sameEntries_iff, List.forall_mem_cons]
    refine ⟨⟨g, hg, same_trans key hk hk', same_trans value hv hv'⟩, ?_⟩
    exact sameEntries_iff.mp (sameEntries_trans rest (sameEntries_iff.mpr hr) h')

end

theorem isMergeKey_iff {key : Value} : key.isMergeKey = true ↔ key = .string "<<" := by
  cases key <;> simp [isMergeKey]

/-- No other key agrees with the merge key. -/
theorem same_of_isMergeKey {a key : Value} (hk : key.isMergeKey = true) :
    a.same key = a.isMergeKey := by
  rw [isMergeKey_iff.mp hk]
  cases a <;> simp [same, isMergeKey]

theorem keyText_number (h : (number n).keyText = .ok s) : s.toList = Json.numberText n := by
  cases n with
  | whole value inRange =>
    cases h
    exact String.toList_ofList
  | float value =>
    cases value with
    | finite negative rank =>
      cases h
      exact String.toList_ofList
    | infinite | nan => cases h

/-- Only the merge key has the text of the merge key. -/
theorem keyText_eq_merge_iff {key : Value} : key.keyText = .ok "<<" ↔ key.isMergeKey = true := by
  rw [isMergeKey_iff]
  refine ⟨fun h => ?_, fun h => by rw [h, keyText]⟩
  cases key with
  | string s =>
    rw [keyText] at h
    rw [Except.ok.inj h]
  | bool value => cases value <;> simp [keyText] at h
  | number n =>
    have hn : '<' ∉ Json.numberText n := Json.not_mem_numberText (by decide) (by decide) n
    rw [← keyText_number h] at hn
    exact absurd (by decide) hn
  | null | sequence | mapping | tagged => simp [keyText] at h

end Yaml.Value
end ApiPresence
