import ApiPresence.Proofs.Yaml.Distinct
import ApiPresence.Proofs.Yaml.Key

namespace ApiPresence.Yaml.Value

/-- The entries that a mapping writes out itself. -/
def ownEntries (entries : List (Value × Value)) : List (Value × Value) :=
  entries.filter fun e => !e.1.isMergeKey

/-- The mappings that the merge key of a mapping names, in their order; none without a merge key. -/
inductive MergesFrom (entries : List (Value × Value)) : List (List (Value × Value)) → Prop where
  | none (hn : ∀ e ∈ entries, e.1.isMergeKey = false) : MergesFrom entries []
  | one (hm : (.string "<<", .mapping source) ∈ entries) : MergesFrom entries [source]
  | several (hm : (.string "<<", .sequence (origins.map .mapping)) ∈ entries) :
      MergesFrom entries origins

/-- An entry is a mapping's own, or of the first source that has its key, which no own entry has. -/
inductive Taken (own : List (Value × Value)) (origins : List (List (Value × Value))) :
    Value × Value → Prop where
  | own (he : e ∈ own) : Taken own origins e
  | merged (hs : origins = before ++ source :: after) (he : e ∈ source) (ho : Lacks own e.1)
      (hb : ∀ earlier ∈ before, Lacks earlier e.1) : Taken own origins e

variable {entries own source merged : List (Value × Value)} {origins : List (List (Value × Value))}

theorem mem_ownEntries_iff : e ∈ ownEntries entries ↔ e ∈ entries ∧ e.1.isMergeKey = false := by
  simp [ownEntries]

theorem hasKey_iff : hasKey key entries = true ↔ ¬ Lacks entries key := by
  simp [hasKey, findEntry, Lacks]

/-- An entry is added when its key is not there before. -/
theorem mem_addEntry_iff : e ∈ addEntry own x ↔ e ∈ own ∨ e = x ∧ Lacks own e.1 := by
  rw [addEntry]
  split
  · next hk =>
    refine ⟨.inl, fun h => h.resolve_right ?_⟩
    rintro ⟨rfl, hl⟩
    exact hasKey_iff.mp hk hl
  · next hk =>
    have hl : Lacks own x.1 := Classical.not_not.mp (mt hasKey_iff.mpr hk)
    rw [List.mem_append, List.mem_singleton]
    exact or_congr_right ⟨fun he => ⟨he, he ▸ hl⟩, And.left⟩

theorem lacks_addEntry_iff (ha : x.1.same key = false) :
    Lacks (addEntry own x) key ↔ Lacks own key := by
  refine ⟨fun h e he => h e (mem_addEntry_iff.mpr (.inl he)), fun h e he => ?_⟩
  obtain he | ⟨rfl, -⟩ := mem_addEntry_iff.mp he
  · exact h e he
  · exact ha

/-- The entries of a source are added when their keys are not there before. -/
theorem mem_addEntries_iff (hp : DistinctKeys source) :
    e ∈ addEntries own source ↔ e ∈ own ∨ e ∈ source ∧ Lacks own e.1 := by
  rw [addEntries]
  induction source generalizing own with
  | nil => simp
  | cons x rest ih =>
    obtain ⟨hx, hr⟩ := List.pairwise_cons.mp hp
    have hl : e ∈ rest → (Lacks (addEntry own x) e.1 ↔ Lacks own e.1) :=
      fun he => lacks_addEntry_iff (hx e he)
    rw [List.foldl_cons, ih hr, mem_addEntry_iff, and_congr_right hl, List.mem_cons, or_assoc,
      or_and_right]

theorem mem_of_mem_addEntries (h : e ∈ addEntries own source) : e ∈ own ∨ e ∈ source := by
  rw [addEntries] at h
  induction source generalizing own with
  | nil => exact .inl h
  | cons x rest ih =>
    rcases ih h with h | h
    · rcases mem_addEntry_iff.mp h with h | ⟨rfl, -⟩
      · exact .inl h
      · exact .inr List.mem_cons_self
    · exact .inr (List.mem_cons_of_mem _ h)

theorem mem_of_mem_foldl_addEntries (h : e ∈ origins.foldl addEntries own) :
    e ∈ own ∨ ∃ source ∈ origins, e ∈ source := by
  induction origins generalizing own with
  | nil => exact .inl h
  | cons source rest ih =>
    rcases ih h with h | ⟨other, ho, h⟩
    · exact (mem_of_mem_addEntries h).imp_right fun h => ⟨source, List.mem_cons_self, h⟩
    · exact .inr ⟨other, List.mem_cons_of_mem _ ho, h⟩

/-- What a source adds does not change which keys are lacking, its own keys apart. -/
theorem lacks_addEntries_iff (hp : DistinctKeys source) :
    Lacks (addEntries own source) key ↔ Lacks own key ∧ Lacks source key := by
  constructor
  · intro h
    have ho : Lacks own key := fun e he => h e ((mem_addEntries_iff hp).mpr (.inl he))
    refine ⟨ho, fun e he => ?_⟩
    by_cases hl : Lacks own e.1
    · exact h e ((mem_addEntries_iff hp).mpr (.inr ⟨he, hl⟩))
    · -- The entry was left out for one whose key agrees, and so would agree with this key too.
      obtain ⟨f, hf, hs⟩ : ∃ f ∈ own, f.1.same e.1 = true := by simpa [Lacks] using hl
      rw [Bool.eq_false_iff]
      intro hk
      exact absurd (same_trans f.1 hs hk) (by simp [ho f hf])
  · rintro ⟨ho, hs⟩ e he
    obtain he | ⟨he, -⟩ := (mem_addEntries_iff hp).mp he
    · exact ho e he
    · exact hs e he

/-- Adding the first source turns what is taken of it into own entries. -/
theorem taken_cons_iff (hp : DistinctKeys source) :
    Taken own (source :: origins) e ↔ Taken (addEntries own source) origins e := by
  constructor
  · intro h
    cases h with
    | own he => exact .own ((mem_addEntries_iff hp).mpr (.inl he))
    | @merged before _ _ _ hs he ho hb =>
      cases before with
      | nil =>
        cases hs
        exact .own ((mem_addEntries_iff hp).mpr (.inr ⟨he, ho⟩))
      | cons first before =>
        cases hs
        rw [List.forall_mem_cons] at hb
        exact .merged rfl he ((lacks_addEntries_iff hp).mpr ⟨ho, hb.1⟩) hb.2
  · intro h
    cases h with
    | own he =>
      obtain he | ⟨he, hl⟩ := (mem_addEntries_iff hp).mp he
      · exact .own he
      · exact .merged (List.nil_append _).symm he hl (List.forall_mem_nil _)
    | merged hs he ho hb =>
      subst hs
      obtain ⟨ho, hs⟩ := (lacks_addEntries_iff hp).mp ho
      exact .merged (List.cons_append ..).symm he ho (List.forall_mem_cons.mpr ⟨hs, hb⟩)

/-- The order of the own entries does not matter. -/
theorem Taken.perm (hp : own.Perm others) (h : Taken own origins e) : Taken others origins e := by
  cases h with
  | own he => exact .own (hp.mem_iff.mp he)
  | merged hs he ho hb => exact .merged hs he (fun f hf => ho f (hp.mem_iff.mpr hf)) hb

theorem mem_foldl_addEntries_iff (hp : ∀ source ∈ origins, DistinctKeys source) :
    e ∈ origins.foldl addEntries own ↔ Taken own origins e := by
  induction origins generalizing own with
  | nil =>
    refine ⟨.own, fun h => ?_⟩
    cases h with
    | own he => exact he
    | merged hs => simp at hs
  | cons source rest ih =>
    rw [List.forall_mem_cons] at hp
    rw [List.foldl_cons, ih hp.2, taken_cons_iff hp.1]

theorem last_cons_dropLast_perm (tail : List (Value × Value)) :
    (match tail.getLast? with
      | some last => last :: tail.dropLast
      | none => []).Perm tail := by
  obtain rfl | ⟨init, last, rfl⟩ := List.eq_nil_or_concat tail
  · exact .nil
  · simp only [List.concat_eq_append, List.getLast?_concat, List.dropLast_concat]
    exact (List.perm_append_singleton last init).symm

/-- Taking the merge key out leaves the other entries, in some order. -/
theorem takeMerge_perm (h : takeMerge entries = some (value, rest)) :
    (.string "<<", value) ∈ entries ∧ rest.Perm (entries.eraseP fun e => e.1.isMergeKey) := by
  induction entries generalizing rest with
  | nil => cases h
  | cons e tail ih =>
    obtain ⟨key, own⟩ := e
    rw [takeMerge] at h
    split at h
    · next hk =>
      cases h
      rw [List.eraseP_cons, hk, isMergeKey_iff.mp hk]
      exact ⟨List.mem_cons_self, last_cons_dropLast_perm tail⟩
    · next hk =>
      obtain ⟨⟨found, others⟩, ht, ho⟩ := Option.map_eq_some_iff.mp h
      cases ho
      obtain ⟨hm, hp⟩ := ih ht
      rw [List.eraseP_cons, Bool.eq_false_iff.mpr hk]
      exact ⟨List.mem_cons_of_mem _ hm, hp.cons _⟩

theorem takeMerge_eq_none_iff :
    takeMerge entries = none ↔ ∀ e ∈ entries, e.1.isMergeKey = false := by
  induction entries with
  | nil => simp [takeMerge]
  | cons e tail ih =>
    obtain ⟨key, own⟩ := e
    rw [takeMerge, List.forall_mem_cons, ← ih]
    split <;> simp_all

theorem sources_eq_ok (h : sources items = .ok origins) : items = origins.map .mapping := by
  induction items generalizing origins with
  | nil =>
    cases h
    rfl
  | cons item rest ih =>
    cases item with
    | mapping source =>
      obtain ⟨more, hm, h⟩ := bind_eq_ok_iff.mp h
      cases h
      rw [List.map_cons, ← ih hm]
    | _ => cases h

theorem mergeOwn_eq_ok (h : mergeOwn entries = .ok merged) : ∃ origins own,
    MergesFrom entries origins ∧ own.Perm (entries.eraseP fun e => e.1.isMergeKey) ∧
      merged = origins.foldl addEntries own := by
  rw [mergeOwn] at h
  cases ht : takeMerge entries with
  | none =>
    rw [ht] at h
    cases h
    have hn := takeMerge_eq_none_iff.mp ht
    rw [List.eraseP_of_forall_not (by simpa using hn)]
    exact ⟨[], entries, .none hn, .rfl, rfl⟩
  | some found =>
    obtain ⟨value, own⟩ := found
    obtain ⟨hm, hp⟩ := takeMerge_perm ht
    rw [ht] at h
    cases value with
    | mapping source =>
      cases h
      exact ⟨[source], own, .one hm, hp, rfl⟩
    | sequence items =>
      obtain ⟨origins, ho, h⟩ := bind_eq_ok_iff.mp h
      cases h
      rw [sources_eq_ok ho] at hm
      exact ⟨origins, own, .several hm, hp, rfl⟩
    | _ => cases h

theorem eq_of_same (hp : DistinctKeys entries) (he : e ∈ entries) (hf : f ∈ entries)
    (h : e.1.same f.1 = true) (h' : f.1.same e.1 = true) : e = f := by
  induction entries with
  | nil => cases he
  | cons x rest ih =>
    obtain ⟨hx, hr⟩ := List.pairwise_cons.mp hp
    cases he with
    | head =>
      cases hf with
      | head => rfl
      | tail _ hf => exact absurd h (by simp [hx f hf])
    | tail _ he =>
      cases hf with
      | head => exact absurd h' (by simp [hx e he])
      | tail _ hf => exact ih hr he hf

theorem merge_value_unique (hp : DistinctKeys entries) (h : (.string "<<", value) ∈ entries)
    (h' : (.string "<<", other) ∈ entries) : value = other :=
  congrArg Prod.snd (eq_of_same hp h h' rfl rfl)

theorem eraseP_eq_ownEntries (hp : DistinctKeys entries) :
    (entries.eraseP fun e => e.1.isMergeKey) = ownEntries entries := by
  induction entries with
  | nil => rfl
  | cons x rest ih =>
    obtain ⟨hx, hr⟩ := List.pairwise_cons.mp hp
    rw [List.eraseP_cons, ownEntries, List.filter_cons]
    cases hk : x.1.isMergeKey with
    | true =>
      have hn (e) (he : e ∈ rest) : e.1.isMergeKey = false := by
        rw [Bool.eq_false_iff]
        intro hm
        have hf := hx e he
        rw [isMergeKey_iff.mp hk, isMergeKey_iff.mp hm] at hf
        cases hf
      exact (List.filter_eq_self.mpr (by simpa using hn)).symm
    | false => exact congrArg (x :: ·) (ih hr)

theorem MergesFrom.unique (hp : DistinctKeys entries) (h : MergesFrom entries origins)
    (h' : MergesFrom entries others) : origins = others := by
  cases h with
  | none hn =>
    cases h' with
    | none => rfl
    | one hm | several hm => exact absurd (hn _ hm) (by simp [isMergeKey])
  | one hm =>
    cases h' with
    | none hn => exact absurd (hn _ hm) (by simp [isMergeKey])
    | one hm' => cases merge_value_unique hp hm hm'; rfl
    | several hm' => cases merge_value_unique hp hm hm'
  | several hm =>
    cases h' with
    | none hn => exact absurd (hn _ hm) (by simp [isMergeKey])
    | one hm' => cases merge_value_unique hp hm hm'
    | several hm' =>
      have hs := sequence.inj (merge_value_unique hp hm hm')
      exact List.map_inj_right (fun _ _ => mapping.inj) |>.mp hs

/-- The sources of a merge have distinct keys, as all parts of a value that is read. -/
theorem MergesFrom.distinct (h : MergesFrom entries origins) (hd : (mapping entries).Distinct)
    (hs : source ∈ origins) : (mapping source).Distinct := by
  cases h with
  | none => cases hs
  | one hm =>
    rw [List.mem_singleton.mp hs]
    exact hd.entry hm
  | several hm => exact (hd.entry hm).element (List.mem_map_of_mem hs)

/-- What a mapping holds once its merge key is followed is what is taken of its sources. -/
theorem mem_mergeOwn_iff (hd : (mapping entries).Distinct) (hm : MergesFrom entries origins)
    (h : mergeOwn entries = .ok merged) : e ∈ merged ↔ Taken (ownEntries entries) origins e := by
  obtain ⟨others, own, ho, hp, rfl⟩ := mergeOwn_eq_ok h
  have hk := hd.keys
  cases hm.unique hk ho
  rw [eraseP_eq_ownEntries hk] at hp
  rw [mem_foldl_addEntries_iff fun source hs => (hm.distinct hd hs).keys]
  exact ⟨.perm hp, .perm hp.symm⟩

end ApiPresence.Yaml.Value
