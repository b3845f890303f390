import ApiPresence.Description
import ApiPresence.Proofs.Members
import ApiPresence.Proofs.Yaml.Merge

namespace ApiPresence.Yaml

namespace Value

theorem depth_le_depthItems (h : item ∈ items) : item.depth ≤ depthItems items := by
  induction items with
  | nil => cases h
  | cons first rest ih =>
    rw [depthItems]
    cases h with
    | head => exact Nat.le_max_left _ _
    | tail _ h => exact Nat.le_trans (ih h) (Nat.le_max_right _ _)

theorem depth_le_depthEntries (h : e ∈ entries) : e.2.depth ≤ depthEntries entries := by
  induction entries with
  | nil => cases h
  | cons first rest ih =>
    obtain ⟨key, value⟩ := first
    rw [depthEntries]
    cases h with
    | head => exact Nat.le_max_left _ _
    | tail _ h => exact Nat.le_trans (ih h) (Nat.le_max_right _ _)

theorem MergesFrom.depth_le (h : MergesFrom entries origins) (hs : source ∈ origins)
    (he : e ∈ source) : e.2.depth ≤ depthEntries entries := by
  have hd := depth_le_depthEntries he
  cases h with
  | none => cases hs
  | one hm =>
    cases List.mem_singleton.mp hs
    have hm := depth_le_depthEntries hm
    simp only [depth] at hm
    omega
  | several hm =>
    have hm := depth_le_depthEntries hm
    have hi := depth_le_depthItems (List.mem_map_of_mem (f := mapping) hs)
    simp only [depth] at hm hi
    omega

/-- Following a merge key makes nothing deeper. -/
theorem depth_mergeOwn_le (h : mergeOwn entries = .ok merged) (he : e ∈ merged) :
    e.2.depth ≤ depthEntries entries := by
  obtain ⟨origins, own, ho, hp, rfl⟩ := mergeOwn_eq_ok h
  rcases mem_of_mem_foldl_addEntries he with he | ⟨source, hs, he⟩
  · exact depth_le_depthEntries (List.mem_of_mem_eraseP (hp.mem_iff.mp he))
  · exact ho.depth_le hs he

theorem resolveWithin_sequence_iff : resolveWithin (n + 1) (.sequence items) = .ok r ↔
    ∃ done, List.Forall₂ (fun v w => resolveWithin n v = .ok w) items done ∧
      r = .sequence done := by
  rw [resolveWithin, bind_eq_ok_iff]
  refine exists_congr fun done => and_congr (foldrM_eq_ok_iff fun v done out => ?_) ok_eq_ok_iff
  rw [bind_eq_ok_iff]
  exact exists_congr fun w => and_congr_right fun _ => ok_eq_ok_iff

theorem resolveWithin_mapping_iff : resolveWithin (n + 1) (.mapping entries) = .ok r ↔
    ∃ merged done, mergeOwn entries = .ok merged ∧
      List.Forall₂ (fun e f => resolveWithin n e.2 = .ok f.2 ∧ f.1 = e.1) merged done ∧
      r = .mapping done := by
  rw [resolveWithin, bind_eq_ok_iff]
  refine exists_congr fun merged => ?_
  rw [bind_eq_ok_iff, ← exists_and_left]
  refine exists_congr fun done => and_congr_right fun _ =>
    and_congr (foldrM_eq_ok_iff fun e done out => ?_) ok_eq_ok_iff
  rw [bind_eq_ok_iff]
  constructor
  · rintro ⟨value, hv, h⟩
    exact ⟨(e.1, value), ⟨hv, rfl⟩, ok_eq_ok_iff.mp h⟩
  · rintro ⟨⟨key, value⟩, ⟨hv, rfl⟩, rfl⟩
    exact ⟨value, hv, rfl⟩

theorem resolveWithin_tagged_iff : resolveWithin (n + 1) (.tagged name value) = .ok r ↔
    ∃ done, resolveWithin n value = .ok done ∧ r = .tagged name done := by
  rw [resolveWithin, bind_eq_ok_iff]
  exact exists_congr fun done => and_congr_right fun _ => ok_eq_ok_iff

theorem resolveWithin_of_depth_eq_zero (hd : value.depth = 0) :
    resolveWithin n value = .ok value := by
  cases n with
  | zero => rfl
  | succ n =>
    cases value with
    | null | bool | number | string => rfl
    | sequence | mapping | tagged => cases hd

/-- Any number of levels that reaches down to the bottom gives the same. -/
theorem resolveWithin_of_depth_le (hn : value.depth ≤ n) (hm : value.depth ≤ m)
    (h : resolveWithin n value = .ok r) : resolveWithin m value = .ok r := by
  induction n generalizing value m r with
  | zero =>
    have hd := Nat.le_zero.mp hn
    rw [resolveWithin_of_depth_eq_zero hd] at h ⊢
    exact h
  | succ n ih =>
    cases value with
    | null | bool | number | string => rwa [resolveWithin_of_depth_eq_zero rfl] at h ⊢
    | sequence items =>
      rw [depth] at hn hm
      obtain ⟨m, rfl⟩ := Nat.exists_eq_add_of_le' (Nat.le_trans (Nat.le_add_left 1 _) hm)
      obtain ⟨done, hd, rfl⟩ := resolveWithin_sequence_iff.mp h
      refine resolveWithin_sequence_iff.mpr ⟨done, forall₂_of_mem (fun v hv w hw => ?_) hd, rfl⟩
      have hl := depth_le_depthItems hv
      exact ih (by omega) (by omega) hw
    | mapping entries =>
      rw [depth] at hn hm
      obtain ⟨m, rfl⟩ := Nat.exists_eq_add_of_le' (Nat.le_trans (Nat.le_add_left 1 _) hm)
      obtain ⟨merged, done, ho, hd, rfl⟩ := resolveWithin_mapping_iff.mp h
      refine resolveWithin_mapping_iff.mpr
        ⟨merged, done, ho, forall₂_of_mem (fun e he f hf => ?_) hd, rfl⟩
      have hl := depth_mergeOwn_le ho he
      exact ⟨ih (by omega) (by omega) hf.1, hf.2⟩
    | tagged name value =>
      rw [depth] at hn hm
      obtain ⟨m, rfl⟩ := Nat.exists_eq_add_of_le' (Nat.le_trans (Nat.le_add_left 1 _) hm)
      obtain ⟨done, hd, rfl⟩ := resolveWithin_tagged_iff.mp h
      exact resolveWithin_tagged_iff.mpr ⟨done, ih (by omega) (by omega) hd, rfl⟩

theorem resolveWithin_eq_ok_iff (hn : value.depth ≤ n) :
    resolveWithin n value = .ok r ↔ value.resolve = .ok r :=
  ⟨resolveWithin_of_depth_le hn (Nat.le_refl _), resolveWithin_of_depth_le (Nat.le_refl _) hn⟩

theorem resolve_sequence_iff : (sequence items).resolve = .ok r ↔
    ∃ done, List.Forall₂ (fun v w => v.resolve = .ok w) items done ∧ r = .sequence done := by
  rw [resolve, depth, resolveWithin_sequence_iff]
  refine exists_congr fun done => and_congr_left fun _ => forall₂_congr_mem fun v hv w => ?_
  exact resolveWithin_eq_ok_iff (depth_le_depthItems hv)

theorem resolve_mapping_iff : (mapping entries).resolve = .ok r ↔
    ∃ merged done, mergeOwn entries = .ok merged ∧
      List.Forall₂ (fun e f => e.2.resolve = .ok f.2 ∧ f.1 = e.1) merged done ∧
      r = .mapping done := by
  rw [resolve, depth, resolveWithin_mapping_iff]
  refine exists_congr fun merged => exists_congr fun done => and_congr_right fun hm =>
    and_congr_left fun _ => forall₂_congr_mem fun e he f => and_congr_left fun _ => ?_
  exact resolveWithin_eq_ok_iff (depth_mergeOwn_le hm he)

theorem resolve_tagged_iff : (tagged name value).resolve = .ok r ↔
    ∃ done, value.resolve = .ok done ∧ r = .tagged name done := by
  rw [resolve, depth, resolveWithin_tagged_iff]
  rfl

theorem toTrees_eq_ok_iff : toTrees items = .ok trees ↔
    List.Forall₂ (fun v t => toTree v = .ok t) items trees := by
  induction items generalizing trees with
  | nil => rw [toTrees, ok_eq_ok_iff, List.forall₂_nil_left_iff]
  | cons item rest ih =>
    rw [toTrees, bind_eq_ok_iff, List.forall₂_cons_left_iff]
    refine exists_congr fun tree => ?_
    rw [bind_eq_ok_iff, ← exists_and_left]
    exact exists_congr fun others => and_congr_right fun _ => and_congr ih ok_eq_ok_iff

theorem toEntries_eq_ok_iff : toEntries entries = .ok members ↔
    List.Forall₂ (fun e m => e.1.keyText = .ok m.1 ∧ toTree e.2 = .ok m.2) entries members := by
  induction entries generalizing members with
  | nil => rw [toEntries, ok_eq_ok_iff, List.forall₂_nil_left_iff]
  | cons e rest ih =>
    obtain ⟨key, value⟩ := e
    rw [toEntries, bind_eq_ok_iff, List.forall₂_cons_left_iff]
    constructor
    · rintro ⟨text, hk, h⟩
      obtain ⟨tree, ht, h⟩ := bind_eq_ok_iff.mp h
      obtain ⟨others, ho, h⟩ := bind_eq_ok_iff.mp h
      cases h
      exact ⟨(text, tree), others, ⟨hk, ht⟩, ih.mp ho, rfl⟩
    · rintro ⟨⟨text, tree⟩, others, ⟨hk, ht⟩, ho, rfl⟩
      refine ⟨text, hk, ?_⟩
      refine bind_eq_ok_iff.mpr ⟨tree, ht, ?_⟩
      exact bind_eq_ok_iff.mpr ⟨others, ih.mpr ho, rfl⟩

/-- The tree that a value is turned into once its merge keys are followed. -/
def Becomes (value : Value) (tree : Tree) : Prop :=
  ∃ resolved, value.resolve = .ok resolved ∧ resolved.toTree = .ok tree

theorem Becomes.unique (h : Becomes value tree) (h' : Becomes value other) : tree = other := by
  obtain ⟨r, hr, ht⟩ := h
  obtain ⟨s, hs, ho⟩ := h'
  rw [hr] at hs
  cases hs
  rw [ht] at ho
  exact Except.ok.inj ho

theorem becomes_sequence_iff : Becomes (.sequence items) tree ↔
    ∃ trees, List.Forall₂ Becomes items trees ∧ tree = .array trees := by
  constructor
  · rintro ⟨resolved, hr, ht⟩
    obtain ⟨done, hd, rfl⟩ := resolve_sequence_iff.mp hr
    obtain ⟨trees, hts, ht⟩ := bind_eq_ok_iff.mp ht
    cases ht
    exact ⟨trees, forall₂_comp_iff.mp ⟨done, hd, toTrees_eq_ok_iff.mp hts⟩, rfl⟩
  · rintro ⟨trees, h, rfl⟩
    obtain ⟨done, hd, hts⟩ := forall₂_comp_iff.mpr h
    refine ⟨.sequence done, resolve_sequence_iff.mpr ⟨done, hd, rfl⟩, ?_⟩
    exact bind_eq_ok_iff.mpr ⟨trees, toTrees_eq_ok_iff.mpr hts, rfl⟩

theorem becomes_tagged_iff : Becomes (.tagged name value) tree ↔
    ∃ inner, Becomes value inner ∧ tree = .object [("!" ++ name, inner)] := by
  constructor
  · rintro ⟨resolved, hr, ht⟩
    obtain ⟨done, hd, rfl⟩ := resolve_tagged_iff.mp hr
    obtain ⟨inner, hi, ht⟩ := bind_eq_ok_iff.mp ht
    cases ht
    exact ⟨inner, ⟨done, hd, hi⟩, rfl⟩
  · rintro ⟨inner, ⟨done, hd, hi⟩, rfl⟩
    refine ⟨.tagged name done, resolve_tagged_iff.mpr ⟨done, hd, rfl⟩, ?_⟩
    exact bind_eq_ok_iff.mpr ⟨inner, hi, rfl⟩

/-- A mapping becomes an object of its merged entries, each by the text of its key. -/
theorem becomes_mapping_iff : Becomes (.mapping entries) tree ↔
    ∃ merged members, mergeOwn entries = .ok merged ∧
      List.Forall₂ (fun e m => e.1.keyText = .ok m.1 ∧ Becomes e.2 m.2) merged members ∧
      tree = .object (Tree.gather members) := by
  constructor
  · rintro ⟨resolved, hr, ht⟩
    obtain ⟨merged, done, hm, hd, rfl⟩ := resolve_mapping_iff.mp hr
    obtain ⟨members, hms, ht⟩ := bind_eq_ok_iff.mp ht
    cases ht
    have hc := forall₂_comp_iff.mp ⟨done, hd, toEntries_eq_ok_iff.mp hms⟩
    refine ⟨merged, members, hm, hc.imp ?_, rfl⟩
    rintro e m ⟨f, ⟨hf, hk⟩, ht, hv⟩
    exact ⟨hk ▸ ht, f.2, hf, hv⟩
  · rintro ⟨merged, members, hm, h, rfl⟩
    have hc : List.Forall₂ (fun e m => ∃ f : Value × Value, (e.2.resolve = .ok f.2 ∧ f.1 = e.1) ∧
        f.1.keyText = .ok m.1 ∧ f.2.toTree = .ok m.2) merged members := by
      refine h.imp ?_
      rintro e m ⟨ht, done, hd, hv⟩
      exact ⟨(e.1, done), ⟨hd, rfl⟩, ht, hv⟩
    obtain ⟨done, hd, hms⟩ := forall₂_comp_iff.mpr hc
    refine ⟨.mapping done, resolve_mapping_iff.mpr ⟨merged, done, hm, hd, rfl⟩, ?_⟩
    exact bind_eq_ok_iff.mpr ⟨members, toEntries_eq_ok_iff.mpr hms, rfl⟩

theorem toTree_number_eq_ok (h : toTree (.number n) = .ok tree) :
    tree = .null ∨ tree = .number n := by
  cases n with
  | whole value inRange => exact .inr (ok_eq_ok_iff.mp h)
  | float value =>
    cases value with
    | finite negative rank => exact .inr (ok_eq_ok_iff.mp h)
    | infinite | nan => exact .inl (ok_eq_ok_iff.mp h)

/-- Nothing but a collection or a tagged value becomes a tree with nodes inside. -/
theorem Becomes.of_depth_eq_zero (h : Becomes value tree) (hd : value.depth = 0) :
    (∀ trees, tree ≠ .array trees) ∧ ∀ members, tree ≠ .object members := by
  obtain ⟨resolved, hr, ht⟩ := h
  rw [resolve, resolveWithin_of_depth_eq_zero hd] at hr
  cases hr
  cases value with
  | null | bool | string =>
    cases ht
    exact ⟨nofun, nofun⟩
  | number n => rcases toTree_number_eq_ok ht with rfl | rfl <;> exact ⟨nofun, nofun⟩
  | sequence | mapping | tagged => cases hd

theorem Becomes.array_inv (h : Becomes value (.array trees)) :
    ∃ items, value = .sequence items ∧ List.Forall₂ Becomes items trees := by
  cases value with
  | null | bool | number | string => exact absurd rfl ((h.of_depth_eq_zero rfl).1 trees)
  | sequence items =>
    obtain ⟨others, ht, he⟩ := becomes_sequence_iff.mp h
    cases he
    exact ⟨items, rfl, ht⟩
  | mapping entries =>
    obtain ⟨merged, members, -, -, he⟩ := becomes_mapping_iff.mp h
    cases he
  | tagged name value =>
    obtain ⟨inner, -, he⟩ := becomes_tagged_iff.mp h
    cases he

theorem Becomes.object_inv (h : Becomes value (.object members)) :
    (∃ name inner tree, value = .tagged name inner ∧ Becomes inner tree ∧
      members = [("!" ++ name, tree)]) ∨ ∃ entries, value = .mapping entries := by
  cases value with
  | null | bool | number | string => exact absurd rfl ((h.of_depth_eq_zero rfl).2 members)
  | sequence items =>
    obtain ⟨trees, -, he⟩ := becomes_sequence_iff.mp h
    cases he
  | mapping entries => exact .inr ⟨entries, rfl⟩
  | tagged name value =>
    obtain ⟨inner, hi, he⟩ := becomes_tagged_iff.mp h
    cases he
    exact .inl ⟨name, value, inner, rfl, hi, rfl⟩

/-- A member of the object of a mapping is what a taken entry of that key has become. -/
theorem Becomes.exists_taken (h : Becomes (.mapping entries) (.object members))
    (hd : (mapping entries).Distinct) (hm : MergesFrom entries origins)
    (ht : (s, tree) ∈ members) :
    ∃ e, Taken (ownEntries entries) origins e ∧ e.1.keyText = .ok s ∧ Becomes e.2 tree := by
  obtain ⟨merged, found, ho, hf, he⟩ := becomes_mapping_iff.mp h
  cases he
  obtain ⟨before, after, rfl, -⟩ := Tree.mem_gather_iff.mp ht
  obtain ⟨e, he, hk, hb⟩ := forall₂_mem_right hf (List.mem_append_right before List.mem_cons_self)
  exact ⟨e, (mem_mergeOwn_iff hd hm ho).mp he, hk, hb⟩

theorem Becomes.exists_member (h : Becomes (.mapping entries) (.object members))
    (hd : (mapping entries).Distinct) (hm : MergesFrom entries origins)
    (he : Taken (ownEntries entries) origins e) (hk : e.1.keyText = .ok s) :
    ∃ tree, (s, tree) ∈ members := by
  obtain ⟨merged, found, ho, hf, hg⟩ := becomes_mapping_iff.mp h
  cases hg
  obtain ⟨m, hx, ht, -⟩ := forall₂_mem_left hf ((mem_mergeOwn_iff hd hm ho).mpr he)
  rw [hk] at ht
  cases ht
  obtain ⟨tree, hl⟩ := Tree.exists_lastOf_iff.mpr (List.mem_map_of_mem hx)
  exact ⟨tree, Tree.mem_gather_iff.mpr hl⟩

theorem Becomes.sorted (h : Becomes (.mapping entries) (.object members)) :
    (members.map Prod.fst).Pairwise (· < ·) := by
  obtain ⟨merged, found, -, -, he⟩ := becomes_mapping_iff.mp h
  cases he
  exact Tree.gather_sorted found

end Value

theorem loadMerged_eq_ok_iff : loadMerged content = .ok resolved ↔
    ∃ value, load content = .ok value ∧ value.resolve = .ok resolved := by
  rw [loadMerged, bind_eq_ok_iff]
  exact exists_congr fun value => and_congr_right fun _ => mapError_eq_ok_iff

/-- A text is turned into the tree that its value becomes. -/
theorem parseYaml_eq_ok_iff : parseYaml path content = .ok tree ↔
    ∃ value, load content = .ok value ∧ value.Becomes tree := by
  rw [parseYaml]
  constructor
  · intro h
    cases hl : loadMerged content with
    | error fault => simp [hl] at h
    | ok resolved =>
      obtain ⟨value, hv, hr⟩ := loadMerged_eq_ok_iff.mp hl
      cases ht : resolved.toTree with
      | error fault => simp [hl, ht] at h
      | ok found =>
        simp only [hl, ht, Except.ok.injEq] at h
        exact ⟨value, hv, resolved, hr, h ▸ ht⟩
  · rintro ⟨value, hv, resolved, hr, ht⟩
    have hl := loadMerged_eq_ok_iff.mpr ⟨value, hv, hr⟩
    simp [hl, ht]

end ApiPresence.Yaml
