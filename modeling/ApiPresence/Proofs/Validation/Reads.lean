import ApiPresence.Proofs.Tree.Ordered
import ApiPresence.Proofs.Validation

namespace ApiPresence

/-- The places of which a summary shows the content, or how long it is. -/
def metadataPlaces : List (List String) :=
  [["openapi"], ["info", "title"], ["info", "description"], ["servers"], ["tags"]]

/-- The places that a validation reads. -/
def readPlaces : List (List String) :=
  metadataPlaces ++ [pathsSection, schemasSection, securitySchemesSection]

/-- No place that is read leads to another or through it. -/
theorem eq_of_prefix_of_read :
    ∀ place ∈ readPlaces, ∀ other ∈ readPlaces, place <+: other → place = other := by decide

/-- Where the keys of a category stand; metadata has no keys. -/
def Category.keyPlace : Category → Option (List String)
  | .metadata => none
  | .path => some pathsSection
  | .schema => some schemasSection
  | .security => some securitySchemesSection

theorem Category.mem_readPlaces {category : Category} (h : category.keyPlace = some place) :
    place ∈ readPlaces := by
  cases category <;> cases h <;> decide

theorem Category.not_mem_metadataPlaces {category : Category}
    (h : category.keyPlace = some place) : place ∉ metadataPlaces := by
  cases category <;> cases h <;> decide

theorem Category.keyPlace_injective : Function.Injective keyPlace := by
  intro category other
  cases category <;> cases other <;> decide

theorem ExpectationSet.keyPlace_of_mem {e : ExpectationSet} (h : x ∈ e.toList) :
    x.category.keyPlace = some x.place := by
  rw [e.toList_eq, List.mem_append, List.mem_append, mem_expectAll_iff, mem_expectAll_iff,
    mem_expectAll_iff] at h
  rcases h with (⟨hc, hp, -⟩ | ⟨hc, hp, -⟩) | ⟨hc, hp, -⟩ <;> rw [hc, hp] <;> rfl

namespace Tree

variable {d d' : Tree}

/-- The keys of the object at a place, and none where there is no object. -/
def keysAt (d : Tree) (place : List String) : List String :=
  ((d.mappingAt place).getD []).map Prod.fst

theorem mappingLenAt_eq (d : Tree) (place : List String) :
    d.mappingLenAt place = (d.keysAt place).length :=
  (List.length_map _).symm

theorem hasKeyAt_eq (d : Tree) (place : List String) (key : String) :
    d.hasKeyAt place key = decide (key ∈ d.keysAt place) := by
  rw [hasKeyAt, keysAt]
  cases d.mappingAt place with
  | none => rfl
  | some members => rw [Bool.eq_iff_iff]; simp

theorem mem_keysAt_iff : key ∈ d.keysAt place ↔ d.Defines place key := by
  rw [← hasKeyAt_iff, hasKeyAt_eq, decide_eq_true_iff]

theorem keysAt_of_reaches (h : d.Reaches place (.object members)) :
    d.keysAt place = members.map Prod.fst := by
  rw [keysAt, mappingAt_eq_some_iff.mpr h, Option.getD_some]

theorem Reaches.defines_iff (h : d.Reaches place (.object members)) :
    d.Defines place key ↔ key ∈ members.map Prod.fst := by
  rw [← mem_keysAt_iff, keysAt_of_reaches h]

theorem Ordered.nodup_keysAt (h : d.Ordered) (place : List String) : (d.keysAt place).Nodup := by
  rw [keysAt]
  cases hm : d.mappingAt place with
  | none => exact .nil
  | some members =>
    have ho := ordered_object_iff.mp (h.reaches (mappingAt_eq_some_iff.mp hm))
    exact ho.1.imp LT.lt.ne

/--
Two documents hold the same at a place, or sequences as long as each other, or objects with the same
keys.
-/
inductive AlikeAt (d d' : Tree) (place : List String) : Prop where
  | same (h : d.lookup place = d'.lookup place)
  | items (h : d.lookup place = some (.array items)) (h' : d'.lookup place = some (.array items'))
      (hl : items.length = items'.length)
  | keys (h : d.lookup place = some (.object members))
      (h' : d'.lookup place = some (.object members'))
      (hk : members.map Prod.fst = members'.map Prod.fst)

namespace AlikeAt

theorem symm (h : d.AlikeAt d' place) : d'.AlikeAt d place := by
  cases h with
  | same h => exact .same h.symm
  | items h h' hl => exact .items h' h hl.symm
  | keys h h' hk => exact .keys h' h hk.symm

theorem scalarAt_eq (h : d.AlikeAt d' place) : d.scalarAt place = d'.scalarAt place := by
  cases h with
  | same h => rw [scalarAt, scalarAt, h]
  | items h h' => rw [scalarAt, scalarAt, h, h']; rfl
  | keys h h' => rw [scalarAt, scalarAt, h, h']; rfl

theorem stringAt_eq (h : d.AlikeAt d' place) : d.stringAt place = d'.stringAt place := by
  cases h with
  | same h => rw [stringAt, stringAt, h]
  | items h h' => rw [stringAt, stringAt, h, h']
  | keys h h' => rw [stringAt, stringAt, h, h']

theorem sequenceLenAt_eq (h : d.AlikeAt d' place) :
    d.sequenceLenAt place = d'.sequenceLenAt place := by
  rw [sequenceLenAt, sequenceLenAt, sequenceAt, sequenceAt]
  cases h with
  | same h => rw [h]
  | items h h' hl => rw [h, h']; exact hl
  | keys h h' => rw [h, h']

theorem keysAt_eq (h : d.AlikeAt d' place) : d.keysAt place = d'.keysAt place := by
  rw [keysAt, keysAt, mappingAt, mappingAt]
  cases h with
  | same h => rw [h]
  | items h h' => rw [h, h']
  | keys h h' hk => rw [h, h']; exact hk

theorem mappingLenAt_eq (h : d.AlikeAt d' place) :
    d.mappingLenAt place = d'.mappingLenAt place := by
  rw [Tree.mappingLenAt_eq, Tree.mappingLenAt_eq, h.keysAt_eq]

theorem check_eq {x : Expectation} (h : d.AlikeAt d' x.place) : x.check d = x.check d' := by
  rw [Expectation.check, Expectation.check, hasKeyAt_eq, hasKeyAt_eq, h.keysAt_eq]

end AlikeAt

end Tree

/-- Where the metadata is alike, only the counts of keys may differ. -/
theorem summarize_eq (h : ∀ place ∈ metadataPlaces, d.AlikeAt d' place) :
    summarize d' = { summarize d with
      pathCount := d'.mappingLenAt pathsSection
      schemaCount := d'.mappingLenAt schemasSection } := by
  simp only [metadataPlaces, List.forall_mem_cons] at h
  obtain ⟨hversion, htitle, hdescription, hservers, htags, -⟩ := h
  rw [summarize, summarize, hversion.scalarAt_eq, htitle.scalarAt_eq, hdescription.stringAt_eq,
    hservers.sequenceLenAt_eq, htags.sequenceLenAt_eq]

/-- A report depends on no more of a document than the outlines of what stands where it reads. -/
theorem validate_congr (e : ExpectationSet) (h : ∀ place ∈ readPlaces, d.AlikeAt d' place) :
    validate e d = validate e d' := by
  have hs : summarize d = summarize d' := by
    have hp := (h pathsSection (by decide)).mappingLenAt_eq
    have hsch := (h schemasSection (by decide)).mappingLenAt_eq
    rw [summarize_eq fun place hm => h place (List.mem_append_left _ hm), ← hp, ← hsch]
    rfl
  have hc : e.toList.map (·.check d) = e.toList.map (·.check d') := by
    apply List.map_congr_left
    intro x hx
    have hp := Category.mem_readPlaces (ExpectationSet.keyPlace_of_mem hx)
    exact (h x.place hp).check_eq
  rw [validate, validate, hs, hc]

end ApiPresence
