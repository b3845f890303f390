import ApiPresence.Proofs.Tree.Alter
import ApiPresence.Proofs.Validation.Reads

namespace ApiPresence

variable {d d' : Tree} {category : Category} {place : List String} {status : Status}
  {change : Nat → Nat}

/-- The summary with the number of keys of one category changed, if it counts them. -/
def Summary.recount (s : Summary) (category : Category) (change : Nat → Nat) : Summary :=
  { s with
    pathCount := if category = .path then change s.pathCount else s.pathCount
    schemaCount := if category = .schema then change s.schemaCount else s.schemaCount }

/-- The check with another status, if it is of the key. -/
def Check.settle (c : Check) (category : Category) (key : String) (status : Status) : Check :=
  if c.category = category ∧ c.identifier = key then { c with status } else c

/-- The report with another status for all checks of a key, and another number of such keys. -/
def Report.revise (r : Report) (category : Category) (key : String) (status : Status)
    (change : Nat → Nat) : Report :=
  ⟨r.summary.recount category change, r.checks.map (·.settle category key status)⟩

theorem Status.eq_of_present_iff {s t : Status} (h : s = .present ↔ t = .present) : s = t := by
  cases s <;> cases t <;> simp_all

/-- Two documents are alike wherever a validation reads but at one place. -/
def AlikeBut (place : List String) (d d' : Tree) : Prop :=
  ∀ other ∈ readPlaces, other ≠ place → d.AlikeAt d' other

namespace AlikeBut

theorem symm (h : AlikeBut place d d') : AlikeBut place d' d :=
  fun other ho hne => (h other ho hne).symm

theorem of_alterAt (hp : place ∈ readPlaces) (change : Tree → Tree) :
    AlikeBut place d (d.alterAt place change) := by
  intro other ho hne
  apply Tree.AlikeAt.same
  rw [Tree.lookup_alterAt_of_apart]
  · intro h
    exact hne (eq_of_prefix_of_read place hp other ho h).symm
  · intro h
    exact hne (eq_of_prefix_of_read other ho place hp h)

theorem mappingLenAt_eq (h : AlikeBut place d d') (hp : category.keyPlace = some place)
    (hn : d'.mappingLenAt place = change (d.mappingLenAt place))
    (other : Category) (ho : other.keyPlace = some otherPlace) : d'.mappingLenAt otherPlace =
      if category = other then change (d.mappingLenAt otherPlace)
      else d.mappingLenAt otherPlace := by
  by_cases hc : category = other
  · subst hc
    cases hp.symm.trans ho
    rw [if_pos rfl, hn]
  · have hne : otherPlace ≠ place := by
      rintro rfl
      exact hc (Category.keyPlace_injective (hp.trans ho.symm))
    rw [if_neg hc]
    exact (h otherPlace (Category.mem_readPlaces ho) hne).mappingLenAt_eq.symm

theorem summarize_eq (h : AlikeBut place d d') (hp : category.keyPlace = some place)
    (hn : d'.mappingLenAt place = change (d.mappingLenAt place)) :
    summarize d' = (summarize d).recount category change := by
  have hm : ∀ other ∈ metadataPlaces, d.AlikeAt d' other := by
    intro other ho
    apply h other (List.mem_append_left _ ho)
    rintro rfl
    exact Category.not_mem_metadataPlaces hp ho
  rw [ApiPresence.summarize_eq hm, h.mappingLenAt_eq hp hn .path rfl,
    h.mappingLenAt_eq hp hn .schema rfl]
  rfl

theorem check_eq (h : AlikeBut place d d') (hp : category.keyPlace = some place)
    (hk : ∀ k, d'.Defines place k ↔ if k = key then status = .present else d.Defines place k)
    {x : Expectation} (hx : x.category.keyPlace = some x.place) :
    x.check d' = (x.check d).settle category key status := by
  by_cases hc : x.category = category
  · have hplace : x.place = place := by
      rw [hc, hp] at hx
      exact (Option.some.inj hx).symm
    have hd := x.check_present_iff d'
    rw [hplace, hk] at hd
    by_cases hi : x.identifier = key
    · rw [if_pos hi] at hd
      rw [Check.settle, if_pos ⟨hc, hi⟩, ← Status.eq_of_present_iff hd]
      rfl
    · rw [if_neg hi, ← hplace, ← x.check_present_iff d] at hd
      rw [Check.settle, if_neg fun h => hi h.2, Expectation.check, Expectation.check]
      exact congrArg _ (Status.eq_of_present_iff hd)
  · have hne : x.place ≠ place := by
      intro he
      rw [he] at hx
      exact hc (Category.keyPlace_injective (hx.trans hp.symm))
    rw [Check.settle, if_neg fun h => hc h.1]
    exact (h x.place (Category.mem_readPlaces hx) hne).check_eq.symm

/-- Where the keys of one category differ by one key, so do the reports. -/
theorem validate_eq (h : AlikeBut place d d') (hp : category.keyPlace = some place)
    (hn : d'.mappingLenAt place = change (d.mappingLenAt place))
    (hk : ∀ k, d'.Defines place k ↔ if k = key then status = .present else d.Defines place k)
    (e : ExpectationSet) :
    validate e d' = (validate e d).revise category key status change := by
  have hc : (validate e d').checks = (validate e d).checks.map (·.settle category key status) := by
    rw [validate_checks, validate_checks, List.map_map]
    apply List.map_congr_left
    intro x hx
    exact h.check_eq hp hk (ExpectationSet.keyPlace_of_mem hx)
  rw [Report.revise, ← hc]
  exact congrArg (Report.mk · _) (h.summarize_eq hp hn)

end AlikeBut

/-- A key that a section has not got settles its own checks and is counted, and nothing else. -/
theorem validate_insertAt (e : ExpectationSet) (hp : category.keyPlace = some place)
    (ho : d.Reaches place (.object members)) (hk : key ∉ members.map Prod.fst) (value : Tree) :
    validate e (d.insertAt place key value) =
        (validate e d).revise category key .present (· + 1) ∧
      validate e d =
        (validate e (d.insertAt place key value)).revise category key .missing (· - 1) := by
  have ha : AlikeBut place d (d.insertAt place key value) :=
    .of_alterAt (Category.mem_readPlaces hp) _
  have hi : (d.insertAt place key value).Reaches place
      (.object (Tree.setMember key value members)) := ho.alterAt _
  have hm : (Tree.setMember key value members).Perm ((key, value) :: members) :=
    Tree.setMember_perm hk
  have hn : (d.insertAt place key value).mappingLenAt place = d.mappingLenAt place + 1 := by
    rw [Tree.mappingLenAt_eq, Tree.mappingLenAt_eq, Tree.keysAt_of_reaches hi,
      Tree.keysAt_of_reaches ho, List.length_map, List.length_map, hm.length_eq, List.length_cons]
  have hd (k) : (d.insertAt place key value).Defines place k ↔ k = key ∨ d.Defines place k := by
    rw [hi.defines_iff, ho.defines_iff, (hm.map Prod.fst).mem_iff, List.map_cons, List.mem_cons]
  constructor
  · apply ha.validate_eq hp hn
    intro k
    rw [hd]
    by_cases h : k = key <;> simp [h]
  · apply ha.symm.validate_eq hp (by rw [hn, Nat.add_sub_cancel])
    intro k
    rw [hd]
    by_cases h : k = key
    · simp [h, ho.defines_iff, hk]
    · simp [h]

/--
A key of a section tells on its own checks alone. Where it is inserted, the checks of it become
present and the keys of the section are one more; where it is deleted, the checks become missing and
the keys are one fewer. All else in the report stays, and each of the two undoes the other.
-/
theorem key_settles_own_checks (e : ExpectationSet) (hp : category.keyPlace = some place)
    (ho : d.Reaches place (.object members)) (key : String) (value : Tree) :
    (key ∉ members.map Prod.fst →
      validate e (d.insertAt place key value) =
          (validate e d).revise category key .present (· + 1) ∧
        validate e d =
          (validate e (d.insertAt place key value)).revise category key .missing (· - 1) ∧
        (d.insertAt place key value).removeAt place key = d) ∧
    (d.Ordered → (key, value) ∈ members →
      validate e (d.removeAt place key) =
          (validate e d).revise category key .missing (· - 1) ∧
        validate e d =
          (validate e (d.removeAt place key)).revise category key .present (· + 1) ∧
        (d.removeAt place key).insertAt place key value = d) := by
  constructor
  · intro hk
    obtain ⟨hi, hr⟩ := validate_insertAt e hp ho hk value
    exact ⟨hi, hr, Tree.removeAt_insertAt ho hk value⟩
  · intro hd hm
    have hs := (Tree.ordered_object_iff.mp (hd.reaches ho)).1
    have hb := Tree.insertAt_removeAt ho hs hm
    have hr : (d.removeAt place key).Reaches place (.object (Tree.removeMember key members)) :=
      ho.alterAt _
    have hn : key ∉ (Tree.removeMember key members).map Prod.fst := by
      simp [Tree.removeMember]
    -- Deleting is inserting seen from the other side.
    obtain ⟨hi, hd⟩ := validate_insertAt e hp hr hn value
    rw [hb] at hi hd
    exact ⟨hd, hi, hb⟩

/-- A name that is expected of every section, and of the schemas twice. -/
theorem key_settles_own_checks_shared :
    let e : ExpectationSet := ⟨["A"], ["A", "B", "A"], "A"⟩
    let d : Tree := .object [("components", .object [
      ("schemas", .object [("B", .null)]), ("securitySchemes", .object [("A", .null)])])]
    Category.schema.keyPlace = some ["components", "schemas"] ∧
      d.Reaches ["components", "schemas"] (.object [("B", .null)]) ∧
      "A" ∉ ["B"] ∧ d.Ordered ∧ ("B", Tree.null) ∈ [("B", Tree.null)] ∧
      validate e (d.insertAt ["components", "schemas"] "A" .null) =
        (validate e d).revise .schema "A" .present (· + 1) ∧
      (validate e d).checks.map (·.status) = [.missing, .missing, .present, .missing, .present] ∧
      ((validate e d).revise .schema "A" .present (· + 1)).checks.map (·.status) =
        [.missing, .present, .present, .present, .present] ∧
      validate e (d.removeAt ["components", "schemas"] "B") =
        (validate e d).revise .schema "B" .missing (· - 1) := by
  intro e d
  have hr : d.Reaches ["components", "schemas"] (.object [("B", .null)]) :=
    Tree.lookup_eq_some_iff.mp (by decide)
  have hd : d.Ordered := by
    simp only [d, Tree.Ordered, Tree.OrderedMembers]
    decide +kernel
  have hm : ("B", Tree.null) ∈ [("B", Tree.null)] := List.mem_cons_self
  have hn : "A" ∉ ["B"] := by decide
  exact ⟨rfl, hr, hn, hd, hm, ((key_settles_own_checks e rfl hr "A" .null).1 hn).1, by decide,
    by decide, ((key_settles_own_checks e rfl hr "B" .null).2 hd hm).1⟩

end ApiPresence
