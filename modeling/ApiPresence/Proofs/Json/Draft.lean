import ApiPresence.Proofs.Json.Elements

namespace ApiPresence.Json

/-- An object with one member of a name more, at any place. -/
def Object.Gains (name : String) (o o' : Object) : Prop :=
  ∃ before m after, o.members = before ++ after ∧ o'.members = before ++ m :: after ∧ m.Names name

/-- An object in which the value of a member of a name is another object. -/
def Object.Alters (o : Object) (name : String) (inner inner' o' : Object) : Prop :=
  ∃ before m m' after, o.members = before ++ m :: after ∧ o'.members = before ++ m' :: after ∧
    (m.Names name ∧ m.value.value = inner.text) ∧ m'.Names name ∧ m'.value.value = inner'.text

/-- A field that is set stays set, and reading a field sets it. -/
structure IsDraft (fields : List (Field σ)) : Prop where
  sets : ∀ f ∈ fields, ∀ {s text s₁ rest}, f.read s text = .ok (s₁, rest) → f.isSet s₁ = true
  keeps : ∀ f ∈ fields, ∀ g ∈ fields, ∀ {s text s₁ rest}, f.read s text = .ok (s₁, rest) →
    g.isSet s = true → g.isSet s₁ = true

/-- A change of drafts that fields of other names do not notice. -/
structure ChangesOnly (fields : List (Field σ)) (name : String) (change : σ → σ) : Prop where
  isSet : ∀ f ∈ fields, f.name ≠ name → ∀ s, f.isSet (change s) = f.isSet s
  read : ∀ f ∈ fields, f.name ≠ name → ∀ {s text s₁ rest}, f.read s text = .ok (s₁, rest) →
    f.read (change s) text = .ok (change s₁, rest)

/-- A change of drafts that takes back what a field has set, and that other fields do not notice. -/
structure Clears (fields : List (Field σ)) (f : Field σ) (clear : σ → σ) : Prop
    extends ChangesOnly fields f.name clear where
  undoes : ∀ {s text s₁ rest}, f.isSet s = false → f.read s text = .ok (s₁, rest) → clear s₁ = s

variable {σ : Type} {fields : List (Field σ)} {f : Field σ} {s s₁ s' : σ} {change : σ → σ}
  {m m' : Member} {before after ms : List Member} {name : String} {o o' inner inner' : Object}

/-- Of an object a reader of a structure makes what its members settle. -/
theorem readStructure_finish_iff (hfields : ∀ f ∈ fields, f.ReadsValue) (ho : o.IsWellFormed)
    (finish : σ → α) : (do
      let (d, rest) ← readStructure expected fields s (o.text ++ more)
      .ok (finish d, rest)) = .ok (a, rest) ↔
    rest = more ∧ ∃ d, Settles fields s o.members d ∧ a = finish d := by
  rw [bind_eq_ok_iff]
  constructor
  · rintro ⟨⟨d, behindObject⟩, hd, h⟩
    cases h
    obtain ⟨hr, hd⟩ := (readStructure_object_iff hfields ho).mp hd
    exact ⟨hr, d, hd, rfl⟩
  · rintro ⟨rfl, d, hd, rfl⟩
    exact ⟨(d, _), (readStructure_object_iff hfields ho).mpr ⟨rfl, hd⟩, rfl⟩

namespace Settles

theorem append_iff : Settles fields s (before ++ after) s' ↔
    ∃ s₁, Settles fields s before s₁ ∧ Settles fields s₁ after s' := by
  induction before generalizing s with
  | nil =>
    constructor
    · exact fun h => ⟨s, .nil, h⟩
    · rintro ⟨s₁, hb, ha⟩
      cases settles_nil_iff.mp hb
      exact ha
  | cons m before ih =>
    constructor
    · intro h
      cases h with
      | unknown hn hf h =>
        obtain ⟨s₁, hb, ha⟩ := ih.mp h
        exact ⟨s₁, .unknown hn hf hb, ha⟩
      | known hn hf hs hr h =>
        obtain ⟨s₁, hb, ha⟩ := ih.mp h
        exact ⟨s₁, .known hn hf hs hr hb, ha⟩
    · rintro ⟨s₁, hb, ha⟩
      cases hb with
      | unknown hn hf hb => exact .unknown hn hf (ih.mpr ⟨s₁, hb, ha⟩)
      | known hn hf hs hr hb => exact .known hn hf hs hr (ih.mpr ⟨s₁, hb, ha⟩)

/-- Members of unknown names make no difference. -/
theorem gains (h : Settles fields s o.members s') (hg : o.Gains name o')
    (hf : name ∉ fields.map (·.name)) : Settles fields s o'.members s' := by
  obtain ⟨before, m, after, ho, ho', hn⟩ := hg
  have hf : fields.find? (·.name = name) = none := by simpa using hf
  rw [ho, append_iff] at h
  obtain ⟨s₁, hb, ha⟩ := h
  rw [ho', append_iff]
  exact ⟨s₁, hb, .unknown hn hf ha⟩

/-- Once a field is set, the rest of the object does not name it again. -/
theorem changed (hd : IsDraft fields) (hc : ChangesOnly fields name change)
    (h : Settles fields s ms s') (hf : fields.find? (·.name = name) = some f)
    (hs : f.isSet s = true) : Settles fields (change s) ms (change s') := by
  have hmem := List.mem_of_find?_eq_some hf
  induction h with
  | nil => exact .nil
  | unknown hn hnone _ ih => exact .unknown hn hnone (ih hs)
  | @known other g _ _ _ _ _ hn hg hunset hr _ ih =>
    have hgmem := List.mem_of_find?_eq_some hg
    have hgname : g.name = other := by simpa using List.find?_some hg
    have hne : g.name ≠ name := by
      rintro rfl
      rw [hgname, hg] at hf
      cases hf
      rw [hs] at hunset
      cases hunset
    refine .known hn hg ?_ (hc.read g hgmem hne hr) (ih (hd.keeps g hgmem f hmem hr hs))
    rw [hc.isSet g hgmem hne, hunset]

/-- Other members in place of one of a known name change what becomes of it, and nothing else. -/
theorem revise (hd : IsDraft fields) (hc : ChangesOnly fields name change)
    (h : Settles fields s (before ++ m :: after) s') (hn : m.Names name)
    (hf : fields.find? (·.name = name) = some f)
    (hm : ∀ {s₀ s₁}, f.isSet s₀ = false → f.read s₀ m.value.value = .ok (s₁, []) →
      Settles fields s₀ ms (change s₁)) :
    Settles fields s (before ++ (ms ++ after)) (change s') := by
  obtain ⟨s₀, hb, h⟩ := append_iff.mp h
  obtain ⟨hs, s₁, hr, ha⟩ := (settles_known_iff hn hf).mp h
  have hset := hd.sets f (List.mem_of_find?_eq_some hf) hr
  exact append_iff.mpr ⟨s₀, hb, append_iff.mpr ⟨_, hm hs hr, ha.changed hd hc hf hset⟩⟩

/-- Without its member a field is as it was in the beginning. -/
theorem loses (hd : IsDraft fields) (hc : Clears fields f change)
    (h : Settles fields s o'.members s') (hg : o.Gains f.name o')
    (hf : fields.find? (·.name = f.name) = some f) : Settles fields s o.members (change s') := by
  obtain ⟨before, m, after, ho, ho', hn⟩ := hg
  rw [ho'] at h
  rw [ho, ← List.nil_append after]
  apply h.revise hd hc.toChangesOnly hn hf
  intro s₀ s₁ hs hr
  rw [hc.undoes hs hr]
  exact .nil

/-- With another value of its member a field is read from that. -/
theorem alters (hd : IsDraft fields) (hc : ChangesOnly fields name change)
    (h : Settles fields s o.members s') (ha : o.Alters name inner inner' o')
    (hf : fields.find? (·.name = name) = some f)
    (hm : ∀ {s₀ s₁}, f.read s₀ inner.text = .ok (s₁, []) →
      f.read s₀ inner'.text = .ok (change s₁, [])) :
    Settles fields s o'.members (change s') := by
  obtain ⟨before, m, m', after, ho, ho', ⟨hn, hv⟩, hn', hv'⟩ := ha
  rw [ho] at h
  rw [ho', ← List.singleton_append]
  apply h.revise hd hc hn hf
  intro s₀ s₁ hs hr
  rw [hv] at hr
  apply Settles.known hn' hf hs _ .nil
  rw [hv']
  exact hm hr

theorem exists_read (h : Settles fields s (before ++ m :: after) s') (hn : m.Names name)
    (hf : fields.find? (·.name = name) = some f) :
    ∃ s₀ s₁, f.read s₀ m.value.value = .ok (s₁, []) ∧ Settles fields s₁ after s' := by
  obtain ⟨s₀, -, h⟩ := append_iff.mp h
  obtain ⟨-, s₁, hr, ha⟩ := (settles_known_iff hn hf).mp h
  exact ⟨s₀, s₁, hr, ha⟩

theorem keeps (hd : IsDraft fields) (hf : f ∈ fields) (h : Settles fields s ms s')
    (hs : f.isSet s = true) : f.isSet s' = true := by
  induction h with
  | nil => exact hs
  | unknown _ _ _ ih => exact ih hs
  | known _ hg _ hr _ ih => exact ih (hd.keeps _ (List.mem_of_find?_eq_some hg) f hf hr hs)

/-- A field that is named is set in the end. -/
theorem isSet (hd : IsDraft fields) (h : Settles fields s (before ++ m :: after) s')
    (hn : m.Names name) (hf : fields.find? (·.name = name) = some f) : f.isSet s' = true := by
  obtain ⟨_, _, hr, ha⟩ := h.exists_read hn hf
  have hmem := List.mem_of_find?_eq_some hf
  exact ha.keeps hd hmem (hd.sets f hmem hr)

end Settles

/-- A part of a draft that a field of its own fills. -/
structure Slot (σ α : Type) where
  name : String
  read : List Char → Except Fault (α × List Char)
  get : σ → Option α
  put : Option α → σ → σ

namespace Slot

def field (slot : Slot σ α) : Field σ :=
  ⟨slot.name, fun s => (slot.get s).isSome, fun s text => do
    let (a, rest) ← slot.read text
    .ok (slot.put (some a) s, rest)⟩

/-- Nothing that is put into a slot shows in another one. -/
structure Apart (slot : Slot σ α) (other : Slot σ β) : Prop where
  name : slot.name ≠ other.name
  get_put : ∀ b s, slot.get (other.put b s) = slot.get s
  put_comm : ∀ a b s, slot.put a (other.put b s) = other.put b (slot.put a s)

/-- What is put into a slot is got out of it, and takes the place of what was there. -/
structure Lawful (slot : Slot σ α) : Prop where
  get_put : ∀ a s, slot.get (slot.put a s) = a
  put_put : ∀ a b s, slot.put a (slot.put b s) = slot.put a s
  put_get : ∀ s, slot.put (slot.get s) s = s

/-- The fields are slots: this one, and others apart from it. -/
structure IsOf (slot : Slot σ α) (fields : List (Field σ)) : Prop extends slot.Lawful where
  others : ∀ f ∈ fields, f = slot.field ∨ ∃ (β : Type) (other : Slot σ β), f = other.field ∧
    other.Apart slot ∧ slot.Apart other

variable {α β : Type} {slot : Slot σ α} {text rest : List Char}

theorem read_field_iff : slot.field.read s text = .ok (s₁, rest) ↔
    ∃ a, slot.read text = .ok (a, rest) ∧ s₁ = slot.put (some a) s := by
  constructor
  · intro h
    obtain ⟨⟨a, _⟩, ha, h⟩ := bind_eq_ok_iff.mp h
    cases h
    exact ⟨a, ha, rfl⟩
  · rintro ⟨a, ha, rfl⟩
    exact bind_eq_ok_iff.mpr ⟨(a, rest), ha, rfl⟩

theorem readsValue_field (h : Json.ReadsValue slot.read) : slot.field.ReadsValue :=
  fun s => h.map fun a => slot.put (some a) s

theorem IsOf.changesOnly (h : slot.IsOf fields) (change : Option α → Option α) :
    ChangesOnly fields slot.name fun s => slot.put (change (slot.get s)) s where
  isSet f hf hn s := by
    obtain rfl | ⟨β, other, rfl, ho, -⟩ := h.others f hf
    · exact absurd rfl hn
    · exact congrArg Option.isSome (ho.get_put _ s)
  read f hf hn _ _ _ _ hr := by
    obtain rfl | ⟨β, other, rfl, ho, hs⟩ := h.others f hf
    · exact absurd rfl hn
    · obtain ⟨a, ha, rfl⟩ := read_field_iff.mp hr
      apply read_field_iff.mpr ⟨a, ha, _⟩
      rw [hs.get_put, ho.put_comm]

theorem IsOf.clears (h : slot.IsOf fields) : Clears fields slot.field (slot.put none) where
  toChangesOnly := h.changesOnly fun _ => none
  undoes {s _ _ _} hs hr := by
    obtain ⟨a, -, rfl⟩ := read_field_iff.mp hr
    have hn : slot.get s = none := Option.not_isSome_iff_eq_none.mp (Bool.eq_false_iff.mp hs)
    rw [h.put_put, ← hn, h.put_get]

theorem isDraft (h : ∀ f ∈ fields, ∃ (α : Type) (slot : Slot σ α), f = slot.field ∧
    slot.IsOf fields) : IsDraft fields where
  sets f hf _ _ _ _ hr := by
    obtain ⟨α, slot, rfl, hs⟩ := h f hf
    obtain ⟨a, -, rfl⟩ := read_field_iff.mp hr
    exact congrArg Option.isSome (hs.get_put _ _)
  keeps f hf g hg _ _ _ _ hr hset := by
    obtain ⟨α, slot, rfl, hs⟩ := h f hf
    obtain ⟨a, -, rfl⟩ := read_field_iff.mp hr
    obtain rfl | ⟨β, other, rfl, ho, -⟩ := hs.others g hg
    · exact congrArg Option.isSome (hs.get_put _ _)
    · exact (congrArg Option.isSome (ho.get_put _ _)).trans hset

theorem isOf_pair {other : Slot σ β} (hs : slot.Lawful) (ho : other.Lawful)
    (ha : slot.Apart other) (hb : other.Apart slot) :
    slot.IsOf [slot.field, other.field] ∧ other.IsOf [slot.field, other.field] := by
  refine ⟨⟨hs, ?_⟩, ⟨ho, ?_⟩⟩ <;> rw [List.forall_mem_cons, List.forall_mem_singleton]
  · exact ⟨.inl rfl, .inr ⟨_, _, rfl, hb, ha⟩⟩
  · exact ⟨.inr ⟨_, _, rfl, ha, hb⟩, .inl rfl⟩

theorem isDraft_pair (slot : Slot σ α) (other : Slot σ β)
    (h : slot.IsOf [slot.field, other.field] ∧ other.IsOf [slot.field, other.field]) :
    IsDraft [slot.field, other.field] := by
  apply isDraft
  rw [List.forall_mem_cons, List.forall_mem_singleton]
  exact ⟨⟨_, _, rfl, h.1⟩, _, _, rfl, h.2⟩

end Slot

end ApiPresence.Json
