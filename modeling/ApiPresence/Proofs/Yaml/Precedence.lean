import ApiPresence.Proofs.Yaml.Kept

namespace ApiPresence.Yaml

namespace Value

variable {entries own : List (Value × Value)} {origins : List (List (Value × Value))}
  {members : List (String × Tree)}

/-- For a text, own entries come before those of sources and earlier sources before later ones. -/
structure Precedence (own : List (Value × Value)) (origins : List (List (Value × Value)))
    (members : List (String × Tree)) (s : String) : Prop where
  explicit : (∃ e ∈ own, e.1.keyText = .ok s) →
    ∃ e ∈ own, e.1.keyText = .ok s ∧ ∃ tree, Tree.member? s members = some tree ∧ Becomes e.2 tree
  earliest {before source after} : (∀ e ∈ own, e.1.keyText ≠ .ok s) →
    origins = before ++ source :: after →
    (∀ earlier ∈ before, ∀ e ∈ earlier, e.1.keyText ≠ .ok s) →
    (∃ e ∈ source, e.1.keyText = .ok s) →
      ∃ e ∈ source, e.1.keyText = .ok s ∧
        ∃ tree, Tree.member? s members = some tree ∧ Becomes e.2 tree
  absent : (∀ e ∈ own, e.1.keyText ≠ .ok s) →
    (∀ source ∈ origins, ∀ e ∈ source, e.1.keyText ≠ .ok s) → Tree.member? s members = none

/-- The entries whose keys have a text are those whose keys agree with one that has it. -/
def Agrees (own : List (Value × Value)) (origins : List (List (Value × Value))) (s : String) :
    Prop :=
  ∀ e ∈ own ++ origins.flatten, ∀ f ∈ own ++ origins.flatten,
    e.1.keyText = .ok s → (f.1.keyText = .ok s ↔ f.1.same e.1 = true)

/-- Exactly the texts of taken entries are found, each with what one of its entries becomes. -/
structure Chosen (own : List (Value × Value)) (origins : List (List (Value × Value)))
    (members : List (String × Tree)) (s : String) : Prop where
  found : (∃ e, Taken own origins e ∧ e.1.keyText = .ok s) →
    ∃ tree, Tree.member? s members = some tree
  taken {tree} : Tree.member? s members = some tree →
    ∃ e, Taken own origins e ∧ e.1.keyText = .ok s ∧ Becomes e.2 tree

theorem Becomes.chosen (h : Becomes (.mapping entries) (.object members))
    (hd : (mapping entries).Distinct) (hm : MergesFrom entries origins) (s : String) :
    Chosen (ownEntries entries) origins members s := by
  constructor
  · rintro ⟨e, he, hk⟩
    obtain ⟨tree, ht⟩ := h.exists_member hd hm he hk
    exact ⟨tree, (Tree.member?_eq_some_iff h.sorted).mpr ht⟩
  · intro tree ht
    exact h.exists_taken hd hm ((Tree.member?_eq_some_iff h.sorted).mp ht)

theorem mem_all (hs : source ∈ origins) (he : e ∈ source) : e ∈ own ++ origins.flatten :=
  List.mem_append_right _ (List.mem_flatten.mpr ⟨source, hs, he⟩)

/-- An entry whose key has another text does not agree with one that has the text. -/
theorem Agrees.same_eq_false (ha : Agrees own origins s) (he : e ∈ own ++ origins.flatten)
    (hf : f ∈ own ++ origins.flatten) (hk : e.1.keyText = .ok s) (hn : f.1.keyText ≠ .ok s) :
    f.1.same e.1 = false := by
  rw [Bool.eq_false_iff]
  intro hs
  exact hn ((ha e he f hf hk).mpr hs)

/-- What is taken of the sources for a text comes from the first source that has the text. -/
theorem Agrees.mem_first (ha : Agrees own (before ++ source :: after) s)
    (hn : ∀ e ∈ own, e.1.keyText ≠ .ok s)
    (hb : ∀ earlier ∈ before, ∀ e ∈ earlier, e.1.keyText ≠ .ok s) (he : e ∈ source)
    (hk : e.1.keyText = .ok s) (hf : Taken own (before ++ source :: after) f)
    (hk' : f.1.keyText = .ok s) : f ∈ source := by
  cases hf with
  | own hf => exact absurd hk' (hn f hf)
  | @merged front other _ _ hs hf _ hl =>
    rcases List.append_eq_append_iff.mp hs with ⟨mid, rfl, hr⟩ | ⟨mid, rfl, hr⟩
    · cases mid with
      | nil =>
        cases hr
        exact hf
      | cons first mid =>
        -- The source stands in front of the one that has the entry, so their keys do not agree.
        cases hr
        have hm := (ha f (mem_all (by simp) hf) e (mem_all (by simp) he) hk').mp hk
        rw [hl source (by simp) e he] at hm
        cases hm
    · cases mid with
      | nil =>
        cases hr
        exact hf
      | cons first mid =>
        cases hr
        exact absurd hk' (hb other (by simp) f hf)

theorem Chosen.precedence (h : Chosen own origins members s) (ha : Agrees own origins s) :
    Precedence own origins members s := by
  constructor
  · rintro ⟨e, he, hk⟩
    obtain ⟨tree, ht⟩ := h.found ⟨e, .own he, hk⟩
    obtain ⟨f, hf, hk', hb⟩ := h.taken ht
    cases hf with
    | own hf => exact ⟨f, hf, hk', tree, ht, hb⟩
    | merged hs hf ho =>
      subst hs
      have hm := (ha f (mem_all (by simp) hf) e (List.mem_append_left _ he) hk').mp hk
      rw [ho e he] at hm
      cases hm
  · rintro before source after hn rfl hb ⟨e, he, hk⟩
    have hm : e ∈ own ++ (before ++ source :: after).flatten := mem_all (by simp) he
    have ht : Taken own (before ++ source :: after) e := by
      apply Taken.merged rfl he
      · intro f hf
        exact ha.same_eq_false hm (List.mem_append_left _ hf) hk (hn f hf)
      · intro earlier hl f hf
        exact ha.same_eq_false hm (mem_all (List.mem_append_left _ hl) hf) hk (hb earlier hl f hf)
    obtain ⟨tree, hv⟩ := h.found ⟨e, ht, hk⟩
    obtain ⟨f, hf, hk', hbe⟩ := h.taken hv
    exact ⟨f, ha.mem_first hn hb he hk hf hk', hk', tree, hv, hbe⟩
  · intro hn hs
    rw [Option.eq_none_iff_forall_ne_some]
    intro tree ht
    obtain ⟨e, he, hk, -⟩ := h.taken ht
    cases he with
    | own he => exact hn e he hk
    | merged ho he =>
      subst ho
      exact hs _ (List.mem_append_right _ List.mem_cons_self) e he hk

end Value

/--
Precedence is decided by keys, before they become texts: the object of every mapping that is kept
holds what is taken of its entries and its sources, and for a text that stands for one key own
entries and earlier sources come first. The text of a merge key is left out.
-/
theorem parseYaml_precedence (h : parseYaml path content = .ok tree) :
    ∃ value, load content = .ok value ∧ ∀ entries origins,
      value.Kept (.mapping entries) → Value.MergesFrom entries origins →
        ∃ members, tree.Holds (.object members) ∧
          Value.Becomes (.mapping entries) (.object members) ∧ ∀ s, s ≠ "<<" →
            Value.Chosen (Value.ownEntries entries) origins members s ∧
              (Value.Agrees (Value.ownEntries entries) origins s →
                Value.Precedence (Value.ownEntries entries) origins members s) := by
  obtain ⟨value, hl, hb⟩ := parseYaml_eq_ok_iff.mp h
  refine ⟨value, hl, fun entries origins hk hm => ?_⟩
  obtain ⟨node, hn, hh⟩ := hk.exists_node hb
  obtain ⟨merged, found, -, -, rfl⟩ := Value.becomes_mapping_iff.mp hn
  have hc := hn.chosen (hk.distinct (load_distinct hl)) hm
  exact ⟨_, hh, hn, fun s _ => ⟨hc s, (hc s).precedence⟩⟩

/-- Precedence by the texts of keys alone. -/
def TextPrecedence (content : String) : Prop :=
  ∀ path tree value entries origins members s, s ≠ "<<" → parseYaml path content = .ok tree →
    load content = .ok value → value.Kept (.mapping entries) →
      Value.MergesFrom entries origins → Value.Becomes (.mapping entries) (.object members) →
        Value.Precedence (Value.ownEntries entries) origins members s

set_option maxRecDepth 100000 in
theorem load_quotedMerge : load "true: own\n<<:\n  'true': merged\n" =
    .ok (.mapping [(.bool true, .string "own"),
      (.string "<<", .mapping [(.string "true", .string "merged")])]) := by
  cbv

set_option maxRecDepth 100000 in
theorem load_zeroMerge : load "-0.0: own\n<<:\n  0.0: merged\n" =
    .ok (.mapping [(.number (.float (.zero true)), .string "own"),
      (.string "<<", .mapping [(.number (.float (.zero false)), .string "merged")])]) := by
  cbv

theorem becomes_quotedMerge : Value.Becomes (.mapping [(.bool true, .string "own"),
    (.string "<<", .mapping [(.string "true", .string "merged")])])
    (.object [("true", .string "merged")]) :=
  ⟨_, rfl, rfl⟩

theorem becomes_zeroMerge : Value.Becomes (.mapping [(.number (.float (.zero true)), .string "own"),
    (.string "<<", .mapping [(.number (.float (.zero false)), .string "merged")])])
    (.object [("-0.0", .string "own")]) :=
  ⟨_, rfl, rfl⟩

/-- Different keys can have one text, and keys that agree can have two. -/
theorem not_textPrecedence : ¬ TextPrecedence "true: own\n<<:\n  'true': merged\n" ∧
    ¬ TextPrecedence "-0.0: own\n<<:\n  0.0: merged\n" := by
  constructor
  · intro h
    have hp := h "openapi.yaml" _ _ _ _ _ "true" (by decide)
      (parseYaml_eq_ok_iff.mpr ⟨_, load_quotedMerge, becomes_quotedMerge⟩) load_quotedMerge .whole
      (.one (List.mem_cons_of_mem _ List.mem_cons_self)) becomes_quotedMerge
    obtain ⟨e, he, -, tree, hv, hx⟩ := hp.explicit ⟨_, List.mem_cons_self, rfl⟩
    cases List.mem_singleton.mp he
    cases hv
    have he := hx.unique ⟨_, rfl, rfl⟩
    exact absurd (Tree.string.inj he) (by decide)
  · intro h
    have hp := h "openapi.yaml" _ _ _ _ _ "0.0" (by decide)
      (parseYaml_eq_ok_iff.mpr ⟨_, load_zeroMerge, becomes_zeroMerge⟩) load_zeroMerge .whole
      (.one (List.mem_cons_of_mem _ List.mem_cons_self)) becomes_zeroMerge
    have hn : ∀ e ∈ [(Value.number (.float (.zero true)), Value.string "own")],
        e.1.keyText ≠ .ok "0.0" := by
      intro e he hk
      cases List.mem_singleton.mp he
      exact absurd (Value.keyText_number hk) (by decide)
    obtain ⟨e, he, -, tree, hv, -⟩ := hp.earliest hn (List.nil_append _).symm
      (List.forall_mem_nil _) ⟨_, List.mem_cons_self, rfl⟩
    cases hv

theorem parseYaml_precedence_quoted : ∃ value,
    load "true: own\n<<:\n  'true': merged\n" = .ok value ∧ ∀ entries origins,
      value.Kept (.mapping entries) → Value.MergesFrom entries origins →
        ∃ members, (Tree.object [("true", .string "merged")]).Holds (.object members) ∧
          Value.Becomes (.mapping entries) (.object members) ∧ ∀ s, s ≠ "<<" →
            Value.Chosen (Value.ownEntries entries) origins members s ∧
              (Value.Agrees (Value.ownEntries entries) origins s →
                Value.Precedence (Value.ownEntries entries) origins members s) :=
  @parseYaml_precedence "openapi.yaml" _ _
    (parseYaml_eq_ok_iff.mpr ⟨_, load_quotedMerge, becomes_quotedMerge⟩)

end ApiPresence.Yaml
