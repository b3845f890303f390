import ApiPresence.Proofs.Yaml.Fault
import ApiPresence.Yaml.Structure

namespace ApiPresence.Yaml

/-- An error is told in one line, but for the name of a variant. -/
abbrev Error.OneLineUpToName : Error → Prop :=
  Error.Tells Mismatch.OneLineUpToName Path.KeysOneLine

variable {d : Document}

theorem Error.upToName_mismatch {m : Mismatch} (h : OneLine m.message) :
    (Yaml.mismatch m).OneLineUpToName :=
  tells_mismatch (.oneLine h)

theorem Error.OneLineUpToName.oneLine_iff {e : Error} (h : e.OneLineUpToName) :
    OneLine e.message ↔
      ∀ name known place, e = .node (.mismatch (.unknownVariant name known)) place →
        OneLine name := by
  rw [e.oneLine_message_iff]
  constructor
  · rintro ho name known place rfl
    exact (Mismatch.oneLine_unknownVariant_iff.mp (ho _ _ rfl).1).1
  · rintro hn problem place rfl
    refine ⟨?_, h.2⟩
    cases problem with
    | mismatch m =>
      refine (h.1 m rfl).oneLine_iff.mpr ?_
      rintro name known rfl
      exact hn _ _ _ rfl
    | duplicateKey key => exact NodeProblem.oneLine_duplicateKey key

theorem wrongNode_upToName (he : OneLine expected) (node : Node) :
    (wrongNode node expected).OneLineUpToName := by
  cases node with
  | scalar tag text style =>
    unfold wrongNode
    dsimp only
    split
    · next content hc =>
      exact Error.upToName_mismatch (Mismatch.oneLine_wrongType content.oneLine_found he)
    · next m hc => exact Error.upToName_mismatch (Content.ofScalar_fails m hc)
  | sequenceStart tag =>
    exact Error.upToName_mismatch (Mismatch.oneLine_wrongType Found.oneLine_sequence he)
  | mappingStart tag =>
    exact Error.upToName_mismatch (Mismatch.oneLine_wrongType Found.oneLine_map he)
  | aliasOf | sequenceEnd | mappingEnd | void => exact trivial

namespace Document

theorem throughName_upToName (hd : d.FaultApart)
    {read : Node → Mark → Progress → Except Error (α × Progress)}
    (h : ∀ node mark p, FailsOnly Error.OneLineUpToName (read node mark p)) :
    FailsOnly Error.OneLineUpToName (d.throughName read p) := by
  refine (peek_tells hd).bind fun node _ => ?_
  split
  · refine jump_tells.bind fun inner _ => ?_
    refine (peek_tells hd).bind ?_
    rintro ⟨node, mark⟩ -
    simp [h]
  · exact h _ _ _

theorem readText_upToName (hd : d.FaultApart) (he : OneLine expected) (hk : path.KeysOneLine) :
    FailsOnly Error.OneLineUpToName (d.readText expected path p) := by
  refine throughName_upToName hd fun node mark p => located_tells ?_ hk
  split
  · exact failsOnly_ok
  · exact failsOnly_error.mpr (wrongNode_upToName he _)

theorem readBool_upToName (hd : d.FaultApart) (hk : path.KeysOneLine) :
    FailsOnly Error.OneLineUpToName (d.readBool path p) := by
  have he : OneLine "a boolean" := oneLine_ofList.mpr (by decide)
  refine throughName_upToName hd fun node mark p => located_tells ?_ hk
  split
  · split
    · exact failsOnly_ok
    · exact failsOnly_error.mpr (wrongNode_upToName he _)
  · exact failsOnly_error.mpr (wrongNode_upToName he _)

theorem isNone_upToName (node : Node) : FailsOnly Error.OneLineUpToName (isNone node) := by
  unfold isNone
  split
  · split
    · split
      · exact failsOnly_ok
      · exact failsOnly_error.mpr (Error.upToName_mismatch
          (Mismatch.oneLine_wrongValue (Found.oneLine_string _) (by decide)))
    · exact failsOnly_ok
  · exact failsOnly_ok
  · exact failsOnly_ok

theorem readOptional_upToName (hd : d.FaultApart)
    {read : Progress → Except Error (α × Progress)}
    (h : ∀ p, FailsOnly Error.OneLineUpToName (read p)) :
    FailsOnly Error.OneLineUpToName (d.readOptional read p) := by
  refine throughName_upToName hd fun node mark p => ?_
  refine (isNone_upToName node).bind fun none _ => ?_
  split
  · exact failsOnly_ok
  · simp [h]

theorem readUnit_upToName (hk : path.KeysOneLine) :
    FailsOnly Error.OneLineUpToName (readUnit path node mark p) := by
  refine located_tells ?_ hk
  split
  · split
    · exact failsOnly_ok
    · exact failsOnly_error.mpr (Error.upToName_mismatch
        (Mismatch.oneLine_wrongType (Found.oneLine_string _) (by decide)))
  · exact failsOnly_error.mpr (wrongNode_upToName (by decide) _)

theorem findVariant_upToName {known : List (String × α)} (hn : ∀ k ∈ known, OneLine k.1)
    (name : String) : FailsOnly Error.OneLineUpToName (readVariant.find known name) := by
  unfold readVariant.find
  split
  · exact failsOnly_ok
  · refine failsOnly_error.mpr (Error.tells_mismatch (.unknownVariant ?_))
    simpa using fun a b => hn (a, b)

theorem readVariant_upToName (hd : d.FaultApart) {known : List (String × α)}
    (hn : ∀ k ∈ known, OneLine k.1) (hk : path.KeysOneLine) :
    FailsOnly Error.OneLineUpToName (d.readVariant known path p) := by
  have hw : OneLine (readVariant.tagWanted) := oneLine_ofList.mpr (by decide)
  refine throughName_upToName hd fun node mark p => ?_
  extract_lets tagged
  have ht (tag : Option Tag) (untagged : Except Error (α × Progress))
      (h : FailsOnly Error.OneLineUpToName untagged) :
      FailsOnly Error.OneLineUpToName (tagged tag untagged) := by
    simp only [tagged]
    split
    · refine (findVariant_upToName hn _).bind fun value _ => ?_
      simp [readUnit_upToName hk]
    · exact located_tells h hk
  cases node with
  | scalar tag text style => exact ht tag _ (by simp [findVariant_upToName hn])
  | sequenceStart tag =>
    exact ht tag _ (failsOnly_error.mpr (Error.upToName_mismatch
      (Mismatch.oneLine_wrongType Found.oneLine_sequence hw)))
  | mappingStart tag =>
    exact ht tag _ (failsOnly_error.mpr (Error.upToName_mismatch
      (Mismatch.oneLine_wrongType Found.oneLine_map hw)))
  | aliasOf | sequenceEnd | mappingEnd | void => exact failsOnly_error.mpr trivial

theorem skipNode_upToName (hd : d.FaultApart) :
    FailsOnly Error.OneLineUpToName (d.skipNode fuel depth p) := by
  induction fuel generalizing depth p with
  | zero => exact failsOnly_error.mpr trivial
  | succ fuel ih =>
    refine (peek_tells hd).bind ?_
    rintro ⟨node, mark⟩ -
    simp [ih]

/-- What is read as a text in the place of a scalar is the text of it. -/
theorem readText_scalar (hp : d.peek p = .ok (.scalar tag text style, mark))
    (h : d.readText expected path p = .ok (name, q)) : name = String.ofList text := by
  rw [readText, throughName, hp] at h
  cases h
  rfl

end Document

/-- A field with a name of one line, whose value is told in one line, but for a name. -/
structure Field.OneLineUpToName (field : Field σ) : Prop where
  name : OneLine field.name
  read {d : Document} {path : Path} (hd : d.FaultApart) (hk : path.KeysOneLine) (s : σ)
    (p : Progress) : FailsOnly Error.OneLineUpToName (field.read d path s p)

namespace Document

theorem readFields_upToName (hd : d.FaultApart) (hk : path.KeysOneLine) {fields : List (Field σ)}
    (hf : ∀ f ∈ fields, f.OneLineUpToName) :
    FailsOnly Error.OneLineUpToName (d.readFields fields path fuel s p) := by
  induction fuel generalizing s p with
  | zero => exact failsOnly_error.mpr trivial
  | succ fuel ih =>
    refine (peek_tells hd).bind fun node hp => ?_
    split
    · exact failsOnly_ok
    · exact failsOnly_ok
    · next node mark _ _ =>
      refine (readText_upToName hd (oneLine_ofList.mpr (by decide)) hk).bind ?_
      rintro ⟨name, q⟩ ht
      dsimp only
      split
      · exact (skipNode_upToName hd).bind fun p _ => ih
      · next field hfind =>
        have hn : field.name = name := by simpa using List.find?_some hfind
        obtain ⟨hl, hr⟩ := hf field (List.mem_of_find?_eq_some hfind)
        split
        · exact failsOnly_error.mpr
            (Error.upToName_mismatch (Mismatch.oneLine_duplicateField (hn ▸ hl)))
        · refine (hr hd (Path.keysOneLine_cons_iff.mpr ⟨?_, hk⟩) _ _).bind fun _ _ => ih
          intro key hs
          split at hs
          · cases hs
            rw [← readText_scalar hp ht, ← hn]
            exact hl
          · cases hs

theorem readStructure_upToName (hd : d.FaultApart) (he : OneLine expected)
    (hk : path.KeysOneLine) {fields : List (Field σ)} (hf : ∀ f ∈ fields, f.OneLineUpToName) :
    FailsOnly Error.OneLineUpToName (d.readStructure expected fields path start p) := by
  refine throughName_upToName hd fun node mark p => located_tells ?_ hk
  split
  · exact readFields_upToName hd hk hf
  · exact failsOnly_ok
  · exact failsOnly_ok
  · exact failsOnly_error.mpr (wrongNode_upToName he _)

end Document
end ApiPresence.Yaml
