import ApiPresence.Config.Load
import ApiPresence.Proofs.Json.Structure
import ApiPresence.Proofs.Yaml.Structure

namespace ApiPresence

theorem OutputFormat.oneLine_names : ∀ k ∈ names, OneLine k.1 := by decide

namespace OutputConfig

theorem jsonFields_upToName : ∀ f ∈ jsonFields, f.OneLineUpToName := by
  simp only [jsonFields, List.forall_mem_cons]
  refine ⟨⟨by decide, fun d text => ?_⟩, ⟨by decide, fun d text => ?_⟩, nofun⟩
  · refine (Json.readOptional_upToName fun text => ?_).bind fun _ _ => failsOnly_ok
    exact Json.readVariant_upToName OutputFormat.oneLine_names
  · exact Json.readBool_upToName.bind fun _ _ => failsOnly_ok

theorem yamlFields_upToName : ∀ f ∈ yamlFields, f.OneLineUpToName := by
  simp only [yamlFields, List.forall_mem_cons]
  refine ⟨⟨by decide, fun hd hk s p => ?_⟩, ⟨by decide, fun hd hk s p => ?_⟩, nofun⟩
  · refine (Yaml.Document.readOptional_upToName hd fun p => ?_).bind fun _ _ => failsOnly_ok
    exact Yaml.Document.readVariant_upToName hd OutputFormat.oneLine_names hk
  · exact (Yaml.Document.readBool_upToName hd hk).bind fun _ _ => failsOnly_ok

end OutputConfig

namespace Config

theorem jsonFields_upToName : ∀ f ∈ jsonFields, f.OneLineUpToName := by
  simp only [jsonFields, List.forall_mem_cons]
  refine ⟨⟨by decide, fun d text => ?_⟩, ⟨by decide, fun d text => ?_⟩, nofun⟩
  · refine (Json.readOptional_upToName fun text => ?_).bind fun _ _ => failsOnly_ok
    exact Json.readTextValue_upToName (oneLine_ofList.mpr (by decide))
  · refine FailsOnly.bind ?_ fun _ _ => failsOnly_ok
    refine FailsOnly.bind ?_ fun _ _ => failsOnly_ok
    exact Json.readStructure_upToName (oneLine_ofList.mpr (by decide))
      OutputConfig.jsonFields_upToName

theorem yamlFields_upToName : ∀ f ∈ yamlFields, f.OneLineUpToName := by
  simp only [yamlFields, List.forall_mem_cons]
  refine ⟨⟨by decide, fun hd hk s p => ?_⟩, ⟨by decide, fun hd hk s p => ?_⟩, nofun⟩
  · refine (Yaml.Document.readOptional_upToName hd fun p => ?_).bind fun _ _ => failsOnly_ok
    exact Yaml.Document.readText_upToName hd (oneLine_ofList.mpr (by decide)) hk
  · refine FailsOnly.bind ?_ fun _ _ => failsOnly_ok
    exact Yaml.Document.readStructure_upToName hd (oneLine_ofList.mpr (by decide)) hk
      OutputConfig.yamlFields_upToName

theorem parseJson_oneLine_iff (h : parseJson content = .error e) :
    OneLine e.message ↔
      ∀ name known, e.cause = Json.unwanted (.unknownVariant name known) → OneLine name := by
  refine Json.readDocument_oneLine_iff (fun text => ?_) h
  refine FailsOnly.bind ?_ fun _ _ => failsOnly_ok
  exact Json.readStructure_upToName (oneLine_ofList.mpr (by decide)) jsonFields_upToName

theorem parseYaml_oneLine_iff (h : parseYaml content = .error e) :
    OneLine e.message ↔
      ∀ name known place, e = .node (.mismatch (.unknownVariant name known)) place →
        OneLine name := by
  have hd := Yaml.Document.ofText_faultApart content
  have hu : FailsOnly Yaml.Error.OneLineUpToName (parseYaml content) := by
    refine FailsOnly.bind (Yaml.Document.readAll_tells hd fun p => ?_) fun _ _ => failsOnly_ok
    refine Yaml.Document.readStructure_upToName hd (oneLine_ofList.mpr (by decide)) ?_
      yamlFields_upToName
    rintro key ⟨⟩
  exact (hu e h).oneLine_iff

end Config

/-- The line in question is always shown below the place. -/
theorem Toml.Error.not_oneLine_message (e : Toml.Error) : ¬ OneLine e.message := by
  have hn : ¬ OneLine "\n" := by decide
  intro h
  unfold message at h
  simp [hn] at h

end ApiPresence
