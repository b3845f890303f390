import ApiPresence.Proofs.Config
import ApiPresence.Proofs.Ending

namespace ApiPresence

variable {fs : FileSystem}

/-- The line of an error and its end. -/
def IsErrorLine (output : String) : Prop :=
  ∃ message, output = "ERROR: " ++ message ++ "\n" ∧ OneLine message

/-- What puts a line break into the reason why a file gives no settings. -/
inductive BreaksSettings (fs : FileSystem) (path : String) : Prop where
  | path (hb : ¬ OneLine path)
  | system (ht : fs.readText path = .error (.other code words)) (hb : ¬ OneLine words)
  /-- Whatever is wrong with it. -/
  | toml (ht : fs.readText path = .ok content) (hf : ConfigFormat.ofPath path = .toml)
      (hc : Config.parseToml content = .error e)
  /-- The name of an output format that is not known. -/
  | json (ht : fs.readText path = .ok content) (hf : ConfigFormat.ofPath path = .json)
      (hc : Config.parseJson content = .error e)
      (he : e.cause = Json.unwanted (.unknownVariant name known)) (hb : ¬ OneLine name)
  | yaml (ht : fs.readText path = .ok content) (hf : ConfigFormat.ofPath path = .yaml)
      (hc : Config.parseYaml content =
        .error (.node (.mismatch (.unknownVariant name known)) place))
      (hb : ¬ OneLine name)

/-- What puts a line break into the reason why a description that is there gives no tree. -/
inductive BreaksDescription (fs : FileSystem) (path : String) : Prop where
  | system (hc : fs.contains path) (ht : fs.readText path = .error (.other code words))
      (hb : ¬ OneLine words)
  /-- A key on the way to the node that is wrong with it. -/
  | key (hc : fs.contains path) (ht : fs.readText path = .ok content)
      (hf : DocumentFormat.ofPath path = .yaml)
      (hl : Yaml.loadMerged content = .error (.node problem (some (way, mark))))
      (hk : ¬ way.KeysOneLine)

/-- What puts a line break into the error with which a run ends. -/
inductive BreaksLine (i : Invocation) (fs : FileSystem) : Prop where
  | settings (hn : i.config = some path) (hu : Unsettled fs path reason)
      (hb : BreaksSettings fs path)
  /-- The path of a description, whatever is wrong with it. -/
  | path (hs : Settled fs i.config config)
      (hp : path = i.document.getD (config.document.getD "docs/openapi.yaml"))
      (hd : loadDocument fs path = .error e) (hb : ¬ OneLine path)
  | description (hs : Settled fs i.config config)
      (hp : path = i.document.getD (config.document.getD "docs/openapi.yaml"))
      (hd : loadDocument fs path = .error e) (hb : BreaksDescription fs path)

theorem isErrorLine_append_iff :
    IsErrorLine ("ERROR: " ++ message ++ "\n") ↔ OneLine message := by
  constructor
  · rintro ⟨other, he, ho⟩
    have hl := congrArg String.toList he
    simp only [String.toList_append] at hl
    have hm := String.toList_injective (List.append_cancel_left (List.append_cancel_right hl))
    exact hm ▸ ho
  · exact fun h => ⟨message, rfl, h⟩

theorem IoError.oneLine_message_iff {fault : IoError} :
    OneLine fault.message ↔ ∀ code words, fault = .other code words → OneLine words := by
  cases fault with
  | other code words =>
    have hf : OneLine " (os error " := oneLine_ofList.mpr (by decide)
    have hm : OneLine (other code words).message ↔ OneLine words := by
      have he : OneLine ")" := by decide
      simp [message, hf, he, oneLine_repr]
    rw [hm]
    constructor
    · rintro h _ _ ⟨⟩
      exact h
    · exact fun h => h _ _ rfl
  | _ =>
    refine iff_of_true (oneLine_ofList.mpr (by decide)) ?_
    intro code words h
    cases h

/-- Why a path cannot be read is told in one line unless the system's words take more. -/
theorem readText_oneLine_iff (ht : fs.readText path = .error fault) :
    OneLine fault.message ↔
      ∀ code words, fs.readText path = .error (.other code words) → OneLine words := by
  simp only [IoError.oneLine_message_iff, ht, Except.error.injEq]

section

variable {path content : String} (ht : fs.readText path = .ok content) (hp : OneLine path)

include ht hp

theorem breaksSettings_json_iff (hf : ConfigFormat.ofPath path = .json)
    (hc : Config.parseJson content = .error e) : BreaksSettings fs path ↔
      ∃ name known, e.cause = Json.unwanted (.unknownVariant name known) ∧ ¬ OneLine name := by
  constructor
  · intro hb
    cases hb with
    | path hb => exact absurd hp hb
    | system ht' => cases ht.symm.trans ht'
    | toml _ hf' | yaml _ hf' => cases hf.symm.trans hf'
    | json ht' _ hc' he hb =>
      cases ht.symm.trans ht'
      cases hc.symm.trans hc'
      exact ⟨_, _, he, hb⟩
  · rintro ⟨name, known, he, hb⟩
    exact .json ht hf hc he hb

theorem breaksSettings_yaml_iff (hf : ConfigFormat.ofPath path = .yaml)
    (hc : Config.parseYaml content = .error e) : BreaksSettings fs path ↔
      ∃ name known place, e = .node (.mismatch (.unknownVariant name known)) place ∧
        ¬ OneLine name := by
  constructor
  · intro hb
    cases hb with
    | path hb => exact absurd hp hb
    | system ht' => cases ht.symm.trans ht'
    | toml _ hf' | json _ hf' => cases hf.symm.trans hf'
    | yaml ht' _ hc' hb =>
      cases ht.symm.trans ht'
      exact ⟨_, _, _, Except.error.inj (hc.symm.trans hc'), hb⟩
  · rintro ⟨name, known, place, rfl, hb⟩
    exact .yaml ht hf hc hb

end

theorem Config.parse_oneLine_iff (ht : fs.readText path = .ok content) (hp : OneLine path)
    (hc : parse (.ofPath path) content = .error reason) :
    OneLine reason ↔ ¬ BreaksSettings fs path := by
  cases hf : ConfigFormat.ofPath path with
  | toml =>
    rw [hf] at hc
    obtain ⟨e, he, rfl⟩ := mapError_eq_error_iff.mp hc
    exact iff_of_false e.not_oneLine_message fun h => h (.toml ht hf he)
  | json =>
    rw [hf] at hc
    obtain ⟨e, he, rfl⟩ := mapError_eq_error_iff.mp hc
    rw [parseJson_oneLine_iff he, breaksSettings_json_iff ht hp hf he]
    simp only [not_exists, not_and, not_not]
  | yaml =>
    rw [hf] at hc
    obtain ⟨e, he, rfl⟩ := mapError_eq_error_iff.mp hc
    rw [parseYaml_oneLine_iff he, breaksSettings_yaml_iff ht hp hf he]
    simp only [not_exists, not_and, not_not]

theorem Unsettled.oneLine_iff (h : Unsettled fs path reason) :
    OneLine reason ↔ ¬ BreaksSettings fs path := by
  by_cases hp : OneLine path
  · have hc : OneLine ": " := by decide
    cases h with
    | @unreadable fault ht =>
      have hf : OneLine "Failed to read " := oneLine_ofList.mpr (by decide)
      simp only [oneLine_append, hf, hp, hc, true_and, readText_oneLine_iff ht]
      constructor
      · intro h hb
        cases hb with
        | path hb => exact hb hp
        | system ht' hb => exact hb (h _ _ ht')
        | toml ht' | json ht' | yaml ht' => cases ht.symm.trans ht'
      · intro h code words ht'
        by_contra hb
        exact h (.system ht' hb)
    | malformed ht hc' =>
      have hf : OneLine "Failed to parse " := oneLine_ofList.mpr (by decide)
      simp only [oneLine_append, hf, hp, hc, true_and]
      exact Config.parse_oneLine_iff ht hp hc'
  · refine iff_of_false (fun ho => hp ?_) fun h => h (.path hp)
    cases h with
    | unreadable ht =>
      simp only [oneLine_append] at ho
      exact ho.1.1.2
    | malformed ht hc =>
      simp only [oneLine_append] at ho
      exact ho.1.1.2

theorem Yaml.ConversionError.oneLine_message (fault : Yaml.ConversionError) :
    OneLine fault.message := by
  cases fault <;> exact oneLine_ofList.mpr (by decide)

/-- What a loader says of a cause beside the path. -/
def LoadCause.reason : LoadCause → String
  | .notFound => ""
  | .unreadable reason | .malformed _ reason | .notTree reason => reason

theorem LoadError.oneLine_message_iff (e : LoadError) :
    OneLine e.message ↔ OneLine e.path ∧ OneLine e.cause.reason := by
  obtain ⟨path, cause⟩ := e
  have hq : OneLine "': " := by decide
  cases cause with
  | notFound =>
    have hf : OneLine "File not found: " := oneLine_ofList.mpr (by decide)
    show OneLine ("File not found: " ++ path) ↔ OneLine path ∧ OneLine ""
    simp [hf, oneLine_empty]
  | unreadable reason =>
    have hf : OneLine "Failed to read file '" := oneLine_ofList.mpr (by decide)
    show OneLine ("Failed to read file '" ++ path ++ "': " ++ reason) ↔
      OneLine path ∧ OneLine reason
    simp [hf, hq]
  | malformed format reason =>
    have hl : OneLine format.label := by cases format <;> decide
    have hf : OneLine " parse error in '" := oneLine_ofList.mpr (by decide)
    show OneLine (format.label ++ " parse error in '" ++ path ++ "': " ++ reason) ↔
      OneLine path ∧ OneLine reason
    simp [hl, hf, hq]
  | notTree reason =>
    have hf : OneLine "Failed to convert '" := oneLine_ofList.mpr (by decide)
    have hc : OneLine "' into a document tree: " := oneLine_ofList.mpr (by decide)
    show OneLine ("Failed to convert '" ++ path ++ "' into a document tree: " ++ reason) ↔
      OneLine path ∧ OneLine reason
    simp [hf, hc]

theorem unreadable_reason_iff (hc : fs.contains path) (ht : fs.readText path = .error fault) :
    OneLine fault.message ↔ ¬ BreaksDescription fs path := by
  rw [readText_oneLine_iff ht]
  constructor
  · intro h hb
    cases hb with
    | system _ ht' hb => exact hb (h _ _ ht')
    | key _ ht' => cases ht.symm.trans ht'
  · intro h code words ht'
    by_contra hb
    exact h (.system hc ht' hb)

/-- A text that is read breaks the line by a key or not at all. -/
theorem breaksDescription_text_iff (hc : fs.contains path) (ht : fs.readText path = .ok content) :
    BreaksDescription fs path ↔ DocumentFormat.ofPath path = .yaml ∧
      ∃ problem way mark, Yaml.loadMerged content = .error (.node problem (some (way, mark))) ∧
        ¬ way.KeysOneLine := by
  constructor
  · intro hb
    cases hb with
    | system _ ht' => cases ht.symm.trans ht'
    | key _ ht' hf hl hk =>
      cases ht.symm.trans ht'
      exact ⟨hf, _, _, _, hl, hk⟩
  · rintro ⟨hf, problem, way, mark, hl, hk⟩
    exact .key hc ht hf hl hk

theorem parseContent_reason_iff (hc : fs.contains path) (ht : fs.readText path = .ok content)
    (h : parseContent (.ofPath path) path content = .error e) :
    e.path = path ∧ (OneLine e.cause.reason ↔ ¬ BreaksDescription fs path) := by
  rw [breaksDescription_text_iff hc ht]
  cases hf : DocumentFormat.ofPath path with
  | json =>
    rw [hf] at h
    obtain ⟨fault, hj, rfl⟩ := mapError_eq_error_iff.mp h
    exact ⟨rfl, iff_of_true (Json.parse_oneLine hj) nofun⟩
  | yaml =>
    rw [hf] at h
    simp only [parseContent, parseYaml] at h
    cases hl : Yaml.loadMerged content with
    | error fault =>
      rw [hl] at h
      cases h
      refine ⟨rfl, (Yaml.loadMerged_oneLine_iff hl).trans ⟨?_, ?_⟩⟩
      · rintro hk ⟨-, problem, way, mark, hl', hb⟩
        exact hb (hk _ _ _ (Except.error.inj hl'))
      · rintro h problem way mark rfl
        by_contra hb
        exact h ⟨rfl, problem, way, mark, rfl, hb⟩
    | ok value =>
      simp only [hl] at h
      cases hv : value.toTree with
      | ok tree => simp [hv] at h
      | error fault =>
        rw [hv] at h
        cases h
        exact ⟨rfl, iff_of_true fault.oneLine_message (by simp)⟩

/-- The message about a description takes one line unless its path or what is wrong takes more. -/
theorem loadDocument_oneLine_iff (h : loadDocument fs path = .error e) :
    OneLine e.message ↔ OneLine path ∧ ¬ BreaksDescription fs path := by
  suffices hr : e.path = path ∧ (OneLine e.cause.reason ↔ ¬ BreaksDescription fs path) by
    rw [e.oneLine_message_iff, hr.1, hr.2]
  rw [loadDocument] at h
  split at h
  · next hc =>
    cases ht : fs.readText path with
    | ok content =>
      rw [ht] at h
      exact parseContent_reason_iff hc ht h
    | error fault =>
      rw [ht] at h
      cases h
      exact ⟨rfl, unreadable_reason_iff hc ht⟩
  · next hc =>
    cases h
    refine ⟨rfl, iff_of_true oneLine_empty ?_⟩
    rintro (⟨hc', _, _⟩ | ⟨hc', _, _, _, _⟩)
    · exact hc hc'
    · exact hc hc'

theorem breaksLine_settings_iff (hn : i.config = some path) (hu : Unsettled fs path reason) :
    BreaksLine i fs ↔ BreaksSettings fs path := by
  constructor
  · rintro (⟨hn', _, hb⟩ | ⟨hs, _, _, _⟩ | ⟨hs, _, _, _⟩)
    · cases hn.symm.trans hn'
      exact hb
    · exact absurd hu (hn ▸ hs).not_unsettled
    · exact absurd hu (hn ▸ hs).not_unsettled
  · exact fun hb => .settings hn hu hb

theorem breaksLine_description_iff (hs : Settled fs i.config config)
    (hp : path = i.document.getD (config.document.getD "docs/openapi.yaml"))
    (hd : loadDocument fs path = .error e) :
    BreaksLine i fs ↔ ¬ OneLine path ∨ BreaksDescription fs path := by
  constructor
  · rintro (⟨hn, hu, _⟩ | ⟨hs', rfl, _, hb⟩ | ⟨hs', rfl, _, hb⟩)
    · exact absurd hu (hn ▸ hs).not_unsettled
    · cases hs.unique hs'
      exact .inl (hp ▸ hb)
    · cases hs.unique hs'
      exact .inr (hp ▸ hb)
  · rintro (hb | hb)
    · exact .path hs hp hd hb
    · exact .description hs hp hd hb

theorem Ending.isErrorLine_iff (h : Ending i fs exitCode output) (he : exitCode ≠ 0) :
    IsErrorLine output ↔ ¬ BreaksLine i fs := by
  cases h with
  | settings hn hu =>
    have hc : OneLine "Configuration error: " := oneLine_ofList.mpr (by decide)
    rw [breaksLine_settings_iff hn hu, ← hu.oneLine_iff, ← RunError.shown_config,
      isErrorLine_append_iff]
    exact oneLine_append.trans (and_iff_right hc)
  | description hs hd hc =>
    rw [breaksLine_description_iff hs rfl hd, not_or, not_not, ← loadDocument_oneLine_iff hd,
      isErrorLine_append_iff]
  | conversion hs hd hc =>
    have hv : OneLine "Validation error: " := oneLine_ofList.mpr (by decide)
    rw [breaksLine_description_iff hs rfl hd, not_or, not_not, ← loadDocument_oneLine_iff hd,
      ← RunError.shown_unexpected, isErrorLine_append_iff]
    exact oneLine_append.trans (and_iff_right hv)
  | report => exact absurd rfl he

/--
A run that ends with an error puts out one line, exactly unless the settings are in TOML or a path,
words of the system, a name of a format or a key that the error shows has a line break.
-/
theorem error_takes_one_line_iff (hw : CommandLine.parse words = .ok i)
    (ht : around.terminal = false) (he : (run around words).exitCode ≠ 0) :
    IsErrorLine (run around words).output ↔ ¬ BreaksLine i around.files := by
  have hr : run around words = i.run around := by rw [run, hw]
  rw [hr] at he ⊢
  exact ((i.ending_iff_check ht).mpr rfl).isErrorLine_iff he

/-- Settings in TOML that are refused take a line for each part of the message. -/
theorem not_isErrorLine_toml :
    let around : Surroundings :=
      ⟨⟨fun _ => true, fun _ => .ok "document".toUTF8⟩, ⟨none, none⟩, false⟩
    CommandLine.parse ["-c", "c.toml"] = .ok { Invocation.empty with config := some "c.toml" } ∧
      (run around ["-c", "c.toml"]).exitCode = 2 ∧
      ¬ IsErrorLine (run around ["-c", "c.toml"]).output := by
  intro around
  have ho : (run around ["-c", "c.toml"]).output = "ERROR: " ++
      ("Configuration error: Failed to parse c.toml: TOML parse error at line 1, column 9\n" ++
        "  |\n1 | document\n  |         ^\nexpected `.`, `=`\n") ++ "\n" := by decide +kernel
  refine ⟨rfl, by decide +kernel, ?_⟩
  rw [ho, isErrorLine_append_iff, oneLine_append]
  decide +kernel

/-- A line break in a value of the wrong type is shown by an escape. -/
theorem error_takes_one_line_iff_quoted :
    let around : Surroundings :=
      ⟨⟨fun _ => true, fun _ => .ok "\x7b\"output\": \x7b\"color\": \"a\\nb\"\x7d\x7d".toUTF8⟩,
        ⟨none, none⟩, false⟩
    let i := { Invocation.empty with config := some "c.json" }
    CommandLine.parse ["-c", "c.json"] = .ok i ∧
      (run around ["-c", "c.json"]).exitCode ≠ 0 ∧
      IsErrorLine (run around ["-c", "c.json"]).output ∧ ¬ BreaksLine i around.files := by
  intro around i
  have he : (run around ["-c", "c.json"]).exitCode ≠ 0 := by decide +kernel
  have ho : (run around ["-c", "c.json"]).output = "ERROR: " ++
      ("Configuration error: Failed to parse c.json: invalid type: string \"a\\nb\", " ++
        "expected a boolean at line 1 column 27") ++ "\n" := by decide +kernel
  have hl : IsErrorLine (run around ["-c", "c.json"]).output := by
    rw [ho, isErrorLine_append_iff, oneLine_append]
    decide +kernel
  exact ⟨rfl, he, hl, (error_takes_one_line_iff rfl rfl he).mp hl⟩

end ApiPresence
