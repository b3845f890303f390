import ApiPresence.Proofs.Basic
import ApiPresence.Proofs.Render.Lines
import ApiPresence.Proofs.Writer
import ApiPresence.Run

namespace ApiPresence

/-- The settings of a run: those of the file that is named, or the defaults. -/
inductive Settled (fs : FileSystem) : Option String → Config → Prop where
  | defaults : Settled fs none ⟨none, none, true⟩
  | named (ht : fs.readText path = .ok content)
      (hc : Config.parse (.ofPath path) content = .ok config) : Settled fs (some path) config

/-- A file gives no settings, for a reason that the message tells. -/
inductive Unsettled (fs : FileSystem) (path : String) : String → Prop where
  | unreadable (ht : fs.readText path = .error fault) :
      Unsettled fs path ("Failed to read " ++ path ++ ": " ++ fault.message)
  | malformed (ht : fs.readText path = .ok content)
      (hc : Config.parse (.ofPath path) content = .error reason) :
      Unsettled fs path ("Failed to parse " ++ path ++ ": " ++ reason)

/-- A text with a newline added unless it ends in one. -/
inductive Terminated (text : String) : String → Prop where
  | already (h : text.toList.getLast? = some '\n') : Terminated text text
  | added (h : text.toList.getLast? ≠ some '\n') : Terminated text (text ++ "\n")

/--
The ways in which a run can end without a terminal, by its exit code and its output: no settings,
no description, a description that is no tree, or a report.
-/
inductive Ending (i : Invocation) (fs : FileSystem) : Nat → String → Prop where
  | settings (hn : i.config = some path) (hu : Unsettled fs path reason) :
      Ending i fs 2 ("ERROR: Configuration error: " ++ reason ++ "\n")
  | description (hs : Settled fs i.config config)
      (hd : loadDocument fs (i.document.getD (config.document.getD "docs/openapi.yaml")) = .error e)
      (hc : ∀ reason, e.cause ≠ .notTree reason) :
      Ending i fs 1 ("ERROR: " ++ e.message ++ "\n")
  | conversion (hs : Settled fs i.config config)
      (hd : loadDocument fs (i.document.getD (config.document.getD "docs/openapi.yaml")) = .error e)
      (hc : e.cause = .notTree reason) :
      Ending i fs 1 ("ERROR: Validation error: " ++ e.message ++ "\n")
  | report (hs : Settled fs i.config config)
      (he : document = i.document.getD (config.document.getD "docs/openapi.yaml"))
      (hd : loadDocument fs document = .ok tree)
      (ht : Terminated (((i.output.or config.output.format).getD .human).formatReport document
        (validate .default tree) .none) text) :
      Ending i fs 0 text

theorem fromUTF8?_eq_some_iff : String.fromUTF8? content = some text ↔ text.toUTF8 = content := by
  rw [String.fromUTF8?]
  constructor
  · intro h
    split at h
    · cases h
      rfl
    · cases h
  · intro h
    subst h
    exact dif_pos text.isValidUTF8

theorem loadDocument_absent (hc : ¬ fs.contains path) :
    loadDocument fs path = .error ⟨path, .notFound⟩ := by
  rw [loadDocument, if_neg hc]

theorem loadDocument_fault (hc : fs.contains path) (hr : fs.read path = .error fault) :
    loadDocument fs path = .error ⟨path, .unreadable fault.message⟩ := by
  rw [loadDocument, if_pos hc, FileSystem.readText, hr]

theorem loadDocument_text (hc : fs.contains path) (hr : fs.read path = .ok (String.toUTF8 text)) :
    loadDocument fs path = parseContent (.ofPath path) path text := by
  rw [loadDocument, if_pos hc, FileSystem.readText, hr]
  simp only [fromUTF8?_eq_some_iff.mpr rfl]

theorem endLine_terminated (text : String) : Terminated text (endLine text) := by
  rw [endLine]
  split
  · exact .already (by assumption)
  · exact .added (by assumption)

theorem Terminated.eq_endLine (h : Terminated text output) : output = endLine text := by
  cases h with
  | already h => rw [endLine, if_pos h]
  | added h => rw [endLine, if_neg h]

namespace Config

theorem ofFile_unreadable (ht : fs.readText path = .error fault) :
    ofFile fs path = .error (.config ("Failed to read " ++ path ++ ": " ++ fault.message)) := by
  rw [ofFile, ht]

theorem ofFile_of_text (ht : fs.readText path = .ok content) :
    ofFile fs path = (parse (.ofPath path) content).mapError fun reason =>
      .config ("Failed to parse " ++ path ++ ": " ++ reason) := by
  rw [ofFile, ht]

theorem load_eq_ok_iff : load fs file = .ok config ↔ Settled fs file config := by
  constructor
  · intro h
    cases file with
    | none =>
      cases h
      exact .defaults
    | some path =>
      rw [load] at h
      cases ht : fs.readText path with
      | error fault =>
        rw [ofFile_unreadable ht] at h
        cases h
      | ok content =>
        rw [ofFile_of_text ht, mapError_eq_ok_iff] at h
        exact .named ht h
  · intro h
    cases h with
    | defaults => rfl
    | named ht hc => rwa [load, ofFile_of_text ht, mapError_eq_ok_iff]

theorem load_eq_error_iff : load fs file = .error e ↔
    ∃ path reason, file = some path ∧ Unsettled fs path reason ∧ e = .config reason := by
  constructor
  · intro h
    cases file with
    | none => cases h
    | some path =>
      rw [load] at h
      cases ht : fs.readText path with
      | error fault =>
        rw [ofFile_unreadable ht] at h
        cases h
        exact ⟨path, _, rfl, .unreadable ht, rfl⟩
      | ok content =>
        rw [ofFile_of_text ht, mapError_eq_error_iff] at h
        obtain ⟨reason, hc, rfl⟩ := h
        exact ⟨path, _, rfl, .malformed ht hc, rfl⟩
  · rintro ⟨path, reason, rfl, hu, rfl⟩
    cases hu with
    | unreadable ht => exact ofFile_unreadable ht
    | malformed ht hc =>
      rw [load, ofFile_of_text ht, mapError_eq_error_iff]
      exact ⟨_, hc, rfl⟩

end Config

namespace RunError

/-- Without colours an error is shown behind its plain tag. -/
theorem line_plain (e : RunError) : e.line .none = "ERROR: " ++ e.message := by
  rw [line, statusLine, Level.shown, if_neg (by decide), Level.tag, String.append_assoc,
    ← String.append_assoc]
  rfl

theorem shown_config (reason : String) :
    "ERROR: " ++ (config reason).message = "ERROR: Configuration error: " ++ reason := by
  have hm : (config reason).message = "Configuration error: " ++ reason := rfl
  have ht : "ERROR: " ++ "Configuration error: " = "ERROR: Configuration error: " := by decide
  rw [hm, ← String.append_assoc, ht]

theorem shown_unexpected (reason : String) :
    "ERROR: " ++ (unexpected reason).message = "ERROR: Validation error: " ++ reason := by
  have hm : (unexpected reason).message = "Validation error: " ++ reason := rfl
  have ht : "ERROR: " ++ "Validation error: " = "ERROR: Validation error: " := by decide
  rw [hm, ← String.append_assoc, ht]

theorem ofLoadError_notTree {e : LoadError} (hc : e.cause = .notTree reason) :
    ofLoadError e = .unexpected e.message := by
  rw [ofLoadError, hc]

theorem ofLoadError_other {e : LoadError} (hc : ∀ reason, e.cause ≠ .notTree reason) :
    ofLoadError e = .load e := by
  rw [ofLoadError]
  split
  · next reason h => exact absurd h (hc reason)
  · rfl

end RunError

namespace Invocation

theorem coloring_off (i : Invocation) : i.coloring false = .none := by
  simp [coloring, Coloring.none]

theorem coloringUnder_off (i : Invocation) (config : Config) :
    i.coloringUnder config false = .none := by
  rw [coloringUnder, coloring_off]
  rfl

theorem failure_plain (e : RunError) :
    failure e .none = (e.exitCode, "ERROR: " ++ e.message ++ "\n") := by
  rw [failure, e.line_plain]

theorem documentPath_eq (i : Invocation) (config : Config) :
    i.documentPath config = i.document.getD (config.document.getD "docs/openapi.yaml") := rfl

theorem check_settings {around : Surroundings} (i : Invocation) (ht : around.terminal = false)
    (hl : Config.load around.files i.config = .error (.config reason)) :
    i.check around = (2, "ERROR: Configuration error: " ++ reason ++ "\n") := by
  rw [check, hl, ht, coloring_off, ← RunError.shown_config]
  exact failure_plain _

theorem check_settled {around : Surroundings} {config : Config} (i : Invocation)
    (ht : around.terminal = false)
    (hl : Config.load around.files i.config = .ok config) :
    i.check around = match loadDocument around.files (i.documentPath config) with
      | .error e => ((RunError.ofLoadError e).exitCode,
          "ERROR: " ++ (RunError.ofLoadError e).message ++ "\n")
      | .ok tree => (0, endLine ((i.reportFormat config).formatReport (i.documentPath config)
          (validate .default tree) .none)) := by
  rw [check, hl]
  simp only [checkUnder, ht, coloringUnder_off, reportOn]
  cases loadDocument around.files (i.documentPath config) with
  | error e => exact failure_plain _
  | ok tree => rfl

/-- The exit code and the output of a run are the one way of ending that its settings allow. -/
theorem ending_iff_check {around : Surroundings} {output : String} (i : Invocation)
    (ht : around.terminal = false) :
    Ending i around.files exitCode output ↔ i.check around = (exitCode, output) := by
  constructor
  · intro h
    cases h with
    | settings hn hu =>
      exact i.check_settings ht (Config.load_eq_error_iff.mpr ⟨_, _, hn, hu, rfl⟩)
    | description hs hd hc =>
      rw [i.check_settled ht (Config.load_eq_ok_iff.mpr hs), documentPath_eq, hd]
      simp only [RunError.ofLoadError_other hc]
      rfl
    | conversion hs hd hc =>
      rw [i.check_settled ht (Config.load_eq_ok_iff.mpr hs), documentPath_eq, hd]
      simp only [RunError.ofLoadError_notTree hc, RunError.shown_unexpected]
      rfl
    | report hs he hd hp =>
      subst he
      rw [i.check_settled ht (Config.load_eq_ok_iff.mpr hs), documentPath_eq, hd,
        hp.eq_endLine]
      rfl
  · intro h
    cases hl : Config.load around.files i.config with
    | error e =>
      obtain ⟨path, reason, hn, hu, rfl⟩ := Config.load_eq_error_iff.mp hl
      rw [i.check_settings ht hl] at h
      cases h
      exact .settings hn hu
    | ok config =>
      have hs := Config.load_eq_ok_iff.mp hl
      rw [i.check_settled ht hl] at h
      cases hd : loadDocument around.files (i.documentPath config) with
      | ok tree =>
        rw [hd] at h
        cases h
        exact .report hs rfl hd (endLine_terminated _)
      | error e =>
        rw [hd] at h
        cases h
        cases hc : e.cause with
        | notTree reason =>
          rw [RunError.ofLoadError_notTree hc, RunError.shown_unexpected]
          exact .conversion hs hd hc
        | notFound | unreadable _ | malformed _ _ =>
          have hc' : ∀ reason, e.cause ≠ .notTree reason := by simp [hc]
          rw [RunError.ofLoadError_other hc']
          exact .description hs hd hc'

end Invocation

/-- No report begins as an error does, whatever stands in the document. -/
theorem formatReport_head (format : OutputFormat) (document : String) (r : Report) :
    ∃ c, (format.formatReport document r .none).toList.head? = some c ∧ c ≠ 'E' := by
  cases format with
  | human =>
    have hl : (statusLine .success ("Document parsed successfully: " ++ document)
        .none).toList.head? = some 'S' := by
      simp [statusLine, Level.shown, Coloring.isOn, Coloring.none, Level.tag]
    exact ⟨'S', by simp [OutputFormat.formatReport, joinLines_toList, Report.lines, hl], by decide⟩
  | json | jsonPretty =>
    refine ⟨'{', ?_, by decide⟩
    simp [OutputFormat.formatReport, OutputFormat.formatTree, Json.print, Report.envelope,
      Json.write]
  | yaml =>
    have hk : Yaml.simpleKey "document" = ['d', 'o', 'c', 'u', 'm', 'e', 'n', 't'] := by decide
    have hs : Yaml.isSimpleKey "document" = true := by decide
    refine ⟨'d', ?_, by decide⟩
    simp [OutputFormat.formatReport, OutputFormat.formatTree, Yaml.print, Report.envelope,
      Yaml.nodeLines, Yaml.entryLines, hk, hs]

theorem endLine_head {text : String} (h : text.toList.head? = some c) :
    (endLine text).toList.head? = some c := by
  rw [endLine]
  split
  · exact h
  · rw [String.toList_append, List.head?_append, h]
    rfl

theorem not_error_prefix {text : String} (h : text.toList.head? = some c) (hc : c ≠ 'E') :
    ¬ "ERROR: ".toList <+: text.toList := by
  rintro ⟨rest, he⟩
  rw [← he] at h
  cases h
  exact hc rfl

/-- Exactly the runs that end without a report begin their output as an error does. -/
theorem Ending.error_prefix_iff (h : Ending i fs exitCode output) :
    "ERROR: ".toList <+: output.toList ↔ exitCode ≠ 0 := by
  cases h with
  | settings hn hu | description hs hd hc | conversion hs hd hc =>
    refine iff_of_true ?_ (by decide)
    simp only [String.toList_append, List.append_assoc]
    exact List.prefix_iff_eq_append.mpr rfl
  | report hs he hd ht =>
    refine iff_of_false ?_ (by decide)
    obtain ⟨c, hh, hc⟩ := formatReport_head _ _ _
    rw [ht.eq_endLine]
    exact not_error_prefix (endLine_head hh) hc

theorem Settled.unique (h : Settled fs file config) (h' : Settled fs file other) :
    config = other := by
  rw [← Config.load_eq_ok_iff] at h h'
  rw [h] at h'
  exact Except.ok.inj h'

theorem Settled.not_unsettled (h : Settled fs (some path) config) : ¬ Unsettled fs path reason := by
  intro hu
  have he := Config.load_eq_error_iff.mpr ⟨path, reason, rfl, hu, rfl⟩
  rw [Config.load_eq_ok_iff.mpr h] at he
  cases he

/--
Under its settings a run puts out what the writer adds to a sink that takes all of it, or an error
and nothing of it.
-/
theorem Ending.written {sink : Sink} (h : Ending i fs exitCode output)
    (hs : Settled fs i.config config)
    (ht : sink.TakesAll (if exitCode = 0 then output.toUTF8.toList else [])) :
    let ended := (⟨(i.output.or config.output.format).getD .human, .none, sink⟩ :
      Writer).checkDocument fs (i.document.getD (config.document.getD "docs/openapi.yaml"))
    (ended.1 = .ok () ↔ exitCode = 0) ∧
      ended.2.sink.written =
        sink.written ++ if exitCode = 0 then output.toUTF8.toList else [] := by
  intro ended
  cases h with
  | settings hn hu => exact absurd hu (Settled.not_unsettled (hn ▸ hs))
  | description hs' hd hc | conversion hs' hd hc =>
    cases hs.unique hs'
    simp [ended, Writer.checkDocument_error hd]
  | report hs' he hd hp =>
    cases hs.unique hs'
    subst he
    rw [hp.eq_endLine] at ht ⊢
    have hw : ended = _ :=
      (Writer.checkDocument_ok hd).trans (Writer.perform_eq_of_takesAll ht)
    rw [hw]
    exact ⟨iff_of_true rfl rfl, rfl⟩

/--
A run that the command line asks for ends in one way: without settings, without a description that
is a tree, or with the whole report. An error and a report never come together. The output is what
the writer adds to any sink that takes all of the report.
-/
theorem run_ends_one_way (hw : CommandLine.parse words = .ok i) (ht : around.terminal = false) :
    (∀ exitCode output, Ending i around.files exitCode output ↔
      (run around words).exitCode = exitCode ∧ (run around words).output = output) ∧
    ("ERROR: ".toList <+: (run around words).output.toList ↔ (run around words).exitCode ≠ 0) ∧
    ∀ config sink, Settled around.files i.config config →
      let report :=
        if (run around words).exitCode = 0 then (run around words).output.toUTF8.toList else []
      let ended := (⟨(i.output.or config.output.format).getD .human, .none, sink⟩ :
        Writer).checkDocument around.files
          (i.document.getD (config.document.getD "docs/openapi.yaml"))
      sink.TakesAll report →
        (ended.1 = .ok () ↔ (run around words).exitCode = 0) ∧
          ended.2.sink.written = sink.written ++ report := by
  have hr : run around words = i.run around := by rw [run, hw]
  have he : ∀ exitCode output, Ending i around.files exitCode output ↔
      (run around words).exitCode = exitCode ∧ (run around words).output = output := by
    intro exitCode output
    rw [i.ending_iff_check ht, hr, Prod.ext_iff]
    rfl
  have hc := (he _ _).mpr ⟨rfl, rfl⟩
  exact ⟨he, hc.error_prefix_iff, fun config sink hs => hc.written hs⟩

/-- Settings that are not there end a run, and a description with nothing in it has its report. -/
theorem run_ends_one_way_bare :
    let around : Surroundings :=
      ⟨⟨fun path => path = "a.json",
        fun path => if path = "a.json" then .ok "[]".toUTF8 else .error .notFound⟩,
        ⟨none, none⟩, false⟩
    let report := endLine
      (OutputFormat.human.formatReport "a.json" (validate .default (.array [])) .none)
    (CommandLine.parse ["-c", "a.toml"] = .ok { Invocation.empty with config := some "a.toml" } ∧
      (run around ["-c", "a.toml"]).exitCode = 2 ∧
      (run around ["-c", "a.toml"]).output = "ERROR: Configuration error: " ++
        ("Failed to read a.toml: " ++ IoError.notFound.message) ++ "\n" ∧
      "ERROR: ".toList <+: (run around ["-c", "a.toml"]).output.toList) ∧
    CommandLine.parse ["a.json"] = .ok { Invocation.empty with document := some "a.json" } ∧
      (run around ["a.json"]).exitCode = 0 ∧ (run around ["a.json"]).output = report ∧
      ¬ "ERROR: ".toList <+: (run around ["a.json"]).output.toList ∧
      ((⟨.human, .none, .empty none⟩ : Writer).checkDocument around.files
        "a.json").2.sink.written = report.toUTF8.toList := by
  intro around report
  have hw : CommandLine.parse ["-c", "a.toml"] =
      .ok { Invocation.empty with config := some "a.toml" } := by rfl
  have hw' : CommandLine.parse ["a.json"] =
      .ok { Invocation.empty with document := some "a.json" } := by rfl
  have hu : Unsettled around.files "a.toml"
      ("Failed to read " ++ "a.toml" ++ ": " ++ IoError.notFound.message) := .unreadable rfl
  have hj : DocumentFormat.ofPath "a.json" = .json := by decide
  have hd : loadDocument around.files "a.json" = .ok (.array []) := by
    rw [loadDocument_text rfl rfl, hj]
    rfl
  obtain ⟨he, hp, -⟩ := @run_ends_one_way _ _ around hw rfl
  obtain ⟨he', hp', hk⟩ := @run_ends_one_way _ _ around hw' rfl
  obtain ⟨hc, ho⟩ := (he _ _).mp (.settings rfl hu)
  obtain ⟨hc', ho'⟩ := (he' _ _).mp (.report .defaults rfl hd (endLine_terminated _))
  refine ⟨⟨hw, hc, ho, hp.mpr (by rw [hc]; decide)⟩, hw', hc', ho', fun h => hp'.mp h hc', ?_⟩
  have hs := (hk _ (.empty none) .defaults (Sink.takesAll_of_endless rfl _)).2
  rw [if_pos hc', ho'] at hs
  exact hs.trans (List.nil_append _)

end ApiPresence
