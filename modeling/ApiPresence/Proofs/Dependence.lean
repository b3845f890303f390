import ApiPresence.Proofs.Ending

namespace ApiPresence

variable {fs fs' : FileSystem} {around around' : Surroundings} {i i' : Invocation}
  {config config' : Config}

/-- Two file systems that answer alike about a path. -/
structure FileSystem.AgreeAt (fs fs' : FileSystem) (path : String) : Prop where
  contains : fs.contains path = fs'.contains path
  read : fs.read path = fs'.read path

theorem FileSystem.AgreeAt.refl (fs : FileSystem) (path : String) : fs.AgreeAt fs path := ⟨rfl, rfl⟩

theorem FileSystem.AgreeAt.readText_eq (h : fs.AgreeAt fs' path) :
    fs.readText path = fs'.readText path := by
  rw [readText, readText, h.read]

theorem FileSystem.AgreeAt.loadDocument_eq (h : fs.AgreeAt fs' path) :
    loadDocument fs path = loadDocument fs' path := by
  rw [loadDocument, loadDocument, h.contains, h.readText_eq]

theorem Config.load_congr (h : ∀ path, file = some path → fs.AgreeAt fs' path) :
    load fs file = load fs' file := by
  cases file with
  | none => rfl
  | some path => rw [load, load, ofFile, ofFile, (h path rfl).readText_eq]

/-- Two runs that look at the same description and report on it in the same format. -/
structure Invocation.SameTask (i i' : Invocation) (config config' : Config) : Prop where
  document : i.documentPath config = i'.documentPath config'
  format : i.reportFormat config = i'.reportFormat config'

/-- Once there are settings, only the description and the format of the report count. -/
theorem Invocation.check_congr (ht : around.terminal = false) (ht' : around'.terminal = false)
    (hl : Config.load around.files i.config = .ok config)
    (hl' : Config.load around'.files i'.config = .ok config')
    (hs : i.SameTask i' config config')
    (hd : around.files.AgreeAt around'.files (i.documentPath config)) :
    i.check around = i'.check around' := by
  rw [i.check_settled ht hl, i'.check_settled ht' hl', ← hs.document, ← hs.format,
    hd.loadDocument_eq]

theorem Invocation.documentPath_of_given (h : i.document = some path) :
    i.documentPath config = path := by
  rw [documentPath, h, Option.getD_some]

theorem Invocation.reportFormat_of_given (h : i.output = some format) :
    i.reportFormat config = format := by
  rw [reportFormat, h, Option.some_or, Option.getD_some]

theorem Invocation.check_congr_files (ht : around.terminal = false)
    (ht' : around'.terminal = false) (hdoc : i.document = i'.document)
    (hset : i.config = i'.config) (hout : i.output = i'.output)
    (hc : ∀ path, i.config = some path → around.files.AgreeAt around'.files path)
    (hd : ∀ config, Settled around.files i.config config →
      around.files.AgreeAt around'.files (i.documentPath config)) :
    i.check around = i'.check around' := by
  have hl' : Config.load around'.files i'.config = Config.load around.files i.config := by
    rw [← hset, Config.load_congr hc]
  cases hl : Config.load around.files i.config with
  | error e =>
    obtain ⟨path, reason, hn, hu, rfl⟩ := Config.load_eq_error_iff.mp hl
    rw [i.check_settings ht hl, i'.check_settings ht' (hl'.trans hl)]
  | ok config =>
    have hs : i.SameTask i' config config :=
      ⟨by rw [documentPath, documentPath, hdoc], by rw [reportFormat, reportFormat, hout]⟩
    exact check_congr ht ht' hl (hl'.trans hl) hs (hd config (Config.load_eq_ok_iff.mp hl))

theorem run_of_parse (hw : CommandLine.parse words = .ok i) (around : Surroundings) :
    run around words = i.run around := by
  rw [run, hw]

/--
The exit code and the output of a run without a terminal depend on nothing but the description, the
settings and the format that it is given, and on what the files so named hold: not on how much is
logged and where to, on colours, or on any other file.
-/
theorem run_depends_on_named_files
    (hw : CommandLine.parse words = .ok i) (hw' : CommandLine.parse words' = .ok i')
    (ht : around.terminal = false) (ht' : around'.terminal = false)
    (hdoc : i.document = i'.document) (hset : i.config = i'.config)
    (hout : i.output = i'.output)
    (hc : ∀ path, i.config = some path → around.files.AgreeAt around'.files path)
    (hd : ∀ config, Settled around.files i.config config →
      around.files.AgreeAt around'.files
        (i.document.getD (config.document.getD "docs/openapi.yaml"))) :
    (run around words).exitCode = (run around' words').exitCode ∧
      (run around words).output = (run around' words').output := by
  have hr := Invocation.check_congr_files ht ht' hdoc hset hout hc hd
  rw [run_of_parse hw, run_of_parse hw']
  exact ⟨congrArg Prod.fst hr, congrArg Prod.snd hr⟩

/-- Neither a file that nobody names nor what is said about logging and colours counts. -/
theorem run_depends_on_named_files_quiet :
    let settings := "\x7b\"document\": \"b\"\x7d".toUTF8
    let around : Surroundings :=
      ⟨⟨fun path => path = "a.json",
        fun path => if path = "a.json" then .ok settings else .error .notFound⟩,
        ⟨none, none⟩, false⟩
    let around' : Surroundings :=
      ⟨⟨fun path => path ≠ "b",
        fun path => if path = "a.json" then .ok settings
          else if path = "b" then .error .notFound else .error .isDirectory⟩,
        ⟨some "trace", some "json"⟩, false⟩
    CommandLine.parse ["-c", "a.json", "-vv"] =
        .ok { Invocation.empty with config := some "a.json", verbose := 2 } ∧
      CommandLine.parse ["--no-color", "--config=a.json", "-q"] =
        .ok { Invocation.empty with config := some "a.json", quiet := true, noColor := true } ∧
      (run around ["-c", "a.json", "-vv"]).output =
        (run around' ["--no-color", "--config=a.json", "-q"]).output := by
  intro settings around around'
  have hw : CommandLine.parse ["-c", "a.json", "-vv"] =
      .ok { Invocation.empty with config := some "a.json", verbose := 2 } := by decide +kernel
  have hw' : CommandLine.parse ["--no-color", "--config=a.json", "-q"] =
      .ok { Invocation.empty with config := some "a.json", quiet := true, noColor := true } := by
    decide +kernel
  have hs : Settled around.files (some "a.json") ⟨some "b", none, true⟩ :=
    Config.load_eq_ok_iff.mp (by decide +kernel)
  refine ⟨hw, hw', (run_depends_on_named_files hw hw' rfl rfl rfl rfl rfl ?_ ?_).2⟩
  · rintro path ⟨⟩
    exact ⟨rfl, rfl⟩
  · intro config h
    cases hs.unique h
    exact ⟨rfl, rfl⟩

/--
Settings are a source of defaults: a run under them ends as a run without settings that is given the
description and the format which the first takes from the command line, or else from the settings,
or else as everybody does. So settings do not matter where the command line says both.
-/
theorem settings_are_defaults (hs : Settled around.files i.config config)
    (ht : around.terminal = false) :
    (∀ i' : Invocation, i'.config = none →
      i'.document = some (i.document.getD (config.document.getD "docs/openapi.yaml")) →
      i'.output = some ((i.output.or config.output.format).getD .human) →
      (i.run around).exitCode = (i'.run around).exitCode ∧
        (i.run around).output = (i'.run around).output) ∧
    ∀ (around' : Surroundings) (i' : Invocation) (config' : Config) (document : String)
      (format : OutputFormat), around'.terminal = false →
      Settled around'.files i'.config config' →
      i.document = some document → i'.document = some document →
      i.output = some format → i'.output = some format →
      around.files.AgreeAt around'.files document →
      (i.run around).exitCode = (i'.run around').exitCode ∧
        (i.run around).output = (i'.run around').output := by
  have hl := Config.load_eq_ok_iff.mpr hs
  constructor
  · intro i' hn' hdoc hout
    have hl' : Config.load around.files i'.config = .ok .default := by rw [hn', Config.load]
    have hk : i.SameTask i' config .default :=
      ⟨(Invocation.documentPath_of_given hdoc).symm, (Invocation.reportFormat_of_given hout).symm⟩
    have hr := Invocation.check_congr ht ht hl hl' hk (.refl _ _)
    exact ⟨congrArg Prod.fst hr, congrArg Prod.snd hr⟩
  · intro around' i' config' document format ht' hs' hdoc hdoc' hout hout' ha
    have hp : i.documentPath config = document := Invocation.documentPath_of_given hdoc
    have hf : i.reportFormat config = format := Invocation.reportFormat_of_given hout
    have hk : i.SameTask i' config config' :=
      ⟨hp.trans (Invocation.documentPath_of_given hdoc').symm,
        hf.trans (Invocation.reportFormat_of_given hout').symm⟩
    have hr := Invocation.check_congr ht ht' hl (Config.load_eq_ok_iff.mpr hs') hk (hp ▸ ha)
    exact ⟨congrArg Prod.fst hr, congrArg Prod.snd hr⟩

/-- A format of the settings serves, the document of the settings and their colours do not. -/
theorem settings_are_defaults_mixed :
    let around : Surroundings :=
      ⟨⟨fun path => path = "a.json" ∨ path = "d.json", fun path =>
        if path = "a.json" then
          .ok ("\x7b\"document\": \"b\", \"output\": \x7b\"format\": \"yaml\", " ++
            "\"color\": false\x7d\x7d").toUTF8
        else if path = "d.json" then .ok "\x7b\x7d".toUTF8
        else .error .notFound⟩, ⟨none, none⟩, false⟩
    let i : Invocation :=
      { Invocation.empty with config := some "a.json", document := some "d.json" }
    let i' : Invocation :=
      { Invocation.empty with document := some "d.json", output := some .yaml }
    Settled around.files i.config ⟨some "b", some .yaml, false⟩ ∧
      (i.run around).exitCode = (i'.run around).exitCode ∧
      (i.run around).output = (i'.run around).output := by
  intro around i i'
  have hs : Settled around.files i.config ⟨some "b", some .yaml, false⟩ :=
    Config.load_eq_ok_iff.mp (by decide +kernel)
  exact ⟨hs, (settings_are_defaults hs rfl).1 i' rfl rfl rfl⟩

end ApiPresence
