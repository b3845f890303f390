import ApiPresence.Config.Load
import ApiPresence.Proofs.Json.Draft

namespace ApiPresence

open Json (Blank Object Settles Slot)

/-- A text that holds an object and nothing but blanks around it. -/
structure Holds (content : String) (o : Object) : Prop where
  text : ∃ front back, content.toList = front ++ (o.text ++ back) ∧ Blank front ∧ Blank back
  wellFormed : o.IsWellFormed

variable {content content' : String} {c : Config} {o o' inner inner' : Object}

namespace OutputConfig

def formatSlot : Slot Draft (Option OutputFormat) :=
  ⟨"format", Json.readOptional (Json.readVariant OutputFormat.names), (·.format),
    fun format d => { d with format }⟩

def colorSlot : Slot Draft Bool :=
  ⟨"color", Json.readBool, (·.color), fun color d => { d with color }⟩

theorem jsonFields_eq : jsonFields = [formatSlot.field, colorSlot.field] := rfl

theorem apart_color : colorSlot.Apart formatSlot := ⟨by decide, fun _ _ => rfl, fun _ _ _ => rfl⟩

theorem apart_format : formatSlot.Apart colorSlot := ⟨by decide, fun _ _ => rfl, fun _ _ _ => rfl⟩

theorem lawful_format : formatSlot.Lawful := ⟨fun _ _ => rfl, fun _ _ _ => rfl, fun _ => rfl⟩

theorem lawful_color : colorSlot.Lawful := ⟨fun _ _ => rfl, fun _ _ _ => rfl, fun _ => rfl⟩

theorem isOf_jsonFields : formatSlot.IsOf jsonFields ∧ colorSlot.IsOf jsonFields :=
  Slot.isOf_pair lawful_format lawful_color apart_format apart_color

theorem isDraft_jsonFields : Json.IsDraft jsonFields :=
  Slot.isDraft_pair formatSlot colorSlot isOf_jsonFields

theorem readsValue_jsonFields : ∀ f ∈ jsonFields, f.ReadsValue := by
  rw [jsonFields_eq, List.forall_mem_cons, List.forall_mem_singleton]
  exact ⟨Slot.readsValue_field Json.readsValue_variant.optional,
    Slot.readsValue_field Json.readsValue_bool⟩

theorem readsValue_readJson : Json.ReadsValue readJson :=
  (Json.readsValue_structure readsValue_jsonFields).map Draft.finish

theorem readJson_object_iff {c : OutputConfig} (ho : o.IsWellFormed) :
    readJson o.text = .ok (c, []) ↔
      ∃ d, Settles jsonFields .empty o.members d ∧ c = d.finish := by
  have h : readJson (o.text ++ []) = .ok (c, []) ↔ [] = [] ∧ _ :=
    Json.readStructure_finish_iff readsValue_jsonFields ho Draft.finish
  rw [List.append_nil] at h
  exact h.trans (and_iff_right rfl)

section Members

variable {c : OutputConfig} (ho : o.IsWellFormed) (ho' : o'.IsWellFormed)
  (h : readJson o.text = .ok (c, []))

include ho ho' h

theorem readJson_gains (hg : o.Gains name o') (hn : name ∉ ["format", "color"]) :
    readJson o'.text = .ok (c, []) := by
  obtain ⟨d, hd, rfl⟩ := (readJson_object_iff ho).mp h
  exact (readJson_object_iff ho').mpr ⟨d, hd.gains hg hn, rfl⟩

theorem readJson_loses_format (hg : o'.Gains "format" o) :
    readJson o'.text = .ok ({ c with format := default.format }, []) := by
  obtain ⟨d, hd, rfl⟩ := (readJson_object_iff ho).mp h
  have hd' := hd.loses isDraft_jsonFields isOf_jsonFields.1.clears hg rfl
  exact (readJson_object_iff ho').mpr ⟨_, hd', rfl⟩

theorem readJson_loses_color (hg : o'.Gains "color" o) :
    readJson o'.text = .ok ({ c with color := default.color }, []) := by
  obtain ⟨d, hd, rfl⟩ := (readJson_object_iff ho).mp h
  have hd' := hd.loses isDraft_jsonFields isOf_jsonFields.2.clears hg rfl
  exact (readJson_object_iff ho').mpr ⟨_, hd', rfl⟩

end Members

end OutputConfig

namespace Config

def documentSlot : Slot Draft (Option String) :=
  ⟨"document", Json.readOptional (Json.readTextValue "path string"), (·.document),
    fun document d => { d with document }⟩

def outputSlot : Slot Draft OutputConfig :=
  ⟨"output", OutputConfig.readJson, (·.output), fun output d => { d with output }⟩

theorem jsonFields_eq : jsonFields = [documentSlot.field, outputSlot.field] := rfl

theorem apart_output : outputSlot.Apart documentSlot :=
  ⟨by decide, fun _ _ => rfl, fun _ _ _ => rfl⟩

theorem apart_document : documentSlot.Apart outputSlot :=
  ⟨by decide, fun _ _ => rfl, fun _ _ _ => rfl⟩

theorem lawful_document : documentSlot.Lawful := ⟨fun _ _ => rfl, fun _ _ _ => rfl, fun _ => rfl⟩

theorem lawful_output : outputSlot.Lawful := ⟨fun _ _ => rfl, fun _ _ _ => rfl, fun _ => rfl⟩

theorem isOf_jsonFields : documentSlot.IsOf jsonFields ∧ outputSlot.IsOf jsonFields :=
  Slot.isOf_pair lawful_document lawful_output apart_document apart_output

theorem isDraft_jsonFields : Json.IsDraft jsonFields :=
  Slot.isDraft_pair documentSlot outputSlot isOf_jsonFields

theorem readsValue_jsonFields : ∀ f ∈ jsonFields, f.ReadsValue := by
  rw [jsonFields_eq, List.forall_mem_cons, List.forall_mem_singleton]
  exact ⟨Slot.readsValue_field Json.readsValue_textValue.optional,
    Slot.readsValue_field OutputConfig.readsValue_readJson⟩

theorem readsValue_readJson : Json.ReadsValue readJson :=
  (Json.readsValue_structure readsValue_jsonFields).map Draft.finish

theorem parse_json_eq_ok_iff : parse .json content = .ok c ↔
    ∃ rest, readJson content.toList = .ok (c, rest) ∧ Json.readEnd rest = .ok () := by
  show ((Json.readDocument readJson content).mapError _) = _ ↔ _
  rw [Json.readDocument, mapError_eq_ok_iff, mapError_eq_ok_iff, bind_eq_ok_iff]
  constructor
  · rintro ⟨⟨a, rest⟩, ha, h⟩
    obtain ⟨_, he, h⟩ := bind_eq_ok_iff.mp h
    cases h
    exact ⟨rest, ha, he⟩
  · rintro ⟨rest, ha, he⟩
    exact ⟨(c, rest), ha, bind_eq_ok_iff.mpr ⟨(), he, rfl⟩⟩

theorem parse_json_iff (h : Holds content o) : parse .json content = .ok c ↔
    ∃ d, Settles jsonFields .empty o.members d ∧ c = d.finish := by
  obtain ⟨⟨front, back, ht, hf, hb⟩, ho⟩ := h
  have hend : Json.readEnd back = .ok () := by
    rw [Json.readEnd, ← List.append_nil back, hb.skipBlanks_append]
    rfl
  have hread (rest) : readJson (o.text ++ back) = .ok (c, rest) ↔ rest = back ∧ _ :=
    Json.readStructure_finish_iff readsValue_jsonFields ho Draft.finish
  rw [parse_json_eq_ok_iff, ht, readsValue_readJson.skips hf]
  constructor
  · rintro ⟨rest, hr, -⟩
    exact ((hread rest).mp hr).2
  · exact fun h => ⟨back, (hread back).mpr ⟨rfl, h⟩, hend⟩

theorem exists_holds (hl : parse .json content = .ok c)
    (hb : (Json.skipBlanks content.toList).head? = some '{') : ∃ o, Holds content o := by
  obtain ⟨rest, hr, he⟩ := parse_json_eq_ok_iff.mp hl
  obtain ⟨⟨d, behindObject⟩, hd, h⟩ := bind_eq_ok_iff.mp hr
  cases h
  obtain ⟨front, o, ht, hf, ho⟩ := Json.exists_object_of_brace readsValue_jsonFields hd hb
  have hback : Blank rest := by
    unfold Json.readEnd at he
    split at he
    · next hs =>
      obtain ⟨gap, hg, hblank⟩ := Json.exists_blank hs
      rw [hg, List.append_nil]
      exact hblank
    · cases he
  exact ⟨o, ⟨front, rest, ht, hf, hback⟩, ho⟩

section Members

variable (hl : parse .json content = .ok c) (h : Holds content o) (h' : Holds content' o')

include hl h h'

theorem parse_gains (hg : o.Gains name o') (hn : name ∉ ["document", "output"]) :
    parse .json content' = .ok c := by
  obtain ⟨d, hd, rfl⟩ := (parse_json_iff h).mp hl
  exact (parse_json_iff h').mpr ⟨d, hd.gains hg hn, rfl⟩

theorem parse_loses_document (hg : o'.Gains "document" o) :
    parse .json content' = .ok { c with document := default.document } := by
  obtain ⟨d, hd, rfl⟩ := (parse_json_iff h).mp hl
  have hd' := hd.loses isDraft_jsonFields isOf_jsonFields.1.clears hg rfl
  exact (parse_json_iff h').mpr ⟨_, hd', rfl⟩

theorem parse_loses_output (hg : o'.Gains "output" o) :
    parse .json content' = .ok { c with output := default.output } := by
  obtain ⟨d, hd, rfl⟩ := (parse_json_iff h).mp hl
  have hd' := hd.loses isDraft_jsonFields isOf_jsonFields.2.clears hg rfl
  exact (parse_json_iff h').mpr ⟨_, hd', rfl⟩

/-- What happens to the output settings is what happens to their object. -/
theorem parse_alters (change : OutputConfig → OutputConfig)
    (ha : o.Alters "output" inner inner' o')
    (hc : ∀ output, OutputConfig.readJson inner.text = .ok (output, []) →
      OutputConfig.readJson inner'.text = .ok (change output, [])) :
    parse .json content' = .ok { c with output := change c.output } := by
  obtain ⟨d, hd, rfl⟩ := (parse_json_iff h).mp hl
  have hd' : Settles jsonFields .empty o'.members { d with output := d.output.map change } := by
    apply hd.alters isDraft_jsonFields (isOf_jsonFields.2.changesOnly (Option.map change)) ha
      (f := outputSlot.field) rfl
    intro s₀ s₁ hr
    obtain ⟨output, hread, rfl⟩ := Slot.read_field_iff.mp hr
    exact Slot.read_field_iff.mpr ⟨_, hc output hread, rfl⟩
  obtain ⟨before, m, m', after, ho, -, ⟨hn, -⟩, -⟩ := ha
  rw [ho] at hd
  have hset : d.output.isSome := hd.isSet isDraft_jsonFields hn (f := outputSlot.field) rfl
  obtain ⟨output, hout⟩ := Option.isSome_iff_exists.mp hset
  refine (parse_json_iff h').mpr ⟨_, hd', ?_⟩
  rw [Draft.finish, Draft.finish, hout]
  rfl

end Members

/-- The keys of settings that can be read all stand for texts, those of unknown settings too. -/
theorem names_of_parse (hl : parse .json content = .ok c) (h : Holds content o) :
    ∀ m ∈ o.members, ∃ name, m.Names name := by
  obtain ⟨d, hd, -⟩ := (parse_json_iff h).mp hl
  exact hd.named

theorem names_of_parse_output (hl : parse .json content' = .ok c) (h' : Holds content' o')
    (hi : inner'.IsWellFormed) (ha : o.Alters "output" inner inner' o') :
    ∀ m ∈ inner'.members, ∃ name, m.Names name := by
  obtain ⟨d, hd, -⟩ := (parse_json_iff h').mp hl
  obtain ⟨before, m, m', after, -, ho', -, hn, hv⟩ := ha
  rw [ho'] at hd
  obtain ⟨s₀, s₁, hr, -⟩ := hd.exists_read hn (f := outputSlot.field) rfl
  obtain ⟨output, hread, -⟩ := Slot.read_field_iff.mp hr
  rw [hv] at hread
  obtain ⟨d, hd, -⟩ := (OutputConfig.readJson_object_iff hi).mp hread
  exact hd.named

end Config

/--
Members of unknown names make no difference at either level, and one of a known name that is left
out leaves its default and the other settings as they are. A key that stands for no text is no
name at all.
-/
theorem unknown_settings_are_ignored (hl : Config.parse .json content = .ok c)
    (hb : (Json.skipBlanks content.toList).head? = some '{') :
    (∃ o, Holds content o) ∧ ∀ o o' content', Holds content o → Holds content' o' →
      (∀ name, name ∉ ["document", "output"] → o.Gains name o' →
        Config.parse .json content' = .ok c) ∧
      (o'.Gains "document" o →
        Config.parse .json content' = .ok { c with document := Config.default.document }) ∧
      (o'.Gains "output" o →
        Config.parse .json content' = .ok { c with output := Config.default.output }) ∧
      (∀ inner inner', inner.IsWellFormed → inner'.IsWellFormed →
        o.Alters "output" inner inner' o' →
          (∀ name, name ∉ ["format", "color"] → inner.Gains name inner' →
            Config.parse .json content' = .ok c) ∧
          (inner'.Gains "format" inner → Config.parse .json content' =
            .ok { c with output.format := OutputConfig.default.format }) ∧
          (inner'.Gains "color" inner → Config.parse .json content' =
            .ok { c with output.color := OutputConfig.default.color }) ∧
          ((∃ m ∈ inner'.members, ∀ name, ¬ m.Names name) →
            ∀ c', Config.parse .json content' ≠ .ok c')) ∧
      ((∃ m ∈ o'.members, ∀ name, ¬ m.Names name) →
        ∀ c', Config.parse .json content' ≠ .ok c') := by
  apply And.intro (Config.exists_holds hl hb)
  intro o o' content' h h'
  refine ⟨fun name hn hg => Config.parse_gains hl h h' hg hn, Config.parse_loses_document hl h h',
    Config.parse_loses_output hl h h', fun inner inner' hi hi' ha => ⟨?_, ?_, ?_, ?_⟩, ?_⟩
  · intro name hn hg
    apply Config.parse_alters hl h h' id ha
    intro output hr
    exact OutputConfig.readJson_gains hi hi' hr hg hn
  · intro hg
    apply Config.parse_alters hl h h' (fun output => { output with format := _ }) ha
    intro output hr
    exact OutputConfig.readJson_loses_format hi hi' hr hg
  · intro hg
    apply Config.parse_alters hl h h' (fun output => { output with color := _ }) ha
    intro output hr
    exact OutputConfig.readJson_loses_color hi hi' hr hg
  · rintro ⟨m, hm, hn⟩ c' hl'
    obtain ⟨name, hname⟩ := Config.names_of_parse_output hl' h' hi' ha m hm
    exact hn name hname
  · rintro ⟨m, hm, hn⟩ c' hl'
    obtain ⟨name, hname⟩ := Config.names_of_parse hl' h' m hm
    exact hn name hname

/-- A member that is written without blanks. -/
def entry (letters value : String) : Json.Member :=
  ⟨⟨[], letters.toList, []⟩, ⟨[], value.toList, []⟩⟩

theorem Holds.of_text (ht : content.toList = o.text) (ho : o.IsWellFormed) : Holds content o :=
  ⟨⟨[], [], ht.trans (List.append_nil _).symm, nofun, nofun⟩, ho⟩

/-- A key that differs in one code is another one, and what stands in its value does not count. -/
theorem unknown_settings_are_ignored_lookalike :
    let content := "\x7b\"output\":\x7b\"color\":false\x7d,\"document\":\"a\"\x7d"
    let grown := "\x7b\"output\":\x7b\"\\u0043olor\":\x7b\"color\":[\"\\ud800\"]\x7d," ++
      "\"color\":false\x7d,\"document\":\"a\"\x7d"
    let shrunk := "\x7b\"output\":\x7b\"color\":false\x7d\x7d"
    Config.parse .json content = .ok ⟨some "a", none, false⟩ ∧
      Config.parse .json grown = .ok ⟨some "a", none, false⟩ ∧
      Config.parse .json shrunk = .ok ⟨none, none, false⟩ := by
  intro content grown shrunk
  let color := entry "color" "false"
  let lookalike := entry "\\u0043olor" "\x7b\"color\":[\"\\ud800\"]\x7d"
  let document := entry "document" "\"a\""
  let output (o : Object) := entry "output" (String.ofList o.text)
  have hl : Config.parse .json content = .ok ⟨some "a", none, false⟩ := by decide +kernel
  have hc : Holds content ⟨[output ⟨[color], []⟩, document], []⟩ :=
    .of_text (by decide +kernel) (by decide +kernel)
  have hg : Holds grown ⟨[output ⟨[lookalike, color], []⟩, document], []⟩ :=
    .of_text (by decide +kernel) (by decide +kernel)
  have hs : Holds shrunk ⟨[output ⟨[color], []⟩], []⟩ :=
    .of_text (by decide +kernel) (by decide +kernel)
  obtain ⟨-, h⟩ := unknown_settings_are_ignored hl (by decide +kernel)
  obtain ⟨-, -, -, ha, -⟩ := h _ _ _ hc hg
  obtain ⟨hgrown, -⟩ := ha ⟨[color], []⟩ ⟨[lookalike, color], []⟩ (by decide +kernel)
    (by decide +kernel) ⟨[], _, _, _, rfl, rfl, ⟨by decide +kernel, by decide +kernel⟩,
      by decide +kernel, by decide +kernel⟩
  obtain ⟨-, hd, -⟩ := h _ _ _ hc hs
  refine ⟨hl, hgrown "Color" (by decide) ⟨[], _, _, rfl, rfl, by decide +kernel⟩, ?_⟩
  exact hd ⟨[_], _, [], rfl, rfl, by decide +kernel⟩

/-- A key with half of a pair of codes is not passed over as an unknown one. -/
theorem key_for_no_text_is_refused :
    let content := "\x7b\"\\ud800\":1\x7d"
    Config.parse .json "\x7b\x7d" = .ok .default ∧ Holds "\x7b\x7d" ⟨[], []⟩ ∧
      Holds content ⟨[entry "\\ud800" "1"], []⟩ ∧
      (∀ name, ¬ (entry "\\ud800" "1").Names name) ∧
      ∀ c, Config.parse .json content ≠ .ok c := by
  intro content
  have he : Config.parse .json content =
    .error "unexpected end of hex escape at line 1 column 9" := by decide +kernel
  have hn : Json.readString ("\\ud800".toList ++ ['"']) =
      .error ⟨.unexpectedEndOfHexEscape, 0⟩ := by decide +kernel
  refine ⟨by decide +kernel, .of_text (by decide +kernel) (by decide +kernel),
    .of_text (by decide +kernel) (by decide +kernel), fun name h => ?_, fun c h => ?_⟩
  · exact absurd (hn.symm.trans (h.readString [])) nofun
  · exact absurd (he.symm.trans h) nofun

end ApiPresence
