import ApiPresence.Proofs.Render.Machine
import ApiPresence.Proofs.Yaml.RoundTrip

namespace ApiPresence

open ApiPresence.Yaml (Printable IsPlainKey Leaf)

variable {d : Tree} {e : ExpectationSet}

theorem leaf_countTree (h : n < 0x10000000000000000) : Leaf (countTree n) := by
  obtain ⟨hn, he⟩ := countTree_eq_whole h
  exact he ▸ .whole

theorem leaf_scalarAt (hf : ∀ x, d.lookup segments ≠ some (.number (.float x))) :
    Leaf ((d.scalarAt segments).getD .null) := by
  have hr : Tree.Readable 0 ((d.scalarAt segments).getD .null) := readable_scalarAt hf
  generalize (d.scalarAt segments).getD .null = t at hr ⊢
  cases hr with
  | null => exact .null
  | bool => exact .bool
  | whole => exact .whole
  | string => exact .string

/-- An object of some plain keys, each of which it has once. -/
theorem printable_members {members : List (String × Tree)} (keys : List String)
    (he : members.map Prod.fst = keys) (hn : keys ≠ [] ∧ keys.Nodup)
    (hk : ∀ key ∈ keys,
      Yaml.styleOf key.toList = .plain ∧ Yaml.isSimpleKey key = true ∧ key ≠ "<<")
    (h : ∀ member ∈ members, Printable depth member.2) :
    Printable (depth + 1) (.object members) := by
  subst he
  refine .object (fun hm => hn.1 (by rw [hm]; rfl)) (fun member hm => ?_) hn.2 h
  obtain ⟨hs, hl, ho⟩ := hk member.1 (List.mem_map_of_mem hm)
  exact ⟨hs, hl, ho⟩

theorem Check.printable_toTree (c : Check) : Printable (depth + 1) c.toTree := by
  refine printable_members ["category", "identifier", "status"] rfl (by decide) (by decide +kernel)
    ?_
  simp only [List.forall_mem_cons]
  exact ⟨.leaf .string, .leaf .string, .leaf .string, List.forall_mem_nil _⟩

theorem printable_summary
    (hv : ∀ x, d.lookup ["openapi"] ≠ some (.number (.float x)))
    (ht : ∀ x, d.lookup ["info", "title"] ≠ some (.number (.float x)))
    (hc : (validate e d).CountsFit) : Printable (depth + 1) (summarize d).toTree := by
  refine printable_members ["openapi_version", "title", "description_excerpt", "server_count",
    "tag_count", "path_count", "schema_count"] rfl (by decide) (by decide +kernel) ?_
  simp only [List.forall_mem_cons]
  exact ⟨.leaf (leaf_scalarAt hv), .leaf (leaf_scalarAt ht), .leaf .string,
    .leaf (leaf_countTree hc.servers), .leaf (leaf_countTree hc.tags),
    .leaf (leaf_countTree hc.paths), .leaf (leaf_countTree hc.schemas), List.forall_mem_nil _⟩

/-- There is always a check of the security scheme. -/
theorem checks_ne_nil (e : ExpectationSet) (d : Tree) : (validate e d).checks ≠ [] := by
  simp [validate, ExpectationSet.toList]

theorem printable_envelope
    (hv : ∀ x, d.lookup ["openapi"] ≠ some (.number (.float x)))
    (ht : ∀ x, d.lookup ["info", "title"] ≠ some (.number (.float x)))
    (hc : (validate e d).CountsFit) :
    Printable (depth + 3) ((validate e d).envelope path) := by
  have hp : (validate e d).presentCount < 0x10000000000000000 :=
    Nat.lt_of_le_of_lt List.countP_le_length hc.checks
  have hm : (validate e d).missingCount < 0x10000000000000000 :=
    Nat.lt_of_le_of_lt (Nat.sub_le _ _) hc.checks
  have hk : Printable (depth + 2) (checksTree (validate e d).checks) := by
    refine .array (by simpa using checks_ne_nil e d) fun item hi => ?_
    obtain ⟨c, -, rfl⟩ := List.mem_map.mp hi
    exact c.printable_toTree
  refine printable_members ["document", "complete", "present", "missing", "summary", "checks"] rfl
    (by decide) (by decide +kernel) ?_
  simp only [Report.members, List.cons_append, List.nil_append, List.forall_mem_cons]
  exact ⟨.leaf .string, .leaf .bool, .leaf (leaf_countTree hp), .leaf (leaf_countTree hm),
    printable_summary hv ht hc, hk, List.forall_mem_nil _⟩

/--
A report in YAML is read back as the same tree as in JSON: whatever strings the path, the version,
the title, the description and the identifiers are, they are those strings again.
-/
theorem yaml_report_reads_back (path source : String) (coloring : Coloring)
    (hv : ∀ x, d.lookup ["openapi"] ≠ some (.number (.float x)))
    (ht : ∀ x, d.lookup ["info", "title"] ≠ some (.number (.float x)))
    (hc : (validate e d).CountsFit) :
    ∃ tree,
      parseYaml source (OutputFormat.yaml.formatReport path (validate e d) coloring) = .ok tree ∧
      parseJson source (OutputFormat.json.formatReport path (validate e d) coloring) = .ok tree ∧
      tree = .object [
        ("checks", .array ((validate e d).checks.map fun c => .object [
          ("category", .string c.category.name),
          ("identifier", .string c.identifier),
          ("status", .string c.status.name)])),
        ("complete", .bool (validate e d).isComplete),
        ("document", .string path),
        ("missing", countTree (validate e d).missingCount),
        ("present", countTree (validate e d).presentCount),
        ("summary", .object [
          ("description_excerpt", .string (summarize d).descriptionExcerpt),
          ("openapi_version", (d.scalarAt ["openapi"]).getD .null),
          ("path_count", countTree (summarize d).pathCount),
          ("schema_count", countTree (summarize d).schemaCount),
          ("server_count", countTree (summarize d).serverCount),
          ("tag_count", countTree (summarize d).tagCount),
          ("title", (d.scalarAt ["info", "title"]).getD .null)])] := by
  have hprint : Printable Yaml.Document.depthLimit ((validate e d).envelope path) :=
    printable_envelope hv ht hc
  obtain ⟨value, hl, hb⟩ := Yaml.load_print hprint nofun
  have hy : parseYaml source (Yaml.print ((validate e d).envelope path)) =
      .ok ((validate e d).envelope path).sorted :=
    Yaml.parseYaml_eq_ok_iff.mpr ⟨value, hl, hb⟩
  have hj : parseJson source (Json.print .compact ((validate e d).envelope path)) =
      .ok ((validate e d).envelope path).sorted := by
    rw [parseJson, Json.parse_print (readable_envelope hv ht hc)]
    rfl
  exact ⟨_, hy, hj, sorted_envelope⟩

/-- Strings that look like null, a number, a marker of documents or nothing at all. -/
theorem yaml_report_reads_back_lookalikes :
    let e : ExpectationSet := ⟨["", "0x1f", "a: b # c"], ["---\n "], "\x7f\u2028"⟩
    let d : Tree := .object [
      ("info", .object [("description", .string " \n...\n"), ("title", .string "null")]),
      ("openapi", .string "1.0"), ("paths", .object [("0x1f", .null)])]
    (∀ x, d.lookup ["openapi"] ≠ some (.number (.float x))) ∧
      (∀ x, d.lookup ["info", "title"] ≠ some (.number (.float x))) ∧
      (validate e d).CountsFit ∧
      ∃ tree,
        parseYaml "-" (OutputFormat.yaml.formatReport "..." (validate e d) .none) = .ok tree ∧
        parseJson "-" (OutputFormat.json.formatReport "..." (validate e d) .none) = .ok tree ∧
        tree.get? "document" = some (.string "...") ∧
        tree.lookup ["summary", "title"] = some (.string "null") ∧
        tree.lookup ["summary", "openapi_version"] = some (.string "1.0") := by
  intro e d
  have hv : ∀ x, d.lookup ["openapi"] ≠ some (.number (.float x)) := by
    intro x h
    cases h
  have ht : ∀ x, d.lookup ["info", "title"] ≠ some (.number (.float x)) := by
    intro x h
    cases h
  have hc : (validate e d).CountsFit := by constructor <;> decide
  obtain ⟨tree, hy, hj, rfl⟩ := yaml_report_reads_back "..." "-" .none hv ht hc
  exact ⟨hv, ht, hc, _, hy, hj, rfl, rfl, rfl⟩

end ApiPresence
