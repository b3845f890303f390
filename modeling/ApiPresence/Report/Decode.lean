import ApiPresence.Report
import ApiPresence.Tree.Decode

namespace ApiPresence

open Decode

def Category.ofTree : Tree → Except Mismatch Category :=
  variant (Category.all.map fun c => (c.name, c))

def Status.ofTree : Tree → Except Mismatch Status :=
  variant (Status.all.map fun s => (s.name, s))

/-- A check from an object, or from the sequence of its fields. -/
def Check.ofTree : Tree → Except Mismatch Check
  | .array trees => do
    let expected := "struct CheckResult with 3 elements"
    let category ← entry Category.ofTree trees 0 expected
    let identifier ← entry string trees 1 expected
    let status ← entry Status.ofTree trees 2 expected
    noMore trees 3
    .ok ⟨category, identifier, status⟩
  | .object members => do
    checkMembers faults members
    let category ← field Category.ofTree members "category"
    let identifier ← field string members "identifier"
    let status ← field Status.ofTree members "status"
    .ok ⟨category, identifier, status⟩
  | tree => wrongType tree "struct CheckResult"
where
  faults (key : String) (value : Tree) : Option Mismatch :=
    if key = "category" then fault? Category.ofTree value
    else if key = "identifier" then fault? string value
    else if key = "status" then fault? Status.ofTree value
    else none

def Summary.ofTree : Tree → Except Mismatch Summary
  | .array trees => do
    let expected := "struct DocumentSummary with 7 elements"
    let version ← entry (.ok ∘ optional) trees 0 expected
    let title ← entry (.ok ∘ optional) trees 1 expected
    let descriptionExcerpt ← entry string trees 2 expected
    let serverCount ← entry count trees 3 expected
    let tagCount ← entry count trees 4 expected
    let pathCount ← entry count trees 5 expected
    let schemaCount ← entry count trees 6 expected
    noMore trees 7
    .ok { version, title, descriptionExcerpt, serverCount, tagCount, pathCount, schemaCount }
  | .object members => do
    checkMembers faults members
    let version := (Tree.member? "openapi_version" members).bind optional
    let title := (Tree.member? "title" members).bind optional
    let descriptionExcerpt ← field string members "description_excerpt"
    let serverCount ← field count members "server_count"
    let tagCount ← field count members "tag_count"
    let pathCount ← field count members "path_count"
    let schemaCount ← field count members "schema_count"
    .ok { version, title, descriptionExcerpt, serverCount, tagCount, pathCount, schemaCount }
  | tree => wrongType tree "struct DocumentSummary"
where
  faults (key : String) (value : Tree) : Option Mismatch :=
    if key = "description_excerpt" then fault? string value
    else if key ∈ ["server_count", "tag_count", "path_count", "schema_count"] then
      fault? count value
    else none

def Report.ofTree : Tree → Except Mismatch Report
  | .array trees => do
    let expected := "struct ValidationReport with 2 elements"
    let summary ← entry Summary.ofTree trees 0 expected
    let checks ← entry (sequence Check.ofTree) trees 1 expected
    noMore trees 2
    .ok ⟨summary, checks⟩
  | .object members => do
    checkMembers faults members
    let summary ← field Summary.ofTree members "summary"
    let checks ← field (sequence Check.ofTree) members "checks"
    .ok ⟨summary, checks⟩
  | tree => wrongType tree "struct ValidationReport"
where
  faults (key : String) (value : Tree) : Option Mismatch :=
    if key = "summary" then fault? Summary.ofTree value
    else if key = "checks" then fault? (sequence Check.ofTree) value
    else none

end ApiPresence
