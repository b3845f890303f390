import ApiPresence.Proofs.Tree.Alter
import ApiPresence.Proofs.Validation.Reads
import ApiPresence.Render.Format
import Mathlib.Logic.Relation

namespace ApiPresence

/-- The keys that a validation follows in the root, the information and the components. -/
def followedKeys : List (List String × List String) := [
  ([], ["openapi", "info", "servers", "tags", "paths", "components"]),
  (["info"], ["title", "description"]),
  (["components"], ["schemas", "securitySchemes"])]

def Unread (place : List String) (key : String) : Prop :=
  ∃ keys, (place, keys) ∈ followedKeys ∧ key ∉ keys

theorem not_read_prefix_of_followed :
    ∀ entry ∈ followedKeys, ∀ read ∈ readPlaces, ¬ read <+: entry.1 := by decide

theorem exists_followed_of_prefix : ∀ entry ∈ followedKeys, ∀ read ∈ readPlaces,
    entry.1 <+: read → ∃ key ∈ entry.2, entry.1 ++ [key] <+: read := by decide

/-- A change to a part of a document that a validation does not inspect. -/
inductive UnreadEdit : (d d' : Tree) → Prop where
  /-- Another value under a key of a section. -/
  | value {category : Category} (hp : category.keyPlace = some place) (hk : d.Defines place key)
      (value : Tree) : UnreadEdit d (d.alterAt (place ++ [key]) fun _ => value)
  /-- Another server or tag in the place of one. -/
  | item (hp : place = ["servers"] ∨ place = ["tags"]) (hr : d.Reaches place (.array items))
      (index : Nat) (item : Tree) :
      UnreadEdit d (d.alterAt place fun _ => .array (items.set index item))
  /-- The servers or the tags in another order. -/
  | order (hp : place = ["servers"] ∨ place = ["tags"]) (hr : d.Reaches place (.array items))
      (ho : items.Perm items') : UnreadEdit d (d.alterAt place fun _ => .array items')
  /-- A key that is added, or set to another value. -/
  | insert (hu : Unread place key) (value : Tree) : UnreadEdit d (d.insertAt place key value)
  | remove (hu : Unread place key) : UnreadEdit d (d.removeAt place key)

variable {d d' : Tree} {place : List String} {change : Tree → Tree}

/-- What is read inside a changed node tells what is read of the document. -/
theorem Tree.AlikeAt.alterAt (h : ∀ node, d.Reaches place node → node.AlikeAt (change node) lower) :
    d.AlikeAt (d.alterAt place change) (place ++ lower) := by
  have hl := d.lookup_append place lower
  have hl' := d.lookup_alterAt_append place lower change
  cases hn : d.lookup place with
  | none =>
    rw [hn] at hl hl'
    exact .same (hl.trans hl'.symm)
  | some node =>
    rw [hn, Option.bind_some] at hl hl'
    cases h node (lookup_eq_some_iff.mp hn) with
    | same h => exact .same (hl.trans (h.trans hl'.symm))
    | items h h' hs => exact .items (hl.trans h) (hl'.trans h') hs
    | keys h h' hk => exact .keys (hl.trans h) (hl'.trans h') hk

/-- A change above or at the places that are read counts by what they find in the changed node. -/
theorem alike_alterAt (hp : ∀ other ∈ readPlaces, other <+: place → other = place)
    (h : ∀ lower, place ++ lower ∈ readPlaces → ∀ node, d.Reaches place node →
      node.AlikeAt (change node) lower) :
    ∀ other ∈ readPlaces, d.AlikeAt (d.alterAt place change) other := by
  intro other ho
  by_cases hb : place <+: other
  · obtain ⟨lower, rfl⟩ := hb
    exact .alterAt (h lower ho)
  · apply Tree.AlikeAt.same
    rw [Tree.lookup_alterAt_of_apart hb]
    intro hb'
    rw [hp other ho hb'] at hb
    exact hb List.prefix_rfl

/-- At a place that is read itself, only the node there counts. -/
theorem alike_alterAt_read (hp : place ∈ readPlaces)
    (h : ∀ node, d.Reaches place node → node.AlikeAt (change node) []) :
    ∀ other ∈ readPlaces, d.AlikeAt (d.alterAt place change) other := by
  apply alike_alterAt
  · intro other ho hb
    exact eq_of_prefix_of_read other ho place hp hb
  · intro lower hi
    have he := eq_of_prefix_of_read place hp (place ++ lower) hi (List.prefix_append _ _)
    rw [List.self_eq_append_right.mp he]
    exact h

namespace Unread

theorem exists_cons (h : Unread place key) (hi : place ++ lower ∈ readPlaces) :
    ∃ other rest, lower = other :: rest ∧ other ≠ key := by
  obtain ⟨keys, hf, hk⟩ := h
  obtain ⟨other, ho, hr⟩ := exists_followed_of_prefix _ hf _ hi (List.prefix_append _ _)
  rw [List.prefix_append_right_inj] at hr
  obtain ⟨rest, rfl⟩ := hr
  refine ⟨other, rest, rfl, ?_⟩
  rintro rfl
  exact hk ho

theorem alike (h : Unread place key)
    (hm : ∀ members other, other ≠ key →
      Tree.member? other (edit members) = Tree.member? other members) :
    ∀ other ∈ readPlaces, d.AlikeAt (d.alterAt place (Tree.onMembers edit)) other := by
  apply alike_alterAt
  · intro other ho hb
    obtain ⟨keys, hf, -⟩ := h
    exact absurd hb (not_read_prefix_of_followed _ hf other ho)
  · intro lower hi node hr
    obtain ⟨other, rest, rfl, hne⟩ := h.exists_cons hi
    apply Tree.AlikeAt.same
    rw [Tree.lookup_cons, Tree.lookup_cons]
    cases node with
    | object members => exact congrArg (Option.bind · _) (hm members other hne).symm
    | null | bool | number | string | array => rfl

end Unread

theorem alike_alterAt_items {items items' : List Tree} (hp : place = ["servers"] ∨ place = ["tags"])
    (hr : d.Reaches place (.array items)) (hl : items.length = items'.length) :
    ∀ other ∈ readPlaces, d.AlikeAt (d.alterAt place fun _ => .array items') other := by
  apply alike_alterAt_read
  · rcases hp with rfl | rfl <;> decide
  · intro node hn
    cases (Tree.lookup_eq_some_iff.mpr hr).symm.trans (Tree.lookup_eq_some_iff.mpr hn)
    exact .items rfl rfl hl

namespace UnreadEdit

theorem alike (h : UnreadEdit d d') : ∀ place ∈ readPlaces, d.AlikeAt d' place := by
  cases h with
  | value hp hk value =>
    rw [Tree.alterAt_append]
    apply alike_alterAt_read (Category.mem_readPlaces hp)
    intro node hr
    cases node with
    | object members => exact .keys rfl rfl (Tree.keys_alterMember _ _ members).symm
    | null | bool | number | string | array => exact .same rfl
  | item hp hr index item => exact alike_alterAt_items hp hr List.length_set.symm
  | order hp hr ho => exact alike_alterAt_items hp hr ho.length_eq
  | insert hu value =>
    apply hu.alike
    intro members other hne
    exact Tree.member?_setMember_of_ne hne
  | remove hu =>
    apply hu.alike
    intro members other hne
    exact Tree.member?_removeMember_of_ne hne

end UnreadEdit

/--
A report, and with it its text in every format, is the same after any number of edits to values
under keys of the sections, to servers and tags, and to keys that are not followed.
-/
theorem unread_edits_keep_report (e : ExpectationSet)
    (h : Relation.ReflTransGen UnreadEdit d d') :
    validate e d' = validate e d ∧
      ∀ (format : OutputFormat) (path : String) (coloring : Coloring),
        format.formatReport path (validate e d') coloring =
          format.formatReport path (validate e d) coloring := by
  have hv : validate e d' = validate e d := by
    induction h with
    | refl => rfl
    | tail hs hu ih => exact (validate_congr e hu.alike).symm.trans ih
  refine ⟨hv, ?_⟩
  intro format path coloring
  rw [hv]

/-- The new value reads like a whole description, and the new key like a section. -/
theorem unread_edits_keep_report_lookalike :
    let e : ExpectationSet := ⟨["/a", "/b"], [], "k"⟩
    let d : Tree := .object [("paths", .object [("/a", .null)]),
      ("servers", .array [.bool true, .null])]
    let d' : Tree := .object [
      ("paths", .object [("/a", .object [("paths", .object [("/b", .null)])])]),
      ("schemas", .object [("/b", .null)]),
      ("servers", .array [.null, .bool true])]
    Relation.ReflTransGen UnreadEdit d d' ∧ validate e d' = validate e d := by
  intro e d d'
  let value : Tree := .object [("paths", .object [("/b", .null)])]
  have hv : UnreadEdit d (d.alterAt ["paths", "/a"] fun _ => value) :=
    .value (show Category.path.keyPlace = some ["paths"] from rfl) (by decide) value
  let d₁ := d.alterAt ["paths", "/a"] fun _ => value
  have hs : UnreadEdit d₁ (d₁.alterAt ["servers"] fun _ => .array [.null, .bool true]) :=
    .order (.inl rfl) (Tree.lookup_eq_some_iff.mp rfl) (.swap _ _ _)
  let d₂ := d₁.alterAt ["servers"] fun _ => .array [.null, .bool true]
  have hi : UnreadEdit d₂ (d₂.insertAt [] "schemas" (.object [("/b", .null)])) :=
    .insert ⟨_, List.mem_cons_self, by decide⟩ _
  have he : d₂.insertAt [] "schemas" (.object [("/b", .null)]) = d' := by decide +kernel
  have h : Relation.ReflTransGen UnreadEdit d d' := by
    rw [← he]
    exact ((Relation.ReflTransGen.single hv).tail hs).tail hi
  exact ⟨h, (unread_edits_keep_report e h).1⟩

end ApiPresence
