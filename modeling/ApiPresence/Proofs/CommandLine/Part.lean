import ApiPresence.CommandLine.Argument
import Mathlib.Algebra.GroupWithZero.Nat
import Mathlib.Data.List.Induction

namespace ApiPresence
namespace CommandLine

/-- A word that is a value wherever one may stand. -/
structure Operand where
  word : String
  nonempty : word ≠ ""
  unhyphened : word.toList.head? ≠ some '-'

namespace Operand

def ofFormat (format : OutputFormat) : Operand where
  word := format.name
  nonempty := by cases format <;> decide
  unhyphened := by cases format <;> decide

theorem toList_eq (x : Operand) : ∃ c rest, x.word.toList = c :: rest ∧ c ≠ '-' := by
  have hw : x.word.toList ≠ [] := by simpa using x.nonempty
  obtain ⟨c, rest, hc⟩ := List.exists_cons_of_ne_nil hw
  have hd := x.unhyphened
  rw [hc, List.head?_cons, ne_eq, Option.some.injEq] at hd
  exact ⟨c, rest, hc, hd⟩

end Operand

/-- How an option is given its value: behind its letter, behind its name, or joined to its name. -/
inductive Spelling where
  | letter
  | name
  | joined

def Spelling.words (spelling : Spelling) (letter : Char) (name value : String) : List String :=
  match spelling with
  | .letter => ["-" ++ letter.toString, value]
  | .name => ["--" ++ name, value]
  | .joined => ["--" ++ name ++ "=" ++ value]

/-- A part of a command line: an option with its value, or the document. -/
inductive Part where
  /-- One `v` and so many more behind one hyphen. -/
  | verbose (more : Nat)
  | verboseName
  | quiet
  | quietName
  | noColor
  | config (spelling : Spelling) (path : Operand)
  | output (spelling : Spelling) (format : OutputFormat)
  | document (path : Operand)

namespace Part

def words : Part → List String
  | verbose more => [String.ofList ('-' :: 'v' :: List.replicate more 'v')]
  | verboseName => ["--verbose"]
  | quiet => ["-q"]
  | quietName => ["--quiet"]
  | noColor => ["--no-color"]
  | config spelling path => spelling.words 'c' "config" path.word
  | output spelling format => spelling.words 'o' "output" format.name
  | document path => [path.word]

def argument : Part → Argument
  | verbose _ | verboseName => .verbose
  | quiet | quietName => .quiet
  | noColor => .noColor
  | config _ _ => .config
  | output _ _ => .output
  | document _ => .document

/-- How often a part asks for more to be logged. -/
def volume : Part → Nat
  | verbose more => more + 1
  | verboseName => 1
  | _ => 0

def document? : Part → Option String
  | document path => some path.word
  | _ => none

def config? : Part → Option String
  | config _ path => some path.word
  | _ => none

def output? : Part → Option OutputFormat
  | output _ format => some format
  | _ => none

theorem argument_of_document? {p : Part} : p.document? = some path → p.argument = .document := by
  cases p <;> simp [document?, argument]

theorem argument_of_config? {p : Part} : p.config? = some path → p.argument = .config := by
  cases p <;> simp [config?, argument]

theorem argument_of_output? {p : Part} : p.output? = some format → p.argument = .output := by
  cases p <;> simp [output?, argument]

end Part

variable {parts others : List Part} {p : Part} {a : Argument}

/-- How many parts are for an argument. -/
def uses (parts : List Part) (a : Argument) : Nat := parts.countP (·.argument = a)

/-- Only `verbose` may be used more often than once. -/
def Once (parts : List Part) : Prop := ∀ a, a ≠ .verbose → uses parts a ≤ 1

/-- No argument is used too often, and not both `quiet` and `verbose` are used. -/
structure Compatible (parts : List Part) : Prop where
  once : Once parts
  consistent : uses parts .quiet = 0 ∨ uses parts .verbose = 0

/-- What the parts of a command line ask for. -/
def asked (parts : List Part) : Invocation where
  document := parts.findSome? Part.document?
  verbose := min (parts.map Part.volume).sum 255
  quiet := parts.any (·.argument = .quiet)
  config := parts.findSome? Part.config?
  output := parts.findSome? Part.output?
  noColor := parts.any (·.argument = .noColor)

theorem uses_append_singleton (parts : List Part) (p : Part) (a : Argument) :
    uses (parts ++ [p]) a = uses parts a + if p.argument = a then 1 else 0 := by
  simp [uses, List.countP_append, List.countP_singleton]

/-- A part may follow others when its argument may be repeated or is not used by them. -/
theorem once_append_singleton :
    Once (parts ++ [p]) ↔ Once parts ∧ (p.argument = .verbose ∨ uses parts p.argument = 0) := by
  simp only [Once, uses_append_singleton]
  constructor
  · intro h
    constructor
    · intro a ha
      exact Nat.le_trans (Nat.le_add_right _ _) (h a ha)
    · rw [or_iff_not_imp_left]
      intro hp
      have hl := h _ hp
      rw [if_pos rfl] at hl
      omega
  · intro h a ha
    obtain ⟨ho, hp⟩ := h
    have hl := ho a ha
    split
    · next he =>
      have hz := hp.resolve_left (he ▸ ha)
      rw [he] at hz
      omega
    · exact hl

section Named

variable {f : Part → Option β}

/-- Where only the parts for one argument tell something, nothing is told before the first. -/
theorem findSome?_of_may_follow (hf : ∀ p b, f p = some b → p.argument = a) (ha : a ≠ .verbose)
    (h : p.argument = .verbose ∨ uses parts p.argument = 0) (hp : p.argument = a) :
    parts.findSome? f = none := by
  rw [hp] at h
  have hz := h.resolve_left ha
  rw [uses, List.countP_eq_zero] at hz
  rw [List.findSome?_eq_none_iff]
  intro q hq
  cases hb : f q with
  | none => rfl
  | some b => exact absurd (decide_eq_true (hf q b hb)) (hz q hq)

theorem length_filterMap_le_uses (hf : ∀ p b, f p = some b → p.argument = a) :
    (parts.filterMap f).length ≤ uses parts a := by
  rw [List.length_filterMap_eq_countP]
  apply List.countP_mono_left
  intro p _ hp
  obtain ⟨b, hb⟩ := Option.isSome_iff_exists.mp hp
  exact decide_eq_true (hf p b hb)

/-- What one part at most tells does not depend on where it stands. -/
theorem findSome?_perm (hf : ∀ p b, f p = some b → p.argument = a) (hu : uses parts a ≤ 1)
    (h : parts.Perm others) : parts.findSome? f = others.findSome? f := by
  have hl := Nat.le_trans (length_filterMap_le_uses hf) hu
  have hp := h.filterMap f
  rw [← List.head?_filterMap, ← List.head?_filterMap]
  cases hv : parts.filterMap f with
  | nil =>
    rw [hv] at hp
    rw [hp.nil_eq]
  | cons b rest =>
    have hr : rest = [] := by
      rw [hv, List.length_cons] at hl
      exact List.length_eq_zero_iff.mp (by omega)
    rw [hv, hr] at hp
    rw [hr, List.singleton_perm.mp hp]

end Named

theorem Compatible.perm (h : Compatible parts) (hp : parts.Perm others) : Compatible others := by
  have hu (a : Argument) : uses others a = uses parts a := (hp.countP_eq _).symm
  constructor
  · intro a ha
    rw [hu]
    exact h.once a ha
  · rw [hu, hu]
    exact h.consistent

theorem Compatible.asked_perm (h : Compatible parts) (hp : parts.Perm others) :
    asked parts = asked others := by
  have hd := findSome?_perm (fun _ _ => Part.argument_of_document?) (h.once _ nofun) hp
  have hc := findSome?_perm (fun _ _ => Part.argument_of_config?) (h.once _ nofun) hp
  have ho := findSome?_perm (fun _ _ => Part.argument_of_output?) (h.once _ nofun) hp
  have hv := (hp.map Part.volume).sum_nat
  have ha (a : Argument) : parts.any (·.argument = a) = others.any (·.argument = a) := hp.any_eq
  simp only [asked, hd, hc, ho, hv, ha]

/-- What an invocation is once a part has been taken in. -/
def Part.apply (p : Part) (i : Invocation) : Invocation :=
  match p with
  | verbose more => { i with verbose := min (i.verbose + (more + 1)) 255 }
  | verboseName => { i with verbose := min (i.verbose + 1) 255 }
  | quiet | quietName => { i with quiet := true }
  | noColor => { i with noColor := true }
  | config _ path => { i with config := some path.word }
  | output _ format => { i with output := some format }
  | document path => { i with document := some path.word }

theorem asked_append_singleton_eq (parts : List Part) (p : Part) : asked (parts ++ [p]) =
    { document := (asked parts).document.or p.document?
      verbose := min ((asked parts).verbose + p.volume) 255
      quiet := (asked parts).quiet || p.argument = .quiet
      config := (asked parts).config.or p.config?
      output := (asked parts).output.or p.output?
      noColor := (asked parts).noColor || p.argument = .noColor } := by
  have hv : min ((parts.map Part.volume).sum + p.volume) 255 =
      min (min (parts.map Part.volume).sum 255 + p.volume) 255 := by
    omega
  simp [asked, List.findSome?_append, hv]

theorem asked_append_singleton (h : p.argument = .verbose ∨ uses parts p.argument = 0) :
    asked (parts ++ [p]) = p.apply (asked parts) := by
  have hl : min (asked parts).verbose 255 = (asked parts).verbose := by simp [asked]
  have hd : p.argument = .document → (asked parts).document = none :=
    findSome?_of_may_follow (fun _ _ => Part.argument_of_document?) nofun h
  have hc : p.argument = .config → (asked parts).config = none :=
    findSome?_of_may_follow (fun _ _ => Part.argument_of_config?) nofun h
  have ho : p.argument = .output → (asked parts).output = none :=
    findSome?_of_may_follow (fun _ _ => Part.argument_of_output?) nofun h
  rw [asked_append_singleton_eq]
  cases p <;> simp_all [Part.apply, Part.argument, Part.volume, Part.document?, Part.config?,
    Part.output?]

end CommandLine
end ApiPresence
