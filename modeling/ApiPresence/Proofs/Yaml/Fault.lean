import ApiPresence.Proofs.Basic
import ApiPresence.Proofs.Mismatch
import ApiPresence.Yaml.Load

namespace ApiPresence.Yaml

theorem Mark.oneLine_suffix (mark : Mark) : OneLine mark.suffix := by
  unfold suffix
  split
  · exact oneLine_empty
  · have hl : OneLine " at line " := oneLine_ofList.mpr (by decide)
    have hc : OneLine " column " := oneLine_ofList.mpr (by decide)
    simp [hl, hc, oneLine_repr]

theorem oneLine_numberText (n : Number) : OneLine (String.ofList (numberText n)) := by
  refine oneLine_ofList.mpr ?_
  cases n with
  | whole value inRange => exact FloatNotation.not_mem_wholeOf rfl value
  | float value =>
    cases value with
    | finite negative rank => exact FloatNotation.not_mem_text rfl _ _ _
    | infinite negative => cases negative <;> decide
    | nan => decide

theorem Problem.oneLine_message (problem : Problem) : OneLine problem.message := by
  cases problem <;> exact oneLine_ofList.mpr (by decide)

theorem Activity.oneLine_message (activity : Activity) : OneLine activity.message := by
  cases activity <;> exact oneLine_ofList.mpr (by decide)

theorem SyntaxError.oneLine_message (fault : SyntaxError) : OneLine fault.message := by
  cases fault with
  | malformed problem mark context =>
    have hp := problem.oneLine_message
    have hm := mark.oneLine_suffix
    cases context with
    | none =>
      exact oneLine_append.mpr ⟨oneLine_append.mpr ⟨hp, hm⟩, oneLine_empty⟩
    | some context =>
      obtain ⟨activity, start⟩ := context
      have ha := activity.oneLine_message
      have hc : OneLine ", " := by decide
      refine oneLine_append.mpr ⟨oneLine_append.mpr ⟨hp, hm⟩,
        oneLine_append.mpr ⟨oneLine_append.mpr ⟨hc, ha⟩, ?_⟩⟩
      split
      · exact oneLine_empty
      · exact start.oneLine_suffix
  | controlCharacter offset =>
    have hc : OneLine "control characters are not allowed" := oneLine_ofList.mpr (by decide)
    refine oneLine_append.mpr ⟨hc, ?_⟩
    split
    · exact oneLine_empty
    · have hp : OneLine " at position " := oneLine_ofList.mpr (by decide)
      exact oneLine_append.mpr ⟨hp, oneLine_repr offset⟩

theorem MergeError.oneLine_message (fault : MergeError) : OneLine fault.message := by
  cases fault <;> exact oneLine_ofList.mpr (by decide)

theorem NodeProblem.oneLine_duplicateKey (key : Value) :
    OneLine (duplicateKey key).message := by
  have hd : OneLine "duplicate entry " := oneLine_ofList.mpr (by decide)
  have hk : OneLine "with key " := oneLine_ofList.mpr (by decide)
  refine oneLine_append.mpr ⟨hd, ?_⟩
  cases key with
  | null | sequence | mapping | tagged => exact oneLine_ofList.mpr (by decide)
  | bool value => cases value <;> exact oneLine_ofList.mpr (by decide)
  | number n => exact oneLine_append.mpr ⟨hk, oneLine_numberText n⟩
  | string s => exact oneLine_append.mpr ⟨hk, Text.oneLine_quoted s⟩

/-- No key on the way to a node has a line break. -/
def Path.KeysOneLine (path : Path) : Prop := ∀ key, .member key ∈ path → OneLine key

theorem Path.keysOneLine_cons_iff {segment : Segment} {path : Path} :
    KeysOneLine (segment :: path) ↔
      (∀ key, segment = .member key → OneLine key) ∧ path.KeysOneLine := by
  simp only [KeysOneLine, List.mem_cons]
  grind

theorem Path.oneLine_text_iff {path : Path} : OneLine path.text ↔ path.KeysOneLine := by
  have hd : OneLine "." := by decide
  -- What is written of the way in front of a last step.
  have front (rest : Path) (h : OneLine rest.text ↔ rest.KeysOneLine) :
      OneLine (if rest = [] then "" else text rest ++ ".") ↔ rest.KeysOneLine := by
    split
    · next he =>
      subst he
      exact iff_of_true oneLine_empty nofun
    · rw [oneLine_append, and_iff_left hd]
      exact h
  induction path with
  | nil => exact iff_of_true hd nofun
  | cons segment rest ih =>
    rw [keysOneLine_cons_iff]
    cases segment with
    | item index =>
      have hl : OneLine "[" := by decide
      have hr : OneLine "]" := by decide
      show OneLine (text rest ++ "[" ++ Nat.repr index ++ "]") ↔ _
      simpa [hl, hr, oneLine_repr] using ih
    | member key =>
      show OneLine ((if rest = [] then "" else text rest ++ ".") ++ key) ↔ _
      rw [oneLine_append, front rest ih]
      simp [and_comm]
    | unnamed =>
      have hq : OneLine "?" := by decide
      show OneLine ((if rest = [] then "" else text rest ++ ".") ++ "?") ↔ _
      rw [oneLine_append, front rest ih]
      simp [hq]

variable {M : Mismatch → Prop} {K : Path → Prop} {d : Document}

namespace Error

/-- An error at a node tells a mismatch of one kind, and a way of one kind if it is placed. -/
def Tells (M : Mismatch → Prop) (K : Path → Prop) : Error → Prop
  | .node problem place =>
    (∀ m, problem = .mismatch m → M m) ∧ ∀ path mark, place = some (path, mark) → K path
  | _ => True

theorem tells_mismatch (h : M m) : (Yaml.mismatch m).Tells M K := by
  refine ⟨?_, nofun⟩
  rintro _ ⟨⟩
  exact h

theorem Tells.located {e : Error} (h : e.Tells M K) (hk : K path) :
    (e.located path mark).Tells M K := by
  cases e with
  | node problem place =>
    cases place with
    | some place => exact h
    | none =>
      refine ⟨h.1, ?_⟩
      rintro _ _ ⟨⟩
      exact hk
  | _ => exact trivial

theorem oneLine_message_iff (e : Error) :
    OneLine e.message ↔ ∀ problem place, e = .node problem place →
      OneLine problem.message ∧ ∀ path mark, place = some (path, mark) → path.KeysOneLine := by
  cases e with
  | node problem place =>
    have hc : OneLine ": " := by decide
    cases place with
    | none =>
      constructor
      · rintro h _ _ ⟨⟩
        exact ⟨h, nofun⟩
      · exact fun h => (h _ _ rfl).1
    | some place =>
      obtain ⟨path, mark⟩ := place
      have hp : OneLine (if path = [] then "" else path.text ++ ": ") ↔ path.KeysOneLine := by
        split
        · next he =>
          subst he
          exact iff_of_true oneLine_empty nofun
        · rw [oneLine_append, and_iff_left hc, Path.oneLine_text_iff]
      show OneLine ((if path = [] then "" else path.text ++ ": ") ++ problem.message
        ++ mark.suffix) ↔ _
      rw [oneLine_append, oneLine_append, hp, and_iff_left mark.oneLine_suffix]
      constructor
      · rintro ⟨hk, hm⟩ _ _ ⟨⟩
        refine ⟨hm, ?_⟩
        rintro _ _ ⟨⟩
        exact hk
      · intro h
        obtain ⟨hm, hk⟩ := h _ _ rfl
        exact ⟨hk _ _ rfl, hm⟩
  | malformed fault => exact iff_of_true fault.oneLine_message nofun
  | unknownAnchor mark | recursionLimit mark =>
    refine iff_of_true (oneLine_append.mpr ⟨?_, mark.oneLine_suffix⟩) nofun
    exact oneLine_ofList.mpr (by decide)
  | repetitionLimit | endOfStream | severalDocuments =>
    exact iff_of_true (oneLine_ofList.mpr (by decide)) nofun
  | merge fault => exact iff_of_true fault.oneLine_message nofun

end Error

theorem Content.ofScalar_fails :
    FailsOnly (fun m => OneLine m.message) (ofScalar tag tagDone text style) := by
  have hr (expected : String) (content : Option Content) (he : OneLine expected) :
      FailsOnly (fun m => OneLine m.message) (required text expected content) := by
    cases content with
    | some content => exact failsOnly_ok
    | none => exact failsOnly_error.mpr (Mismatch.oneLine_wrongValue (Found.oneLine_string _) he)
  unfold ofScalar
  dsimp only
  split
  · refine failsOnly_ite.mpr ⟨fun _ => hr _ _ (oneLine_ofList.mpr (by decide)), fun _ => ?_⟩
    refine failsOnly_ite.mpr ⟨fun _ => hr _ _ (oneLine_ofList.mpr (by decide)), fun _ => ?_⟩
    refine failsOnly_ite.mpr ⟨fun _ => hr _ _ (oneLine_ofList.mpr (by decide)), fun _ => ?_⟩
    refine failsOnly_ite.mpr ⟨fun _ => hr _ _ (oneLine_ofList.mpr (by decide)), fun _ => ?_⟩
    simp
  · simp

theorem Content.oneLine_found (content : Content) : OneLine content.found.message := by
  cases content with
  | null => exact oneLine_ofList.mpr (by decide)
  | bool value => exact Found.oneLine_boolean value
  | number n =>
    cases n with
    | whole value inRange => exact Found.oneLine_whole value
    | float value => exact Found.oneLine_float value.oneLine_fullText
  | wide value =>
    have hi : OneLine "integer `" := oneLine_ofList.mpr (by decide)
    have ha : OneLine "` as " := oneLine_ofList.mpr (by decide)
    have hw := oneLine_append.mpr ⟨oneLine_append.mpr ⟨hi, oneLine_wholeOf value⟩, ha⟩
    refine oneLine_append.mpr ⟨hw, ?_⟩
    split <;> decide
  | string value => exact Found.oneLine_string _

namespace Document

/-- What keeps a document from being read further is none of its nodes. -/
def FaultApart (d : Document) : Prop := ∀ problem place, d.fault ≠ some (.node problem place)

theorem FaultApart.tells (hd : d.FaultApart) (hf : d.fault = some e) : e.Tells M K := by
  cases e with
  | node problem place => exact absurd hf (hd problem place)
  | _ => exact trivial

theorem peek_tells (hd : d.FaultApart) : FailsOnly (Error.Tells M K) (d.peek p) := by
  unfold peek
  split
  · exact failsOnly_ok
  · refine failsOnly_error.mpr ?_
    cases hf : d.fault with
    | none => exact trivial
    | some e => exact hd.tells hf

theorem jump_tells : FailsOnly (Error.Tells M K) (d.jump number p) := by
  simp [jump, Error.Tells]

theorem located_tells {result : Except Error α} (h : FailsOnly (Error.Tells M K) result)
    (hk : K path) : FailsOnly (Error.Tells M K) (located path mark result) :=
  h.mapError fun _ he => he.located hk

/-- What is read in so many steps fails for a mismatch of a kind, wherever that is. -/
structure ReadsTelling (M : Mismatch → Prop) (d : Document) (fuel : Nat) : Prop where
  value {path depth tagDone p} :
    FailsOnly (Error.Tells M fun _ => True) (d.readValue fuel path depth tagDone p)
  items {path depth index p} :
    FailsOnly (Error.Tells M fun _ => True) (d.readItems fuel path depth index p)
  entries {path depth before p} :
    FailsOnly (Error.Tells M fun _ => True) (d.readEntries fuel path depth before p)

theorem readTagged_tells (ih : d.ReadsTelling M fuel) {own : Except Error (Value × Progress)}
    (ho : FailsOnly (Error.Tells M fun _ => True) own) (name : Option String) :
    FailsOnly (Error.Tells M fun _ => True) (match name with
      | some name => do
        let (value, p) ← d.readValue fuel path depth true p
        .ok (Value.tagged (Tag.withoutBang name) value, p)
      | none => own) := by
  cases name with
  | none => exact ho
  | some name => simp [ih.value]

theorem readValue_tells (hm : ∀ m, OneLine m.message → M m) (hd : d.FaultApart)
    (ih : d.ReadsTelling M fuel) :
    FailsOnly (Error.Tells M fun _ => True) (d.readValue (fuel + 1) path depth tagDone p) := by
  rw [readValue]
  refine (peek_tells hd).bind ?_
  rintro ⟨node, mark⟩ -
  refine located_tells ?_ trivial
  cases node with
  | aliasOf number =>
    refine jump_tells.bind fun inner _ => ?_
    simp [ih.value]
  | scalar tag text style =>
    refine readTagged_tells ih ?_ _
    split
    · next m hc =>
      exact failsOnly_error.mpr (Error.tells_mismatch (hm m (Content.ofScalar_fails m hc)))
    case h_6 value _ =>
      refine failsOnly_error.mpr (Error.tells_mismatch (hm _ ?_))
      exact Mismatch.oneLine_wrongType (Content.oneLine_found _) (oneLine_ofList.mpr (by decide))
    all_goals exact failsOnly_ok
  | sequenceStart tag =>
    refine readTagged_tells ih ?_ _
    cases depth with
    | zero => exact failsOnly_error.mpr trivial
    | succ depth => simp [ih.items]
  | mappingStart tag =>
    refine readTagged_tells ih ?_ _
    cases depth with
    | zero => exact failsOnly_error.mpr trivial
    | succ depth => simp [ih.entries]
  | void => exact failsOnly_ok
  | sequenceEnd | mappingEnd => exact failsOnly_error.mpr trivial

theorem readItems_tells (hd : d.FaultApart) (ih : d.ReadsTelling M fuel) :
    FailsOnly (Error.Tells M fun _ => True) (d.readItems (fuel + 1) path depth index p) := by
  rw [readItems]
  refine (peek_tells hd).bind fun node _ => ?_
  split
  · exact failsOnly_ok
  · exact failsOnly_ok
  · refine ih.value.bind ?_
    rintro ⟨item, p⟩ -
    simp [ih.items]

theorem readEntries_tells (hd : d.FaultApart) (ih : d.ReadsTelling M fuel) :
    FailsOnly (Error.Tells M fun _ => True) (d.readEntries (fuel + 1) path depth before p) := by
  rw [readEntries]
  refine (peek_tells hd).bind fun node _ => ?_
  split
  · exact failsOnly_ok
  · exact failsOnly_ok
  · refine ih.value.bind ?_
    rintro ⟨key, p⟩ -
    cases hf : Value.findEntry key before with
    | some entry =>
      simp only [hf]
      exact failsOnly_error.mpr ⟨by rintro _ ⟨⟩, by rintro _ _ ⟨⟩⟩
    | none =>
      simp only [hf]
      refine ih.value.bind ?_
      rintro ⟨value, p⟩ -
      simp [ih.entries]

theorem readsTelling (hm : ∀ m, OneLine m.message → M m) (hd : d.FaultApart) (fuel : Nat) :
    d.ReadsTelling M fuel := by
  induction fuel with
  | zero => constructor <;> simp [readValue, readItems, readEntries, Error.Tells]
  | succ fuel ih => exact ⟨readValue_tells hm hd ih, readItems_tells hd ih, readEntries_tells hd ih⟩

theorem readAll_tells (hd : d.FaultApart) {read : Progress → Except Error (α × Progress)}
    (h : ∀ p, FailsOnly (Error.Tells M K) (read p)) :
    FailsOnly (Error.Tells M K) (d.readAll read) := by
  refine (h _).bind ?_
  rintro ⟨value, p⟩ -
  dsimp only
  split
  · next fault hf => exact failsOnly_error.mpr (hd.tells hf)
  · split
    · exact failsOnly_error.mpr trivial
    · exact failsOnly_ok

theorem Draft.read_faultApart {unread : Option SyntaxError} (d : Draft) (events : List Event) :
    (d.read unread events).FaultApart := by
  fun_induction read unread d events with
  | case1 d => cases unread <;> (rintro _ _ ⟨⟩)
  | _ => first | assumption | (rintro _ _ ⟨⟩)

theorem ofText_faultApart (text : String) : (ofText text).FaultApart := Draft.read_faultApart _ _

end Document

theorem loadMerged_tells :
    FailsOnly (Error.Tells (fun m => OneLine m.message) fun _ => True) (loadMerged content) := by
  have hd := Document.ofText_faultApart content
  refine FailsOnly.bind (Document.readAll_tells hd fun p => ?_) fun value _ => ?_
  · exact (Document.readsTelling (fun _ h => h) hd _).value
  · intro e he
    obtain ⟨fault, -, rfl⟩ := mapError_eq_error_iff.mp he
    trivial

/-- What keeps a text from being loaded is told in one line, but for the keys on the way to it. -/
theorem loadMerged_oneLine_iff (h : loadMerged content = .error e) :
    OneLine e.message ↔
      ∀ problem path mark, e = .node problem (some (path, mark)) → path.KeysOneLine := by
  have ht := loadMerged_tells e h
  rw [e.oneLine_message_iff]
  constructor
  · rintro ho problem path mark rfl
    exact (ho _ _ rfl).2 _ _ rfl
  · rintro hk problem place rfl
    refine ⟨?_, ?_⟩
    · cases problem with
      | mismatch m => exact ht.1 m rfl
      | duplicateKey key => exact NodeProblem.oneLine_duplicateKey key
    · rintro path mark rfl
      exact hk _ _ _ rfl

end ApiPresence.Yaml
