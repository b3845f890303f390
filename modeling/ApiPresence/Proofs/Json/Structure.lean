import ApiPresence.Json.Structure
import ApiPresence.Proofs.Json.Fault
import ApiPresence.Proofs.Mismatch

namespace ApiPresence.Json

variable {text : List Char}

/-- The fault is one of the notation, or tells a value in one line, but for a name. -/
def Fault.OneLineUpToName (f : Fault) : Prop :=
  f.Plain ∨ ∃ m : Mismatch, f.cause = unwanted m ∧ m.OneLineUpToName

theorem Fault.upToName_before {m : Mismatch} (h : OneLine m.message) :
    (Fault.before (unwanted m) rest).OneLineUpToName := .inr ⟨m, rfl, .oneLine h⟩

theorem upToName {result : Except Fault α} (h : FailsOnly Fault.Plain result) :
    FailsOnly Fault.OneLineUpToName result := h.mono fun _ => .inl

theorem wrongType_upToName (he : OneLine expected) :
    FailsOnly Fault.OneLineUpToName (wrongType expected text : Except Fault α) := by
  unfold wrongType
  split
  · exact failsOnly_error.mpr
      (Fault.upToName_before (Mismatch.oneLine_wrongType Found.oneLine_sequence he))
  · exact failsOnly_error.mpr
      (Fault.upToName_before (Mismatch.oneLine_wrongType Found.oneLine_map he))
  · refine (upToName (readsPlain 1).value).bind ?_
    rintro ⟨tree, rest⟩ -
    exact failsOnly_error.mpr
      (Fault.upToName_before (Mismatch.oneLine_wrongType tree.oneLine_found he))

theorem readTextValue_upToName (he : OneLine expected) :
    FailsOnly Fault.OneLineUpToName (readTextValue expected text) := by
  unfold readTextValue
  split
  · exact upToName (failsOnly_error.mpr nofun)
  · exact upToName readString_plain
  · exact wrongType_upToName he

theorem readBool_upToName : FailsOnly Fault.OneLineUpToName (readBool text) := by
  unfold readBool
  split
  · exact upToName (failsOnly_error.mpr nofun)
  · simp [upToName readWord_plain]
  · simp [upToName readWord_plain]
  · exact wrongType_upToName (oneLine_ofList.mpr (by decide))

theorem readOptional_upToName {read : List Char → Except Fault (α × List Char)}
    (h : ∀ text, FailsOnly Fault.OneLineUpToName (read text)) :
    FailsOnly Fault.OneLineUpToName (readOptional read text) := by
  unfold readOptional
  split
  · simp [upToName readWord_plain]
  · simp [h text]

theorem readUnit_upToName : FailsOnly Fault.OneLineUpToName (readUnit text) := by
  unfold readUnit
  split
  · exact upToName (failsOnly_error.mpr nofun)
  · exact upToName readWord_plain
  · exact wrongType_upToName (by decide)

theorem findVariant_upToName {known : List (String × α)} (hk : ∀ k ∈ known, OneLine k.1) :
    FailsOnly Fault.OneLineUpToName (findVariant known name text) := by
  unfold findVariant
  split
  · exact failsOnly_ok
  · refine failsOnly_error.mpr (.inr ⟨_, rfl, .unknownVariant ?_⟩)
    simpa using fun a b => hk (a, b)

theorem readVariant_upToName {known : List (String × α)} (hk : ∀ k ∈ known, OneLine k.1) :
    FailsOnly Fault.OneLineUpToName (readVariant known text) := by
  unfold readVariant
  split
  · exact upToName (failsOnly_error.mpr nofun)
  · refine (upToName readString_plain).bind ?_
    rintro ⟨name, rest⟩ -
    simp [findVariant_upToName hk]
  · refine (readTextValue_upToName (oneLine_ofList.mpr (by decide))).bind ?_
    rintro ⟨name, rest⟩ -
    refine (findVariant_upToName hk).bind fun value _ => ?_
    refine (upToName readColon_plain).bind fun rest _ => ?_
    refine readUnit_upToName.bind fun rest _ => ?_
    refine upToName ?_
    split <;> simp
  · exact upToName (failsOnly_error.mpr nofun)

/-- A field with a name of one line, whose value is told in one line, but for a name. -/
structure Field.OneLineUpToName (field : Field σ) : Prop where
  name : OneLine field.name
  read : ∀ s text, FailsOnly Fault.OneLineUpToName (field.read s text)

theorem readMembers_upToName {fields : List (Field σ)} (hf : ∀ f ∈ fields, f.OneLineUpToName) :
    FailsOnly Fault.OneLineUpToName (readMembers fields fuel first s text) := by
  induction fuel generalizing first s text with
  | zero => exact upToName (failsOnly_error.mpr nofun)
  | succ fuel ih =>
    refine (upToName nextKey_plain).bind fun next _ => ?_
    split
    · exact failsOnly_ok
    · refine (upToName readString_plain).bind ?_
      rintro ⟨name, rest⟩ -
      dsimp only
      split
      · refine (upToName readColon_plain).bind fun rest _ => ?_
        exact (upToName (skipsPlain _).value).bind fun rest _ => ih
      · next field hfind =>
        have hn : field.name = name := by simpa using List.find?_some hfind
        obtain ⟨hl, hr⟩ := hf field (List.mem_of_find?_eq_some hfind)
        split
        · exact failsOnly_error.mpr
            (Fault.upToName_before (Mismatch.oneLine_duplicateField (hn ▸ hl)))
        · refine (upToName readColon_plain).bind fun rest _ => ?_
          exact (hr _ _).bind fun _ _ => ih

theorem readArrayEnd_plain : FailsOnly Fault.Plain (readArrayEnd text) := by
  unfold readArrayEnd
  split
  case h_3 => split <;> simp
  all_goals simp

theorem readElements_upToName {fields : List (Field σ)} (hf : ∀ f ∈ fields, f.OneLineUpToName) :
    FailsOnly Fault.OneLineUpToName (readElements fields first s text) := by
  induction fields generalizing first s text with
  | nil => exact upToName (by simp [readElements, readArrayEnd_plain])
  | cons field fields ih =>
    obtain ⟨h, hfs⟩ := List.forall_mem_cons.mp hf
    refine (upToName nextItem_plain).bind fun next _ => ?_
    split
    · exact failsOnly_ok
    · exact (h.read _ _).bind fun _ _ => ih hfs

theorem readStructure_upToName {fields : List (Field σ)} (he : OneLine expected)
    (hf : ∀ f ∈ fields, f.OneLineUpToName) :
    FailsOnly Fault.OneLineUpToName (readStructure expected fields start text) := by
  unfold readStructure
  split
  · exact upToName (failsOnly_error.mpr nofun)
  · exact readElements_upToName hf
  · exact readMembers_upToName hf
  · exact wrongType_upToName he

/-- What is wrong with some settings is told in one line, but for the name of a variant. -/
theorem readDocument_oneLine_iff {read : List Char → Except Fault (α × List Char)}
    (hr : ∀ text, FailsOnly Fault.OneLineUpToName (read text))
    (h : readDocument read content = .error e) :
    OneLine e.message ↔
      ∀ name known, e.cause = unwanted (.unknownVariant name known) → OneLine name := by
  obtain ⟨fault, hf, rfl⟩ := mapError_eq_error_iff.mp h
  have hu : fault.OneLineUpToName := by
    refine FailsOnly.bind (hr _) (fun _ _ => ?_) fault hf
    simp [upToName readEnd_plain]
  rw [Error.oneLine_message_iff]
  show OneLine fault.cause.message ↔ ∀ name known, fault.cause = _ → _
  rcases hu with hp | ⟨m, hm, hu⟩
  · exact iff_of_true (Cause.oneLine_message hp) fun name known he => absurd he (hp _)
  · rw [hm]
    constructor
    · intro ho name known he
      have ho : OneLine m.message := ho
      rw [Cause.unwanted.inj he] at ho
      exact (Mismatch.oneLine_unknownVariant_iff.mp ho).1
    · exact fun h => hu.oneLine_iff.mpr fun name known he => h name known (he ▸ rfl)

end ApiPresence.Json
