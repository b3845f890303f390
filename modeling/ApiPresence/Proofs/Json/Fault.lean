import ApiPresence.Json.Reader
import ApiPresence.Proofs.Basic
import ApiPresence.Proofs.Text

namespace ApiPresence.Json

/-- What is wrong is the notation, and not the value. -/
@[simp]
def Cause.Plain (cause : Cause) : Prop := ∀ message, cause ≠ .unwanted message

def Fault.Plain (f : Fault) : Prop := f.cause.Plain

@[simp]
theorem Fault.plain_before {cause : Cause} : (Fault.before cause rest).Plain ↔ cause.Plain :=
  Iff.rfl

@[simp]
theorem Fault.plain_at {cause : Cause} : (Fault.at cause rest).Plain ↔ cause.Plain :=
  Iff.rfl

@[simp]
theorem Fault.plain_mk {cause : Cause} {unread : Nat} : Fault.Plain ⟨cause, unread⟩ ↔ cause.Plain :=
  Iff.rfl

variable {text : List Char}

theorem readWord_plain : FailsOnly Fault.Plain (readWord letters text) := by
  induction letters generalizing text with
  | nil => simp [readWord]
  | cons letter letters ih =>
    cases text with
    | nil => simp [readWord]
    | cons c rest => simp [readWord, ih]

theorem readHex4_plain : FailsOnly Fault.Plain (readHex4 text) := by
  unfold readHex4
  split
  · split <;> simp
  · simp

theorem readUnicodeEscape_plain : FailsOnly Fault.Plain (readUnicodeEscape text) := by
  refine readHex4_plain.bind ?_
  rintro ⟨high, rest⟩ -
  simp only [failsOnly_ite, failsOnly_ok, failsOnly_error, Fault.plain_before]
  refine ⟨by simp, fun _ => ⟨fun _ => trivial, fun _ => ?_⟩⟩
  cases rest with
  | nil => simp
  | cons c rest =>
    by_cases hc : c = '\\'
    · subst hc
      cases rest with
      | nil => simp
      | cons c rest =>
        by_cases hc : c = 'u'
        · subst hc
          refine readHex4_plain.bind ?_
          rintro ⟨low, rest⟩ -
          simp
        · simp [hc]
    · simp [hc]

theorem readEscape_plain : FailsOnly Fault.Plain (readEscape text) := by
  unfold readEscape
  split
  case h_10 => exact readUnicodeEscape_plain
  all_goals simp

theorem readChars_plain : FailsOnly Fault.Plain (readChars fuel text) := by
  fun_induction readChars fuel text with
  | case4 fuel rest ih =>
    refine readEscape_plain.bind ?_
    rintro ⟨c, rest⟩ -
    simp [ih]
  | case6 fuel c rest _ _ _ ih => simp [ih]
  | _ => simp

theorem readString_plain : FailsOnly Fault.Plain (readString text) :=
  readChars_plain.bind fun _ _ => failsOnly_ok

theorem skipEscape_plain : FailsOnly Fault.Plain (skipEscape text) := by
  unfold skipEscape
  split
  case h_2 => exact readHex4_plain.bind fun _ _ => failsOnly_ok
  all_goals simp

theorem skipChars_plain : FailsOnly Fault.Plain (skipChars fuel text) := by
  fun_induction skipChars fuel text with
  | case4 fuel rest ih => exact skipEscape_plain.bind fun rest _ => ih rest
  | case6 fuel c rest _ _ _ ih => exact ih
  | _ => simp

theorem skipString_plain : FailsOnly Fault.Plain (skipString text) := skipChars_plain

theorem finish_plain {p : Partial} : FailsOnly Fault.Plain (p.finish text) := by
  unfold Partial.finish
  split <;> simp

theorem readExponentDigits_plain :
    FailsOnly Fault.Plain (readExponentDigits p positive exponent text) := by
  induction text generalizing exponent with
  | nil => exact finish_plain
  | cons c rest ih =>
    rw [readExponentDigits]
    simp only [failsOnly_ite]
    exact ⟨fun _ => ⟨by simp, fun _ => ih⟩, fun _ => finish_plain⟩

theorem readExponent_plain : FailsOnly Fault.Plain (readExponent p text) := by
  unfold readExponent
  split
  split
  · simp
  · simp [readExponentDigits_plain]

theorem readAfterDigits_plain : FailsOnly Fault.Plain (readAfterDigits p text) := by
  unfold readAfterDigits
  split
  · exact readExponent_plain
  · exact readExponent_plain
  · exact finish_plain

theorem readFraction_plain : FailsOnly Fault.Plain (readFraction p first text) := by
  induction text generalizing p first with
  | nil =>
    rw [readFraction]
    simp [readAfterDigits_plain]
  | cons c rest ih =>
    rw [readFraction]
    simp [ih, readAfterDigits_plain]

theorem readLong_plain : FailsOnly Fault.Plain (readLong p text) := by
  induction text generalizing p with
  | nil => exact finish_plain
  | cons c rest ih =>
    rw [readLong]
    simp [ih, readFraction_plain, readAfterDigits_plain]

theorem readAfterWhole_plain : FailsOnly Fault.Plain (readAfterWhole negative n text) := by
  unfold readAfterWhole
  split
  · exact readFraction_plain
  · exact readExponent_plain
  · exact readExponent_plain
  · exact failsOnly_ok

theorem readWhole_plain : FailsOnly Fault.Plain (readWhole negative n text) := by
  induction text generalizing n with
  | nil => exact readAfterWhole_plain
  | cons c rest ih =>
    rw [readWhole]
    simp [ih, readLong_plain, readAfterWhole_plain]

theorem readNumber_plain : FailsOnly Fault.Plain (readNumber negative text) := by
  unfold readNumber
  split
  · simp
  · split <;> simp [readAfterWhole_plain]
  · simp [readWhole_plain]

theorem skipExponent_plain : FailsOnly Fault.Plain (skipExponent text) := by
  unfold skipExponent
  dsimp only
  split <;> simp

theorem skipAfterDigits_plain : FailsOnly Fault.Plain (skipAfterDigits text) := by
  unfold skipAfterDigits
  split <;> simp [skipExponent_plain]

theorem skipNumber_plain : FailsOnly Fault.Plain (skipNumber text) := by
  unfold skipNumber
  extract_lets fraction
  have hf (rest : List Char) : FailsOnly Fault.Plain (fraction rest) := by
    simp only [fraction]
    split
    · split <;> simp [skipAfterDigits_plain]
    · exact skipAfterDigits_plain
  split
  · split <;> simp [hf]
  · simp [hf]
  · simp

theorem readColon_plain : FailsOnly Fault.Plain (readColon text) := by
  unfold readColon
  split <;> simp

theorem nextItem_plain : FailsOnly Fault.Plain (nextItem first text) := by
  unfold nextItem
  split
  · simp
  · simp
  · simp only [failsOnly_ite, failsOnly_ok, failsOnly_error]
    refine ⟨fun _ => trivial, fun _ => ⟨fun _ => ?_, by simp⟩⟩
    split <;> simp

theorem nextKey_plain : FailsOnly Fault.Plain (nextKey first text) := by
  unfold nextKey
  split
  · simp
  · simp
  · simp only [failsOnly_ite, failsOnly_ok, failsOnly_error]
    refine ⟨by simp, fun _ => ⟨fun _ => ?_, by simp⟩⟩
    split <;> simp

/-- What is read in so many steps fails for faults of the notation alone. -/
structure ReadsPlain (fuel : Nat) : Prop where
  value {depth text} : FailsOnly Fault.Plain (readValue fuel depth text)
  items {depth first text} : FailsOnly Fault.Plain (readItems fuel depth first text)
  entries {depth first text} : FailsOnly Fault.Plain (readEntries fuel depth first text)

theorem readsPlain (fuel : Nat) : ReadsPlain fuel := by
  induction fuel with
  | zero => constructor <;> simp [readValue, readItems, readEntries]
  | succ fuel ih =>
    obtain ⟨hv, hi, he⟩ := ih
    constructor
    case value =>
      intro depth text
      unfold readValue
      split <;> simp [readWord_plain, readNumber_plain, readString_plain, hi, he]
    case items =>
      intro depth first text
      refine nextItem_plain.bind fun next _ => ?_
      split
      · exact failsOnly_ok
      · refine hv.bind ?_
        rintro ⟨item, rest⟩ -
        simp [hi]
    case entries =>
      intro depth first text
      refine nextKey_plain.bind fun next _ => ?_
      split
      · exact failsOnly_ok
      · refine readString_plain.bind ?_
        rintro ⟨key, rest⟩ -
        refine readColon_plain.bind fun rest _ => ?_
        refine hv.bind ?_
        rintro ⟨value, rest⟩ -
        simp [he]

/-- What is stepped over in so many steps fails for faults of the notation alone. -/
structure SkipsPlain (fuel : Nat) : Prop where
  value {text : List Char} : FailsOnly Fault.Plain (skipValue fuel text)
  items {text : List Char} : FailsOnly Fault.Plain (skipMoreItems fuel text)
  member {text : List Char} : FailsOnly Fault.Plain (skipMember fuel text)

theorem skipsPlain (fuel : Nat) : SkipsPlain fuel := by
  induction fuel with
  | zero => constructor <;> simp [skipValue, skipMoreItems, skipMember]
  | succ fuel ih =>
    obtain ⟨hv, hi, hm⟩ := ih
    constructor
    case value =>
      intro text
      unfold skipValue
      split
      case h_7 =>
        split
        · simp
        · simp
        · exact hv.bind fun _ _ => hi
      case h_8 => split <;> simp [hm]
      all_goals simp [readWord_plain, skipNumber_plain, skipString_plain]
    case items =>
      intro text
      unfold skipMoreItems
      split
      case h_3 => exact hv.bind fun _ _ => hi
      all_goals simp
    case member =>
      intro text
      unfold skipMember
      split
      case h_2 =>
        refine skipString_plain.bind fun rest _ => ?_
        refine readColon_plain.bind fun rest _ => ?_
        refine hv.bind fun rest _ => ?_
        split <;> simp [hm]
      all_goals simp

theorem readEnd_plain : FailsOnly Fault.Plain (readEnd text) := by
  unfold readEnd
  split <;> simp

theorem readTree_plain : FailsOnly Fault.Plain (readTree text) := by
  refine (readsPlain _).value.bind ?_
  rintro ⟨tree, rest⟩ -
  simp [readEnd_plain]

theorem Cause.oneLine_message {cause : Cause} (h : cause.Plain) : OneLine cause.message := by
  cases cause with
  | unwanted message => exact absurd rfl (h message)
  | _ => exact oneLine_ofList.mpr (by decide)

theorem Error.oneLine_message_iff {e : Error} : OneLine e.message ↔ OneLine e.cause.message := by
  have hl : OneLine " at line " := oneLine_ofList.mpr (by decide)
  have hc : OneLine " column " := oneLine_ofList.mpr (by decide)
  show OneLine (e.cause.message ++ " at line " ++ Nat.repr e.location.line ++ " column "
    ++ Nat.repr e.location.column) ↔ _
  simp [hl, hc, oneLine_repr]

/-- What is wrong with the notation of a document is told in one line. -/
theorem parse_oneLine (h : parse content = .error e) : OneLine e.message := by
  obtain ⟨fault, hf, rfl⟩ := mapError_eq_error_iff.mp h
  exact Error.oneLine_message_iff.mpr (Cause.oneLine_message (readTree_plain fault hf))

end ApiPresence.Json
