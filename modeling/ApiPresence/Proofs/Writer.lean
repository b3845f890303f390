import ApiPresence.Writer

namespace ApiPresence

theorem toList_loop_eq (bytes : ByteArray) (i : Nat) (front : List UInt8) :
    ByteArray.toList.loop bytes i front = front.reverse ++ bytes.data.toList.drop i := by
  fun_induction ByteArray.toList.loop bytes i front with
  | case1 i front h ih =>
    have hl : i < bytes.data.toList.length := h
    have hg : bytes.get! i = bytes.data.toList[i] := getElem!_pos bytes.data i h
    rw [ih, hg, List.reverse_cons, List.append_assoc, List.singleton_append,
      List.getElem_cons_drop hl]
  | case2 i front h =>
    have hl : bytes.data.toList.length ≤ i := Nat.le_of_not_lt h
    rw [List.drop_of_length_le hl, List.append_nil]

/-- The octets of two texts that are joined come one after another. -/
theorem toUTF8_append (s t : String) :
    (s ++ t).toUTF8.toList = s.toUTF8.toList ++ t.toUTF8.toList := by
  simp [ByteArray.toList, toList_loop_eq]

/-- There is room in a sink for all of some octets. -/
def Sink.TakesAll (s : Sink) (octets : List UInt8) : Prop :=
  ∀ room, s.room = some room → octets.length ≤ room

theorem Sink.takesAll_of_endless {s : Sink} (h : s.room = none) (octets : List UInt8) :
    s.TakesAll octets := by
  intro room hr
  cases h.symm.trans hr

namespace Writer

/-- What a writer can be told to write. -/
inductive Step where
  | write (text : String)
  | report (document : String) (report : Report)

variable {w : Writer} {fs : FileSystem} {format : OutputFormat} {coloring : Coloring}

namespace Step

/-- The text of a step; that of a report ends in a newline. -/
def text (format : OutputFormat) (coloring : Coloring) : Step → String
  | .write text => text
  | .report document r => endLine (format.formatReport document r coloring)

def octets (format : OutputFormat) (coloring : Coloring) (step : Step) : List UInt8 :=
  (step.text format coloring).toUTF8.toList

/-- How a step ends where there is room for so many octets more. -/
def outcome (format : OutputFormat) (coloring : Coloring) (room : Nat) (step : Step) :
    Except RunError Unit :=
  if (step.octets format coloring).length ≤ room then .ok ()
  else .error (.io "failed to write whole buffer")

end Step

def perform (w : Writer) : Step → Except RunError Unit × Writer
  | .write text => w.write text
  | .report document r => w.report document r

/-- Performs the steps one after another, also those behind a step that fails. -/
def run (w : Writer) : List Step → List (Except RunError Unit) × Writer
  | [] => ([], w)
  | step :: steps =>
    let ended := w.perform step
    let rest := ended.2.run steps
    (ended.1 :: rest.1, rest.2)

/-- The octets that steps write where there is no end of room. -/
def octets (format : OutputFormat) (coloring : Coloring) (steps : List Step) : List UInt8 :=
  steps.flatMap (·.octets format coloring)

@[simp]
theorem octets_nil : octets format coloring [] = [] := rfl

@[simp]
theorem octets_cons (step : Step) (steps : List Step) :
    octets format coloring (step :: steps) =
      step.octets format coloring ++ octets format coloring steps :=
  List.flatMap_cons

theorem perform_eq_write (step : Step) (sink : Sink) :
    perform ⟨format, coloring, sink⟩ step =
      write ⟨format, coloring, sink⟩ (step.text format coloring) := by
  cases step with
  | write text => rfl
  | report document r => rfl

/-- A step writes as much of its text as there is room for, and flushes when that is all of it. -/
theorem perform_eq (step : Step) (written : List UInt8) (room flushes : Nat) :
    perform ⟨format, coloring, written, some room, flushes⟩ step =
      (step.outcome format coloring room,
        ⟨format, coloring, written ++ (step.octets format coloring).take room,
          some (room - (step.octets format coloring).length),
          flushes + [step.outcome format coloring room].countP (·.isOk)⟩) := by
  have hw : (step.text format coloring).toUTF8.toList = step.octets format coloring := rfl
  rw [perform_eq_write, write, Sink.accept, Step.outcome, hw]
  by_cases h : (step.octets format coloring).length ≤ room
  · simp [h, Sink.flush, Except.isOk, Except.toBool]
  · simp [h, Except.isOk, Except.toBool, IoError.message]

theorem perform_eq_of_lt {step : Step} (h : room < (step.octets format coloring).length)
    (written : List UInt8) (flushes : Nat) :
    perform ⟨format, coloring, written, some room, flushes⟩ step =
      (.error (.io "failed to write whole buffer"),
        ⟨format, coloring, written ++ (step.octets format coloring).take room, some 0,
          flushes⟩) := by
  have ho : step.outcome format coloring room = .error (.io "failed to write whole buffer") :=
    if_neg (Nat.not_le_of_lt h)
  rw [perform_eq, ho, Nat.sub_eq_zero_of_le (Nat.le_of_lt h)]
  rfl

/-- Where a sink takes all of it, a step writes its text and flushes. -/
theorem perform_eq_of_takesAll {step : Step} {sink : Sink}
    (h : sink.TakesAll (step.octets format coloring)) :
    perform ⟨format, coloring, sink⟩ step =
      (.ok (), ⟨format, coloring, sink.written ++ step.octets format coloring,
        sink.room.map (· - (step.octets format coloring).length), sink.flushes + 1⟩) := by
  obtain ⟨written, room, flushes⟩ := sink
  cases room with
  | none =>
    rw [perform_eq_write]
    rfl
  | some room =>
    have hl : (step.octets format coloring).length ≤ room := h room rfl
    have ho : step.outcome format coloring room = .ok () := if_pos hl
    rw [perform_eq, ho, List.take_of_length_le hl]
    rfl

theorem checkDocument_error (hl : loadDocument fs path = .error e) :
    w.checkDocument fs path = (.error (.ofLoadError e), w) := by
  rw [checkDocument, reportOn, hl]

theorem checkDocument_ok (hl : loadDocument fs path = .ok tree) :
    w.checkDocument fs path = w.perform (.report path (validate .default tree)) := by
  rw [checkDocument, reportOn, hl]
  rfl

/-- The outcomes of steps, each with the room that those before it have left. -/
def outcomes (format : OutputFormat) (coloring : Coloring) :
    Nat → List Step → List (Except RunError Unit)
  | _, [] => []
  | room, step :: steps =>
    step.outcome format coloring room ::
      outcomes format coloring (room - (step.octets format coloring).length) steps

theorem run_eq (steps : List Step) (written : List UInt8) (room flushes : Nat) :
    run ⟨format, coloring, written, some room, flushes⟩ steps =
      (outcomes format coloring room steps,
        ⟨format, coloring, written ++ (octets format coloring steps).take room,
          some (room - (octets format coloring steps).length),
          flushes + (outcomes format coloring room steps).countP (·.isOk)⟩) := by
  induction steps generalizing written room flushes with
  | nil => simp [run, outcomes]
  | cons step steps ih =>
    rw [run, perform_eq]
    simp only [ih, outcomes, octets_cons, List.append_assoc, List.take_append, List.length_append,
      Nat.sub_sub, Nat.add_assoc, ← List.countP_append, List.singleton_append]

theorem run_eq_endless (steps : List Step) (written : List UInt8) (flushes : Nat) :
    run ⟨format, coloring, written, none, flushes⟩ steps =
      (List.replicate steps.length (.ok ()), ⟨format, coloring,
        written ++ octets format coloring steps, none, flushes + steps.length⟩) := by
  induction steps generalizing written flushes with
  | nil => simp [run]
  | cons step steps ih =>
    rw [run, perform_eq_of_takesAll (Sink.takesAll_of_endless rfl _)]
    simp only [Option.map_none, ih, octets_cons, List.append_assoc, List.length_cons,
      List.replicate_succ]
    rw [Nat.add_assoc, Nat.add_comm 1]

theorem outcomes_take (n : Nat) (room : Nat) (steps : List Step) :
    outcomes format coloring room (steps.take n) =
      (outcomes format coloring room steps).take n := by
  induction steps generalizing n room with
  | nil => simp [outcomes]
  | cons step steps ih =>
    cases n with
    | zero => rfl
    | succ n => simp [outcomes, ih]

/-- A step succeeds when it has nothing to write, or when there is room for it and all before it. -/
theorem outcomes_getElem? (i : Nat) (room : Nat) (steps : List Step) :
    (outcomes format coloring room steps)[i]? = steps[i]?.map fun step =>
      if step.octets format coloring = [] ∨
          (octets format coloring (steps.take (i + 1))).length ≤ room then .ok ()
      else .error (.io "failed to write whole buffer") := by
  induction steps generalizing i room with
  | nil => rfl
  | cons step steps ih =>
    cases i with
    | zero =>
      have : step.octets format coloring = [] → (step.octets format coloring).length ≤ room := by
        intro h
        simp [h]
      simp [outcomes, Step.outcome, or_iff_right_of_imp this]
    | succ i =>
      cases hs : steps[i]? with
      | none => simp [outcomes, ih, hs]
      | some later =>
        have hl : later ∈ steps.take (i + 1) :=
          List.mem_of_getElem? ((List.getElem?_take_of_lt i.lt_succ_self).trans hs)
        -- What a later step writes is part of what the steps up to it write.
        have hp : (later.octets format coloring).length ≤
            (octets format coloring (steps.take (i + 1))).length :=
          (List.sublist_flatten_of_mem (List.mem_map_of_mem hl)).length_le
        simp only [outcomes, List.getElem?_cons_succ, ih, hs, List.take_succ_cons, octets_cons,
          List.length_append, Option.map_some, ← List.length_eq_zero_iff]
        congr 2
        rw [eq_iff_iff]
        omega

/--
The octets of all steps come in their order up to the end of room. A step fails when its own reach
beyond that, also behind a step that has failed, and every other step flushes once.
-/
theorem run_writes_in_order (format : OutputFormat) (coloring : Coloring) (room n : Nat)
    (steps : List Step) :
    let start : Writer := ⟨format, coloring, .empty (some room)⟩
    let results := (start.run steps).1
    let firstResults := (start.run (steps.take n)).1
    let sink := (start.run (steps.take n)).2.sink
    sink.written = (octets format coloring (steps.take n)).take room ∧
      (∀ i, results[i]? = steps[i]?.map fun step =>
        if step.octets format coloring = [] ∨
            (octets format coloring (steps.take (i + 1))).length ≤ room then .ok ()
        else .error (.io "failed to write whole buffer")) ∧
      firstResults = results.take n ∧
      sink.flushes = firstResults.countP (·.isOk) := by
  intro start results firstResults sink
  simp only [start, results, firstResults, sink, Sink.empty, run_eq, List.nil_append, Nat.zero_add]
  exact ⟨trivial, fun i => outcomes_getElem? i room steps, outcomes_take n room steps, trivial⟩

end Writer
end ApiPresence
