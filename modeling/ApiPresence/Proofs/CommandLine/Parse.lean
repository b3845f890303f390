import ApiPresence.CommandLine.Parse
import ApiPresence.Proofs.Basic
import ApiPresence.Proofs.CommandLine.Part
import Mathlib.Data.List.Nodup

namespace ApiPresence
namespace CommandLine

variable {parts : List Part} {p : Part} {i : Invocation} {a : Argument}

namespace State

variable {s t u : State}

/-- No value is awaited, and no argument is in use twice. -/
structure Reading (s : State) : Prop where
  words : s.valuesOnly = false
  pending : ∀ a, s.pending ≠ some (a, none)
  nodup : s.present.Nodup

/-- All that has been read has been taken in. -/
structure Settled (s : State) : Prop extends Reading s where
  settled : s.pending = none

/-- A part can be taken in: its argument may be repeated, or is not in use yet. -/
def Admits (s : State) (p : Part) : Prop := p.argument = .verbose ∨ p.argument ∉ s.present

/-- The state in which a part has been taken in. -/
def after (s : State) (p : Part) : State :=
  { s with
    invocation := p.apply s.invocation
    present := s.present.erase p.argument ++ [p.argument] }

theorem settled_start : start.Settled where
  words := rfl
  pending := nofun
  nodup := List.nodup_nil
  settled := rfl

theorem Settled.settle (h : s.Settled) : s.settle = .ok s := by
  rw [State.settle, h.settled]

theorem Settled.after (h : s.Settled) (p : Part) : (s.after p).Settled where
  words := h.words
  pending := h.pending
  nodup := by
    have hn : p.argument ∉ s.present.erase p.argument := h.nodup.not_mem_erase
    rw [State.after, ← List.concat_eq_append]
    exact (h.nodup.erase _).concat hn
  settled := h.settled

theorem accept_eq_ok_iff : s.accept a (some value) = .ok t ↔
    a ∉ s.present ∧ ∃ i, s.assign a value = .ok i ∧
      t = { s with invocation := i, present := s.present ++ [a] } := by
  rw [accept]
  split
  · next ha => exact iff_of_false nofun fun h => h.1 ha
  · next ha => simp only [bind_eq_ok_iff, ok_eq_ok_iff, ha, not_false_iff, true_and]

theorem Reading.settled (h : s.Reading) (ht : s.settle = .ok t) : t.Settled := by
  rw [State.settle] at ht
  split at ht
  · next hp =>
    cases ht
    exact ⟨h, hp⟩
  · next a value hp =>
    cases value with
    | none => exact absurd hp (h.pending a)
    | some value =>
      obtain ⟨ha, i, hi, rfl⟩ := accept_eq_ok_iff.mp ht
      constructor
      · constructor
        · exact h.words
        · exact nofun
        · exact List.concat_eq_append ▸ h.nodup.concat ha
      · rfl

/-- What a part says is taken in as its argument's value. -/
theorem accept_iff (hv : p.argument ≠ .verbose)
    (ha : s.assign p.argument value = .ok (p.apply s.invocation)) :
    s.accept p.argument (some value) = .ok t ↔ s.Admits p ∧ t = s.after p := by
  rw [accept_eq_ok_iff, ha, Admits, or_iff_right hv]
  apply and_congr_right
  intro hn
  simp only [ok_eq_ok_iff, exists_eq_left, State.after, List.erase_of_not_mem hn]

/-- Letters of one word count as if they stood in words of their own. -/
theorem Settled.after_after (h : s.Settled) (more : Nat) :
    (s.after .verboseName).after (.verbose more) = s.after (.verbose (more + 1)) := by
  have hv : Argument.verbose ∉ s.present.erase .verbose := h.nodup.not_mem_erase
  have hc (n : Nat) : min (min (n + 1) 255 + (more + 1)) 255 = min (n + (more + 1 + 1)) 255 := by
    omega
  simp only [State.after, Part.apply, Part.argument, hc]
  rw [List.erase_append_right _ hv]
  simp

theorem Settled.use_verbose (h : s.Settled) (long : Bool) :
    s.use .verbose long = .ok (s.after .verboseName) := by
  rw [use, h.settle, ok_bind]
  simp only [State.after, Part.apply, Part.argument, countLimit, Nat.min_comm 255]

theorem Settled.readLetters_verbose (h : s.Settled) (more : Nat) :
    s.readLetters ('v' :: List.replicate more 'v') = .ok (s.after (.verbose more)) := by
  induction more generalizing s with
  | zero =>
    change (s.use .verbose false >>= fun s => s.readLetters []) = _
    rw [h.use_verbose]
    rfl
  | succ more ih =>
    change (s.use .verbose false >>= fun s => s.readLetters ('v' :: List.replicate more 'v')) = _
    rw [h.use_verbose, ok_bind, ih (h.after _), h.after_after]

/-- An argument without a value is used at once. -/
theorem Settled.use_iff (h : s.Settled) (hp : p.argument = .quiet ∨ p.argument = .noColor) :
    s.use p.argument long = .ok t ↔ s.Admits p ∧ t = s.after p := by
  have hv : p.argument ≠ .verbose := by
    intro hv
    rw [hv] at hp
    cases hp <;> contradiction
  rw [Admits, or_iff_right hv, use, h.settle, ok_bind]
  by_cases hm : p.argument ∈ s.present
  · cases p with
    | verbose | verboseName | config | output | document => simp [Part.argument] at hp
    | quiet | quietName | noColor =>
      simp only [Part.argument] at hm ⊢
      simp [hm, refuse]
  · cases p with
    | verbose | verboseName | config | output | document => simp [Part.argument] at hp
    | quiet | quietName | noColor =>
      simp only [Part.argument] at hm ⊢
      simp [hm, State.after, Part.apply, Part.argument, List.erase_of_not_mem hm, eq_comm]

theorem Reading.use_eq (h : s.Reading) (a : Argument) (long : Bool) :
    s.use a long = s.settle >>= fun u => u.use a long := by
  rw [use]
  cases hs : s.settle with
  | error e => rfl
  | ok u =>
    rw [ok_bind, ok_bind, use, (h.settled hs).settle]
    rfl

theorem Reading.step_operand (h : s.Reading) (x : Operand) :
    s.step x.word = s.readValue x.word := by
  obtain ⟨c, rest, hc, hd⟩ := x.toList_eq
  cases hp : s.pending with
  | none => simp [step, h.words, hc, hd, hp]
  | some pair =>
    obtain ⟨a, value⟩ := pair
    cases value with
    | none => exact absurd hp (h.pending a)
    | some value => simp [step, h.words, hc, hd, hp]

theorem step_awaited (h : s.valuesOnly = false) (a : Argument) (x : Operand) :
    ({ s with pending := some (a, none) } : State).step x.word =
      .ok { s with pending := some (a, some x.word) } := by
  obtain ⟨c, rest, hc, hd⟩ := x.toList_eq
  simp [step, h, hc, hd]

/-- Words are read well when the state before them can be settled and then admits a part. -/
structure Takes (s : State) (p : Part) (words : List String) : Prop where
  reading : ∀ t, words.foldlM step s = .ok t → t.Reading
  settle_iff : ∀ t, (words.foldlM step s >>= settle) = .ok t ↔
    ∃ u, s.settle = .ok u ∧ u.Admits p ∧ t = u.after p

section Takes

variable {words : List String} (next : State → Except Stop State)

/-- Where all else is settled first, only what comes then is to be looked at. -/
theorem Reading.takes (h : s.Reading) (hs : words.foldlM step s = s.settle >>= next)
    (hr : ∀ u t, u.Settled → next u = .ok t → t.Reading)
    (hn : ∀ u t, u.Settled → ((next u >>= settle) = .ok t ↔ u.Admits p ∧ t = u.after p)) :
    s.Takes p words := by
  constructor
  · intro t ht
    rw [hs, bind_eq_ok_iff] at ht
    obtain ⟨u, hu, ht⟩ := ht
    exact hr u t (h.settled hu) ht
  · intro t
    rw [hs, bind_assoc, bind_eq_ok_iff]
    apply exists_congr
    intro u
    apply and_congr_right
    intro hu
    exact hn u t (h.settled hu)

theorem Reading.takes_at_once (h : s.Reading) (hs : words.foldlM step s = s.settle >>= next)
    (hn : ∀ u t, u.Settled → (next u = .ok t ↔ u.Admits p ∧ t = u.after p)) :
    s.Takes p words := by
  apply h.takes next hs
  · intro u t hu ht
    obtain ⟨-, rfl⟩ := (hn u t hu).mp ht
    exact (hu.after p).toReading
  · intro u t hu
    rw [bind_eq_ok_iff]
    constructor
    · intro hv
      obtain ⟨v, hv, ht⟩ := hv
      obtain ⟨ha, rfl⟩ := (hn u v hu).mp hv
      rw [(hu.after p).settle] at ht
      exact ⟨ha, ok_eq_ok_iff.mp ht⟩
    · intro ha
      obtain ⟨ha, rfl⟩ := ha
      exact ⟨_, (hn u _ hu).mpr ⟨ha, rfl⟩, (hu.after p).settle⟩

end Takes

theorem foldlM_word (s : State) (word : String) : [word].foldlM step s = s.step word := by
  rw [List.foldlM_cons]
  cases s.step word <;> rfl

theorem Reading.takes_used (h : s.Reading) (long : Bool)
    (hp : p.argument = .quiet ∨ p.argument = .noColor)
    (hw : s.step word = s.use p.argument long) : s.Takes p [word] := by
  apply h.takes_at_once fun u => u.use p.argument long
  · rw [foldlM_word, hw, h.use_eq]
  · intro u t hu
    exact hu.use_iff hp

theorem Reading.takes_verbose (h : s.Reading) (more : Nat) :
    s.Takes (.verbose more) (Part.words (.verbose more)) := by
  apply h.takes_at_once fun u => u.readLetters ('v' :: List.replicate more 'v')
  · have hw : s.step (String.ofList ('-' :: 'v' :: List.replicate more 'v')) =
        (s.use .verbose false >>= fun u => u.readLetters (List.replicate more 'v')) := by
      simp only [step, h.words, String.toList_ofList]
      rfl
    rw [Part.words, foldlM_word, hw, h.use_eq, bind_assoc]
    rfl
  · intro u t hu
    rw [hu.readLetters_verbose, ok_eq_ok_iff, Admits, Part.argument]
    simp

theorem Reading.takes_verboseName (h : s.Reading) :
    s.Takes .verboseName (Part.words .verboseName) := by
  apply h.takes_at_once fun u => u.use .verbose true
  · have hw : s.step "--verbose" = s.use .verbose true := by
      simp only [step, h.words]
      rfl
    rw [Part.words, foldlM_word, hw, h.use_eq]
  · intro u t hu
    rw [hu.use_verbose, ok_eq_ok_iff, Admits, Part.argument]
    simp

/-- A part says what the value of its argument is. -/
structure Says (p : Part) (x : Operand) : Prop where
  argument : p.argument ≠ .verbose
  assign : ∀ s : State, s.assign p.argument x.word = .ok (p.apply s.invocation)

section Says

variable {x : Operand} {words : List String} {word : String}

theorem Settled.settle_pending (h : s.Settled) (a : Argument) (value : String) :
    ({ s with pending := some (a, some value) } : State).settle = s.accept a (some value) := by
  obtain ⟨i, present, pending, valuesOnly⟩ := s
  cases h.settled
  rfl

/-- A value that waits is taken in when something else comes. -/
theorem Says.takes_pending (hx : Says p x) (h : s.Reading)
    (hs : words.foldlM step s = s.settle >>= fun u =>
      .ok { u with pending := some (p.argument, some x.word) }) : s.Takes p words := by
  apply h.takes _ hs
  · intro u t hu ht
    cases ht
    constructor
    · exact hu.words
    · intro a h
      cases h
    · exact hu.nodup
  · intro u t hu
    rw [ok_bind, hu.settle_pending]
    exact accept_iff hx.argument (hx.assign u)

theorem Says.takes_awaited (hx : Says p x) (h : s.Reading)
    (hw : s.step word = s.await p.argument) : s.Takes p [word, x.word] := by
  apply hx.takes_pending h
  rw [List.foldlM_cons, hw, await, bind_assoc]
  cases hu : s.settle with
  | error e => rfl
  | ok u => rw [ok_bind, ok_bind, ok_bind, foldlM_word, step_awaited (h.settled hu).words]

theorem Says.takes_joined (hx : Says p x) (h : s.Reading)
    (hw : s.step word = s.attach p.argument x.word.toList) : s.Takes p [word] := by
  apply h.takes_at_once fun u => u.accept p.argument (some x.word)
  · rw [foldlM_word, hw, attach, String.ofList_toList]
  · intro u t hu
    exact accept_iff hx.argument (hx.assign u)

/-- A name ends where the sign of equality stands that joins it to its value. -/
theorem isName_of_not_mem {name : List Char} (he : '=' ∉ name) :
    ∀ c ∈ name, decide (c ≠ '=') = true := by
  intro c hc
  exact decide_eq_true (ne_of_mem_of_not_mem hc he)

theorem readLong_name (hn : Argument.ofLongName? (String.ofList name) = some a)
    (hv : a.takesValue = true) (he : '=' ∉ name) : s.readLong name = s.await a := by
  have ht : (name ++ []).takeWhile (· ≠ '=') = name :=
    takeWhile_append (isName_of_not_mem he) nofun
  have hd : (name ++ []).dropWhile (· ≠ '=') = [] :=
    dropWhile_append (isName_of_not_mem he) nofun
  rw [List.append_nil] at ht hd
  simp only [readLong, ht, hd, hn, hv]

theorem readLong_joined (hn : Argument.ofLongName? (String.ofList name) = some a)
    (hv : a.takesValue = true) (he : '=' ∉ name) (value : List Char) :
    s.readLong (name ++ '=' :: value) = s.attach a value := by
  have hm : ∀ c ∈ ('=' :: value).head?, decide (c ≠ '=') = false := by simp
  have hk := isName_of_not_mem he
  simp only [readLong, takeWhile_append hk hm, dropWhile_append hk hm, hn, hv]

/-- An option that takes a value does so however it is spelled. -/
theorem Says.takes_spelled (hx : Says p x) (h : s.Reading) (spelling : Spelling) (letter : Char)
    (name : String) (hv : p.argument.takesValue = true)
    (hl : Argument.ofLetter? letter = some p.argument) (hd : letter ≠ '-')
    (hn : Argument.ofLongName? name = some p.argument)
    (he : name.toList ≠ [] ∧ '=' ∉ name.toList) :
    s.Takes p (spelling.words letter name x.word) := by
  rw [← String.ofList_toList (s := name)] at hn
  obtain ⟨c, rest, hc⟩ := List.exists_cons_of_ne_nil he.1
  cases spelling with
  | letter =>
    apply hx.takes_awaited h
    simp [step, h.words, readLetters, hd, hl, hv]
  | name =>
    apply hx.takes_awaited h
    rw [← readLong_name hn hv he.2]
    simp [step, h.words, hc]
  | joined =>
    apply hx.takes_joined h
    rw [← readLong_joined hn hv he.2]
    simp [step, h.words, hc]

end Says

theorem says_config (spelling : Spelling) (path : Operand) : Says (.config spelling path) path where
  argument := by
    intro h
    cases h
  assign s := by rw [Part.argument, assign, if_neg path.nonempty, Part.apply]

theorem says_document (path : Operand) : Says (.document path) path where
  argument := by
    intro h
    cases h
  assign s := by rw [Part.argument, assign, if_neg path.nonempty, Part.apply]

theorem says_output (spelling : Spelling) (format : OutputFormat) :
    Says (.output spelling format) (.ofFormat format) where
  argument := by
    intro h
    cases h
  assign s := by
    have hl : OutputFormat.names.lookup format.name = some format := by cases format <;> rfl
    rw [Part.argument, assign, if_neg (Operand.ofFormat format).nonempty, Part.apply]
    simp only [Operand.ofFormat, hl]

theorem hasDocument_of_settle (h : s.settle = .ok u) (hd : s.hasDocument = true) :
    .document ∈ u.present := by
  rw [hasDocument] at hd
  rw [settle] at h
  split at h
  · next hp =>
    cases h
    simpa [hp] using hd
  · next a value hp =>
    cases value with
    | none => cases h
    | some value =>
      obtain ⟨-, i, -, rfl⟩ := accept_eq_ok_iff.mp h
      have hm : .document ∈ s.present ∨ a = .document := by simpa [hp] using hd
      exact List.mem_append.mpr (hm.imp_right fun ha => List.mem_singleton.mpr ha.symm)

theorem Reading.takes_document (h : s.Reading) (path : Operand) :
    s.Takes (.document path) (Part.words (.document path)) := by
  have hw : (Part.words (.document path)).foldlM step s = s.readValue path.word :=
    (foldlM_word s path.word).trans (h.step_operand path)
  cases hd : s.hasDocument with
  | false =>
    apply (says_document path).takes_pending h
    rw [hw, readValue, hd]
    rfl
  | true =>
    have he : ∀ t, s.readValue path.word ≠ .ok t := by
      intro t ht
      rw [readValue, hd] at ht
      cases ht
    constructor
    · intro t ht
      exact absurd (hw ▸ ht) (he t)
    · intro t
      rw [hw, bind_eq_ok_iff]
      constructor
      · intro ht
        obtain ⟨v, hv, -⟩ := ht
        exact absurd hv (he v)
      · intro ht
        obtain ⟨u, hu, ha, -⟩ := ht
        have hm := hasDocument_of_settle hu hd
        cases ha with
        | inl ha => cases ha
        | inr ha => exact absurd hm ha

theorem Reading.takes_part (h : s.Reading) (p : Part) : s.Takes p p.words := by
  cases p with
  | verbose more => exact h.takes_verbose more
  | verboseName => exact h.takes_verboseName
  | quiet =>
    have hw : s.step "-q" = (s.use .quiet false >>= fun u => u.readLetters []) := by
      simp only [step, h.words]
      rfl
    apply h.takes_used false (.inl rfl)
    rw [hw]
    exact bind_pure _
  | quietName =>
    apply h.takes_used true (.inl rfl)
    simp only [step, h.words]
    rfl
  | noColor =>
    apply h.takes_used true (.inr rfl)
    simp only [step, h.words]
    rfl
  | config spelling path =>
    have hd : '=' ∉ "config".toList := by decide
    exact (says_config spelling path).takes_spelled h spelling _ _ rfl rfl nofun rfl ⟨nofun, hd⟩
  | output spelling format =>
    have hd : '=' ∉ "output".toList := by decide
    exact (says_output spelling format).takes_spelled h spelling _ _ rfl rfl nofun rfl ⟨nofun, hd⟩
  | document path => exact h.takes_document path

theorem mem_present_after : a ∈ (s.after p).present ↔ a ∈ s.present ∨ p.argument = a := by
  rw [after, List.mem_append, List.mem_singleton]
  by_cases ha : a = p.argument
  · simp [ha]
  · rw [List.mem_erase_of_ne ha, eq_comm]

theorem mem_present_foldl (parts : List Part) (a : Argument) :
    a ∈ (parts.foldl after start).present ↔ uses parts a ≠ 0 := by
  induction parts using List.reverseRecOn with
  | nil => simp [start, uses]
  | append_singleton parts p ih =>
    rw [List.foldl_append, List.foldl_cons, List.foldl_nil, mem_present_after, ih,
      uses_append_singleton]
    split <;> simp [*]

theorem settled_foldl (parts : List Part) : (parts.foldl after start).Settled := by
  induction parts using List.reverseRecOn with
  | nil => exact settled_start
  | append_singleton parts p ih =>
    rw [List.foldl_append]
    exact ih.after p

/-- Parts are read well exactly when each is admitted behind those in front of it. -/
theorem run_parts (parts : List Part) :
    (∀ s, (parts.flatMap Part.words).foldlM step start = .ok s → s.Reading) ∧
    ∀ t, ((parts.flatMap Part.words).foldlM step start >>= settle) = .ok t ↔
      Once parts ∧ t = parts.foldl after start := by
  induction parts using List.reverseRecOn with
  | nil =>
    constructor
    · intro s h
      cases h
      exact settled_start.toReading
    · intro t
      have ho : Once [] := fun a _ => Nat.zero_le 1
      rw [and_iff_right ho]
      exact ok_eq_ok_iff
  | append_singleton parts p ih =>
    obtain ⟨hr, hs⟩ := ih
    rw [List.flatMap_append, List.foldlM_append, List.flatMap_singleton]
    constructor
    · intro t ht
      obtain ⟨s, hf, hp⟩ := bind_eq_ok_iff.mp ht
      exact ((hr s hf).takes_part p).reading t hp
    · intro t
      have ha : (parts.foldl after start).Admits p ↔
          p.argument = .verbose ∨ uses parts p.argument = 0 := by
        rw [Admits, mem_present_foldl, not_not]
      rw [once_append_singleton, ← ha, List.foldl_append, List.foldl_cons, List.foldl_nil,
        bind_assoc, bind_eq_ok_iff]
      constructor
      · intro h
        obtain ⟨s, hf, hp⟩ := h
        obtain ⟨u, hu, hm, rfl⟩ := (((hr s hf).takes_part p).settle_iff t).mp hp
        obtain ⟨ho, rfl⟩ := (hs u).mp (bind_eq_ok_iff.mpr ⟨s, hf, hu⟩)
        exact ⟨⟨ho, hm⟩, rfl⟩
      · intro h
        obtain ⟨⟨ho, hm⟩, rfl⟩ := h
        obtain ⟨s, hf, hu⟩ := bind_eq_ok_iff.mp ((hs _).mpr ⟨ho, rfl⟩)
        exact ⟨s, hf, (((hr s hf).takes_part p).settle_iff _).mpr ⟨_, hu, hm, rfl⟩⟩

theorem invocation_foldl (h : Once parts) : (parts.foldl after start).invocation = asked parts := by
  induction parts using List.reverseRecOn with
  | nil => rfl
  | append_singleton parts p ih =>
    obtain ⟨ho, hp⟩ := once_append_singleton.mp h
    rw [List.foldl_append, List.foldl_cons, List.foldl_nil, asked_append_singleton hp, ← ih ho]
    rfl

theorem Reading.conflict?_eq_none_iff (h : s.Reading) :
    s.conflict? = none ↔ .quiet ∉ s.present ∨ .verbose ∉ s.present := by
  have hm (a : Argument) : a ∈ s.present.filter (fun a => a = .quiet || a = .verbose) ↔
      a ∈ s.present ∧ (a = .quiet ∨ a = .verbose) := by
    simp
  have hn := h.nodup.filter fun a => a = .quiet || a = .verbose
  rw [conflict?]
  cases hf : s.present.filter (fun a => a = .quiet || a = .verbose) with
  | nil =>
    rw [hf] at hm
    apply iff_of_true rfl
    left
    intro hq
    exact List.not_mem_nil ((hm .quiet).mpr ⟨hq, .inl rfl⟩)
  | cons former rest =>
    cases rest with
    | nil =>
      rw [hf] at hm
      apply iff_of_true rfl
      rw [← not_and_or]
      intro hb
      have hq := List.mem_singleton.mp ((hm .quiet).mpr ⟨hb.1, .inl rfl⟩)
      have hv := List.mem_singleton.mp ((hm .verbose).mpr ⟨hb.2, .inr rfl⟩)
      cases hq.trans hv.symm
    | cons other rest =>
      rw [hf] at hm hn
      apply iff_of_false nofun
      obtain ⟨hp, hq⟩ := (hm former).mp List.mem_cons_self
      obtain ⟨hp', hv⟩ := (hm other).mp (List.mem_cons_of_mem _ List.mem_cons_self)
      have hd : former ≠ other := (List.pairwise_cons.mp hn).1 other List.mem_cons_self
      rcases hq with rfl | rfl <;> rcases hv with rfl | rfl <;> simp_all

theorem finish_eq_ok_iff : s.finish = .ok i ↔
    ∃ t, s.settle = .ok t ∧ t.conflict? = none ∧ i = t.invocation := by
  rw [finish, bind_eq_ok_iff]
  apply exists_congr
  intro t
  apply and_congr_right
  intro _
  cases t.conflict? with
  | none => exact ok_eq_ok_iff.trans (and_iff_right rfl).symm
  | some pair => exact iff_of_false nofun fun h => Option.some_ne_none _ h.1

end State

theorem parse_eq_ok_iff :
    parse (parts.flatMap Part.words) = .ok i ↔ Compatible parts ∧ i = asked parts := by
  have hc : (parts.foldl State.after .start).conflict? = none ↔
      uses parts .quiet = 0 ∨ uses parts .verbose = 0 := by
    rw [(State.settled_foldl parts).conflict?_eq_none_iff, State.mem_present_foldl,
      State.mem_present_foldl, not_not, not_not]
  rw [parse, bind_eq_ok_iff]
  constructor
  · intro h
    obtain ⟨s, hf, hs⟩ := h
    obtain ⟨t, ht, hn, rfl⟩ := State.finish_eq_ok_iff.mp hs
    obtain ⟨ho, rfl⟩ := ((State.run_parts parts).2 t).mp (bind_eq_ok_iff.mpr ⟨s, hf, ht⟩)
    exact ⟨⟨ho, hc.mp hn⟩, State.invocation_foldl ho⟩
  · intro h
    obtain ⟨⟨ho, hn⟩, rfl⟩ := h
    obtain ⟨s, hf, ht⟩ := bind_eq_ok_iff.mp (((State.run_parts parts).2 _).mpr ⟨ho, rfl⟩)
    exact ⟨s, hf, State.finish_eq_ok_iff.mpr ⟨_, ht, hc.mpr hn, (State.invocation_foldl ho).symm⟩⟩

/--
A command line that is made up of parts is read exactly when its parts go together, as what they ask
for, and the order of the parts does not matter.
-/
theorem parse_in_any_order (parts : List Part) :
    (∀ i, parse (parts.flatMap Part.words) = .ok i ↔ Compatible parts ∧ i = asked parts) ∧
    ∀ others, parts.Perm others → ∀ i,
      (parse (others.flatMap Part.words) = .ok i ↔ parse (parts.flatMap Part.words) = .ok i) := by
  constructor
  · intro i
    exact parse_eq_ok_iff
  · intro others h i
    rw [parse_eq_ok_iff, parse_eq_ok_iff]
    constructor
    · intro hc
      exact ⟨hc.1.perm h.symm, hc.2.trans (hc.1.asked_perm h.symm)⟩
    · intro hc
      exact ⟨hc.1.perm h, hc.2.trans (hc.1.asked_perm h)⟩

/-- Four parts are read backwards as they are forwards. -/
theorem parse_in_any_order_backwards :
    parse ["-vv", "--config=a.toml", "b.yaml", "-o", "json"] =
      .ok ⟨some "b.yaml", 2, false, some "a.toml", some .json, false⟩ ∧
    parse ["-o", "json", "b.yaml", "--config=a.toml", "-vv"] =
      .ok ⟨some "b.yaml", 2, false, some "a.toml", some .json, false⟩ := by
  let parts : List Part := [.verbose 1, .config .joined ⟨"a.toml", by decide, by decide⟩,
    .document ⟨"b.yaml", by decide, by decide⟩, .output .letter .json]
  have hc : Compatible parts := ⟨fun a _ => by cases a <;> decide, by decide⟩
  obtain ⟨hf, hb⟩ := parse_in_any_order parts
  have hp := (hf _).mpr ⟨hc, rfl⟩
  exact ⟨hp, (hb _ parts.reverse_perm.symm _).mpr hp⟩

end CommandLine
end ApiPresence
