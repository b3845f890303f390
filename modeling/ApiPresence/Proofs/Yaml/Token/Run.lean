import ApiPresence.Proofs.Yaml.Cursor
import ApiPresence.Proofs.Yaml.Token.Steady

namespace ApiPresence.Yaml.Scanner

variable {s t u : Scanner} {k n : Nat}

theorem upTo_lineFront (s : Scanner) : s.mark.UpTo s.lineFront.mark := by
  have hb (c : Cursor) (h : s.mark.UpTo c.mark) : s.mark.UpTo
      (if c.startsWith '#' then c.skipWhile (fun x => !isBreak x) else c).mark := by
    split
    · exact h.trans (c.upTo_skipWhile _)
    · exact h
  refine hb _ (.trans ?_ (Cursor.upTo_skipWhile _ _))
  split
  · exact s.cursor.mark.upTo_forward _
  · exact .refl _

theorem upTo_skipToToken (fuel : Nat) (s : Scanner) :
    s.mark.UpTo (skipToToken fuel s).mark := by
  induction fuel generalizing s with
  | zero => exact .refl _
  | succ fuel ih =>
    rw [skipToToken_succ]
    split
    · exact s.upTo_lineFront.trans (.trans s.lineFront.upTo_skipBreak (ih { s with
        cursor := s.lineFront.skipBreak, keyAllowed := s.keyAllowed || !s.inFlow }))
    · exact s.upTo_lineFront

/-- A key that is given up at a place is not there later, nor is another one. -/
theorem checkKey_later (h : s.mark.UpTo t.mark) (ht : t.checkKey key = .ok found) :
    ∃ left, s.checkKey key = .ok left ∧ t.checkKey left = .ok found := by
  cases key with
  | none => exact ⟨none, rfl, ht⟩
  | some key =>
    by_cases hs : s.isStale key = true
    · have hs' : t.isStale key = true := by
        simp only [isStale, Bool.or_eq_true, decide_eq_true_eq] at hs ⊢
        have hl := h.line
        have hi := h.index
        omega
      simp only [checkKey, hs', reduceIte] at ht
      split at ht
      · cases ht
      · next hr =>
        refine ⟨none, ?_, ht⟩
        simp [checkKey, hs, hr]
    · exact ⟨some key, by simp [checkKey, hs], ht⟩

theorem mapM_checkKey_later {keys found : List (Option PossibleKey)} (h : s.mark.UpTo t.mark)
    (ht : keys.mapM t.checkKey = .ok found) :
    ∃ left, keys.mapM s.checkKey = .ok left ∧ left.mapM t.checkKey = .ok found := by
  induction keys generalizing found with
  | nil => exact ⟨[], rfl, ht⟩
  | cons key keys ih =>
    rw [List.mapM_cons, bind_eq_ok_iff] at ht
    obtain ⟨first, hf, ht⟩ := ht
    obtain ⟨rest, hr, ht⟩ := bind_eq_ok_iff.mp ht
    obtain ⟨left, hl, hl'⟩ := checkKey_later h hf
    obtain ⟨lefts, hls, hls'⟩ := ih hr
    refine ⟨left :: lefts, ?_, ?_⟩
    · rw [List.mapM_cons, hl, hls]
      rfl
    · rw [List.mapM_cons, hl', hls']
      exact ht

def withKeys (s : Scanner) (keys : List (Option PossibleKey)) (key : Option PossibleKey) :
    Scanner :=
  { s with flowKeys := keys, possibleKey := key }

theorem skipToToken_withKeys {keys : List (Option PossibleKey)}
    (hk : keys = [] ↔ s.flowKeys = []) (fuel : Nat) (key : Option PossibleKey) :
    skipToToken fuel (s.withKeys keys key) = (skipToToken fuel s).withKeys keys key := by
  induction fuel generalizing s with
  | zero => rfl
  | succ fuel ih =>
    have hf : (s.withKeys keys key).inFlow = s.inFlow := by simp [withKeys, inFlow, hk]
    have hl : (s.withKeys keys key).lineFront = s.lineFront := by
      rw [lineFront, hf]
      rfl
    rw [skipToToken_succ, skipToToken_succ, hf, hl]
    split
    · exact ih (s := { s with
        cursor := s.lineFront.skipBreak, keyAllowed := s.keyAllowed || !s.inFlow }) hk
    · rfl

theorem skipToToken_keys (fuel : Nat) (s : Scanner) :
    (skipToToken fuel s).flowKeys = s.flowKeys ∧
      (skipToToken fuel s).possibleKey = s.possibleKey := by
  have h : skipToToken fuel s = (skipToToken fuel s).withKeys s.flowKeys s.possibleKey :=
    skipToToken_withKeys Iff.rfl fuel s.possibleKey
  rw [h]
  exact ⟨rfl, rfl⟩

theorem mapM_checkKey_nil_iff {keys left : List (Option PossibleKey)}
    (h : keys.mapM s.checkKey = .ok left) : left = [] ↔ keys = [] := by
  cases keys with
  | nil =>
    cases h
    exact Iff.rfl
  | cons key keys =>
    rw [List.mapM_cons, bind_eq_ok_iff] at h
    obtain ⟨first, hf, h⟩ := h
    obtain ⟨rest, hr, h⟩ := bind_eq_ok_iff.mp h
    cases h
    exact iff_of_false nofun nofun

/-- A step gives up the stale keys itself, so it does not matter if that is done before. -/
theorem step_dropStaleKeys (h : s.step = .ok u) :
    ∃ t, s.dropStaleKeys = .ok t ∧ t.step = .ok u := by
  obtain ⟨v, hv, hu⟩ := bind_eq_ok_iff.mp h
  obtain ⟨outer, key, ho, hk, rfl⟩ := dropStaleKeys_eq_ok_iff.mp hv
  obtain ⟨hsf, hsp⟩ := skipToToken_keys (s.cursor.rest.length + 1) s
  rw [hsf] at ho
  rw [hsp] at hk
  have hm := s.upTo_skipToToken (s.cursor.rest.length + 1)
  obtain ⟨outer', hl, ho'⟩ := mapM_checkKey_later hm ho
  obtain ⟨key', hl', hk'⟩ := checkKey_later hm hk
  refine ⟨s.withKeys outer'.reverse key', dropStaleKeys_eq_ok_iff.mpr ⟨_, _, hl, hl', rfl⟩, ?_⟩
  have hn : outer'.reverse = [] ↔ s.flowKeys = [] := by
    rw [List.reverse_eq_nil_iff, mapM_checkKey_nil_iff hl, List.reverse_eq_nil_iff]
  have hd :
      ((skipToToken (s.cursor.rest.length + 1) s).withKeys outer'.reverse key').dropStaleKeys =
      .ok ((skipToToken (s.cursor.rest.length + 1) s).withKeys outer.reverse key) := by
    refine dropStaleKeys_eq_ok_iff.mpr ⟨outer, key, ?_, hk', rfl⟩
    show outer'.reverse.reverse.mapM (skipToToken (s.cursor.rest.length + 1) s).checkKey = _
    rw [List.reverse_reverse]
    exact ho'
  rw [← skipToToken_withKeys hn] at hd
  exact bind_eq_ok_iff.mpr ⟨_, hd, hu⟩

/-- A number of steps, none of which starts from a state that has ended. -/
inductive Steps : Nat → Scanner → Scanner → Prop
  | refl {a : Scanner} : Steps 0 a a
  | step {a b c : Scanner} {m : Nat} (he : a.ended = false) (h : a.step = .ok b)
    (hs : Steps m b c) : Steps (m + 1) a c

theorem Steps.trans (h : Steps n s t) (h' : Steps m t u) : Steps (n + m) s u := by
  induction h with
  | refl => exact (Nat.zero_add m).symm ▸ h'
  | step he hs _ ih => exact (Nat.add_right_comm _ 1 _) ▸ .step he hs (ih h')

theorem run_nil (h : s.waiting = []) : run step (fuel + 1) s =
    if s.ended then ⟨[], none⟩ else run.advance step fuel s := by
  rw [run, h]

theorem run_cons (h : s.waiting = token :: rest) (hd : s.dropStaleKeys = .ok t) :
    run step (fuel + 1) s = if t.isBlocked then run.advance step fuel t else
      { run step fuel { t with waiting := rest, released := t.released + 1 } with
        tokens := token :: (run step fuel
          { t with waiting := rest, released := t.released + 1 }).tokens } := by
  rw [run, h]
  simp only [hd]

theorem advance_ok (h : s.step = .ok t) : run.advance step fuel s = run step fuel t := by
  rw [run.advance, h]

/-- A state at the end of a text, without any key left. -/
structure Ended (s : Scanner) : Prop where
  ended : s.ended = true
  possibleKey : s.possibleKey = none
  flowKeys : s.flowKeys = []

theorem Ended.dropStaleKeys (h : Ended s) : s.dropStaleKeys = .ok s := by
  refine dropStaleKeys_eq_ok_iff.mpr ⟨[], none, ?_, ?_, ?_⟩
  · rw [h.flowKeys]
    rfl
  · rw [h.possibleKey]
    rfl
  · cases s
    cases h.possibleKey
    cases h.flowKeys
    rfl

theorem Final.succ (h : Final k s) (hl : k < s.waiting.length) (hb : (s.give k).isBlocked = false) :
    Final (k + 1) s := by
  refine ⟨hl, fun key hm => ?_⟩
  have hk := h.ahead key hm
  have hn : key.tokenNumber ≠ s.released + k := by
    intro he
    have ht : (s.give k).isBlocked = true := by
      rw [isBlocked, List.any_eq_true]
      exact ⟨some key, hm, by simp [he, give]⟩
    rw [hb] at ht
    cases ht
  omega

theorem step_give (hf : Final k s) (h : s.step = .ok t) :
    (s.give k).step = .ok (t.give k) ∧ Keeps k s t := by
  obtain ⟨he, hk⟩ := steady_step k s hf
  rw [h] at he
  exact ⟨he, hk t h⟩

theorem Steps.keeps (h : Steps n s u) (hf : Final k s) : Keeps k s u := by
  induction h with
  | refl => exact ⟨hf, rfl⟩
  | step he hs _ ih =>
    have hk := (step_give hf hs).2
    exact hk.trans (ih hk.final)

/-- Steps can be made from a state as well without its stale keys. -/
theorem Steps.dropStaleKeys (h : Steps n s u) (hu : Ended u) :
    ∃ t, s.dropStaleKeys = .ok t ∧ Steps n t u := by
  cases h with
  | refl => exact ⟨_, hu.dropStaleKeys, .refl⟩
  | step he hs hst =>
    obtain ⟨t, ht, hs'⟩ := step_dropStaleKeys hs
    obtain ⟨outer, key, -, -, rfl⟩ := dropStaleKeys_eq_ok_iff.mp ht
    exact ⟨_, ht, .step he hs' hst⟩

theorem Ended.not_isBlocked (h : Ended s) : s.isBlocked = false := by
  rw [isBlocked, h.possibleKey, h.flowKeys]
  rfl

theorem getElem?_of_drop {xs : List α} (h : xs.drop k = x :: rest) : xs[k]? = some x := by
  rw [← List.head?_drop, h, List.head?_cons]

/-- The first token that has not been given out is the same at the end. -/
theorem Keeps.drop_eq (hk : Keeps (k + 1) s u) (h : s.waiting.drop k = token :: rest) :
    u.waiting.drop k = token :: u.waiting.drop (k + 1) := by
  have hs : u.waiting[k]? = some token := by
    rw [← getElem?_of_drop h, ← List.getElem?_take_of_succ, hk.same, List.getElem?_take_of_succ]
  obtain ⟨hl, hx⟩ := List.getElem?_eq_some_iff.mp hs
  rw [List.drop_eq_getElem_cons hl, hx]

/--
A run gives out the tokens that wait at the end of its steps: what has been given out on the way
makes no difference to a step.
-/
theorem run_of_steps (h : Steps n s u) (hu : Ended u) (hf : Final k s)
    (hl : n + u.waiting.length < fuel + k) :
    run step fuel (s.give k) = ⟨u.waiting.drop k, none⟩ := by
  induction fuel generalizing n s k with
  | zero =>
    have hk := (h.keeps hf).final.waiting
    omega
  | succ fuel ih =>
    cases hw : s.waiting.drop k with
    | nil =>
      rw [run_nil hw]
      cases h with
      | refl =>
        rw [hw]
        exact if_pos hu.ended
      | step he hs hst =>
        obtain ⟨hg, hk⟩ := step_give hf hs
        rw [if_neg (by simp [give, he]), advance_ok hg]
        exact ih hst hk.final (by omega)
    | cons token rest =>
      obtain ⟨t, ht, hst⟩ := h.dropStaleKeys hu
      obtain ⟨hg, hk⟩ := steady_dropStaleKeys k s hf
      rw [ht] at hg
      have hft := (hk t ht).final
      have hwt : t.waiting.drop k = token :: rest := by
        obtain ⟨outer, key, -, -, rfl⟩ := dropStaleKeys_eq_ok_iff.mp ht
        exact hw
      rw [run_cons hw hg]
      split
      · next hb =>
        cases hst with
        | refl =>
          have hn : (u.give k).isBlocked = false :=
            Ended.not_isBlocked ⟨hu.ended, hu.possibleKey, hu.flowKeys⟩
          rw [hn] at hb
          cases hb
        | step he hs hst =>
          obtain ⟨hg, hk⟩ := step_give hft hs
          rw [advance_ok hg]
          exact ih hst hk.final (by omega)
      · next hb =>
        have hlt : k < t.waiting.length := List.length_lt_of_drop_ne_nil (by simp [hwt])
        have hfs := hft.succ hlt (by simpa using hb)
        have he : { t.give k with waiting := rest, released := (t.give k).released + 1 } =
            t.give (k + 1) := by
          rw [give, give, ← List.drop_drop, hwt]
          rfl
        rw [he, ih hst hfs (by omega), ← (hst.keeps hfs).drop_eq hwt]

end ApiPresence.Yaml.Scanner
