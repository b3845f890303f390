import ApiPresence.Proofs.Yaml.Lexeme.Flow
import ApiPresence.Proofs.Yaml.Token.Node

namespace ApiPresence.Yaml.Scanner

variable {s : Scanner} {keys : List (Option PossibleKey)} {key : Option PossibleKey}
  {allowed : Bool} {c : Cursor} {m : Mark} {waiting : List Token} {text rest gap : List Char}
  {kinds : List TokenKind} {depth : Nat}

/-- Any blanks and line breaks may stand in front of a token of a flow collection. -/
theorem skipToToken_gap (hg : IsSpace gap) (ht : s.inFlow = true ∨ '\t' ∉ gap)
    (hr : StartsToken rest) (m : Mark) (hc : s.cursor = ⟨gap ++ rest, m⟩) (fuel : Nat)
    (hf : gap.length < fuel) :
    ∃ m' allowed, skipToToken fuel s = { s with cursor := ⟨rest, m'⟩, keyAllowed := allowed } ∧
      m.UpTo m' ∧ (s.inFlow = true → allowed = s.keyAllowed) := by
  induction fuel generalizing s gap m with
  | zero => cases hf
  | succ fuel ih =>
    obtain ⟨blanks, more, rfl, hb, hm⟩ := exists_split isBlank gap
    have hblanks : ∀ c ∈ blanks, c = ' ' ∨ c = '\t' ∧ (s.inFlow || !s.keyAllowed) = true := by
      intro c hx
      have hc := hb c hx
      simp only [isBlank, Bool.or_eq_true, decide_eq_true_eq] at hc
      refine hc.imp_right fun hc => ⟨hc, ?_⟩
      have hf := ht.resolve_right fun hn => hn (hc ▸ List.mem_append_left _ hx)
      rw [hf, Bool.true_or]
    cases more with
    | nil =>
      rw [List.append_nil] at hc
      refine ⟨_, s.keyAllowed, skipToToken_blanks hr hblanks hc fuel, m.upTo_forward blanks,
        fun _ => rfl⟩
    | cons c more =>
      have hbreak : isBreak c = true :=
        (hg c (List.mem_append_right _ List.mem_cons_self)).resolve_left (by simp [hm c rfl])
      have hl : s.lineFront = ⟨c :: (more ++ rest), m.forward blanks⟩ := by
        refine lineFront_blanks hblanks ?_ (by rw [hc, List.append_assoc]; rfl)
        rintro x ⟨⟩
        refine ⟨hm c rfl, ?_, ?_⟩
        · rintro rfl
          cases hbreak
        · rintro rfl
          cases hbreak
      obtain ⟨taken, more', kept, m₁, rfl, hm₁, hk⟩ :=
        Cursor.lineBreak_gap hbreak hr.endsGap more (m.forward blanks)
      have hskip : s.lineFront.skipBreak = ⟨more' ++ rest, m₁⟩ := by
        rw [hl, Cursor.skipBreak, hk]
      simp only [List.length_append, List.length_cons] at hf
      obtain ⟨m', allowed, he, hm', ha⟩ := ih (s := { s with
          cursor := ⟨more' ++ rest, m₁⟩, keyAllowed := s.keyAllowed || !s.inFlow })
        (show IsSpace more' from fun x hx => hg x (by simp [hx]))
        (ht.imp_right fun hn hx => hn (by simp [hx])) m₁ rfl (by omega)
      refine ⟨m', allowed, ?_, ((m.upTo_forward blanks).trans hm₁).trans hm', fun hf => ?_⟩
      · rw [skipToToken_succ, hskip, hl]
        exact (if_pos hbreak).trans he
      · have hf' : s.inFlow = true := hf
        rw [ha hf]
        simp [hf']

/-- None of the keys has to be there. -/
def Loose (keys : List (Option PossibleKey)) : Prop := ∀ key, some key ∈ keys → key.required = false

theorem loose_cons_iff :
    Loose (key :: keys) ↔ (∀ k, key = some k → k.required = false) ∧ Loose keys := by
  constructor
  · intro h
    exact ⟨fun k hk => h k (hk ▸ List.mem_cons_self), fun k hk => h k (List.mem_cons_of_mem _ hk)⟩
  · rintro ⟨hk, hks⟩ k hm
    rcases List.mem_cons.mp hm with hm | hm
    · exact hk k hm.symm
    · exact hks k hm

theorem checkKey_loose (h : ∀ k, key = some k → k.required = false) :
    ∃ left, s.checkKey key = .ok left ∧ (∀ k, left = some k → k.required = false) ∧
      ∀ k, key = some k → s.isStale k = false → left = some k := by
  cases key with
  | none => exact ⟨none, rfl, nofun, nofun⟩
  | some k =>
    cases hs : s.isStale k with
    | true =>
      refine ⟨none, ?_, nofun, ?_⟩
      · simp [checkKey, hs, h k rfl]
      · rintro k ⟨⟩ hn
        rw [hs] at hn
        cases hn
    | false => exact ⟨some k, by simp [checkKey, hs], h, fun _ hk _ => hk⟩

theorem mapM_checkKey_loose (h : Loose keys) :
    ∃ left, keys.mapM s.checkKey = .ok left ∧ left.length = keys.length ∧ Loose left := by
  induction keys with
  | nil => exact ⟨[], rfl, rfl, nofun⟩
  | cons key keys ih =>
    obtain ⟨hk, hks⟩ := loose_cons_iff.mp h
    obtain ⟨first, hf, hl, -⟩ := checkKey_loose (s := s) hk
    obtain ⟨left, hm, hn, hls⟩ := ih hks
    refine ⟨first :: left, ?_, congrArg (· + 1) hn, loose_cons_iff.mpr ⟨hl, hls⟩⟩
    rw [List.mapM_cons, hf, ok_bind, hm]
    rfl

/-- Stale keys are given up, and a key that is not stale stays. -/
theorem dropStaleKeys_loose (h : Loose (s.possibleKey :: s.flowKeys)) :
    ∃ keys key, s.dropStaleKeys = .ok (s.withKeys keys key) ∧ keys.length = s.flowKeys.length ∧
      Loose (key :: keys) ∧ ∀ k, s.possibleKey = some k → s.isStale k = false → key = some k := by
  obtain ⟨hk, hks⟩ := loose_cons_iff.mp h
  have hr : Loose s.flowKeys.reverse := fun k hm => hks k (List.mem_reverse.mp hm)
  obtain ⟨left, hm, hn, hl⟩ := mapM_checkKey_loose (s := s) hr
  obtain ⟨key, hc, hkey, hstays⟩ := checkKey_loose (s := s) hk
  refine ⟨left.reverse, key, dropStaleKeys_eq_ok_iff.mpr ⟨left, key, hm, hc, rfl⟩, ?_, ?_, hstays⟩
  · rw [List.length_reverse, hn, List.length_reverse]
  · exact loose_cons_iff.mpr ⟨hkey, fun k hm => hl k (List.mem_reverse.mp hm)⟩

/-- The state in some flow collections, with the keys that they and a node in them may be. -/
def inFlows (keys : List (Option PossibleKey)) (key : Option PossibleKey) (allowed : Bool)
    (c : Cursor)
    (waiting : List Token) : Scanner :=
  (inBlocks [] allowed c waiting).withKeys keys key

theorem closeBlocks_inFlows (keys : List (Option PossibleKey)) (key : Option PossibleKey)
    (allowed : Bool) (c : Cursor) (waiting : List Token) :
    (inFlows keys key allowed c waiting).closeBlocks (inFlows keys key allowed c waiting).column =
      inFlows keys key allowed c waiting := by
  cases keys with
  | nil =>
    have ht : top [] ≤ c.mark.column := Int.le_trans (by decide) (Int.natCast_nonneg _)
    exact closeBlocks_key ht allowed c waiting key
  | cons outer keys => rfl

/-- The step in front of a token, past the gap in front of it. -/
theorem step_inFlows (hg : IsSpace gap) (ht : keys ≠ [] ∨ '\t' ∉ gap) (hr : StartsToken rest)
    (hl : Loose (key :: keys)) (allowed : Bool) (m : Mark) (waiting : List Token) :
    ∃ keys' key' allowed' m', (inFlows keys key allowed ⟨gap ++ rest, m⟩ waiting).step =
        (inFlows keys' key' allowed' ⟨rest, m'⟩ waiting).readToken ∧
      keys'.length = keys.length ∧ Loose (key' :: keys') ∧ (keys ≠ [] → allowed' = allowed) := by
  have hf : (inFlows keys key allowed ⟨gap ++ rest, m⟩ waiting).inFlow = true ↔ keys ≠ [] :=
    decide_eq_true_iff
  obtain ⟨m', allowed', hs, -, ha⟩ := skipToToken_gap
    (s := inFlows keys key allowed ⟨gap ++ rest, m⟩ waiting) hg (ht.imp_left hf.mpr) hr m rfl
    ((gap ++ rest).length + 1) (by rw [List.length_append]; omega)
  obtain ⟨keys', key', hd, hn, hl', -⟩ := dropStaleKeys_loose
    (s := inFlows keys key allowed' ⟨rest, m'⟩ waiting) hl
  refine ⟨keys', key', allowed', m', ?_, hn, hl', fun hk => ha (hf.mpr hk)⟩
  have hfront : (inFlows keys key allowed ⟨gap ++ rest, m⟩ waiting).front =
      .ok (inFlows keys' key' allowed' ⟨rest, m'⟩ waiting) :=
    (congrArg dropStaleKeys hs).trans hd
  rw [step_of_front hfront, closeBlocks_inFlows]

/-- Directly behind a token, in so many flow collections. -/
def Within (text : List Char) (depth : Nat) (allowed : Bool) (rest : List Char)
    (kinds : List TokenKind) : Prop :=
  ∃ keys key m waiting,
    Reaches text (inFlows keys key allowed ⟨rest, m⟩ waiting) [] rest waiting ∧
    keys.length = depth ∧ Loose (key :: keys) ∧ waiting.map (·.kind) = kinds

/-- In front of a token, in so many flow collections. -/
def Facing (text : List Char) (depth : Nat) (allowed : Bool) (rest : List Char)
    (kinds : List TokenKind) : Prop :=
  ∃ s keys key m waiting, Reaches text s [] rest waiting ∧
    s.step = (inFlows keys key allowed ⟨rest, m⟩ waiting).readToken ∧
    keys.length = depth ∧ Loose (key :: keys) ∧ waiting.map (·.kind) = kinds

theorem Within.facing (h : Within text depth allowed (gap ++ rest) kinds) (hg : IsSpace gap)
    (ht : depth ≠ 0 ∨ '\t' ∉ gap) (hr : StartsToken rest) :
    ∃ allowed', Facing text depth allowed' rest kinds ∧ (depth ≠ 0 → allowed' = allowed) := by
  obtain ⟨keys, key, m, waiting, hreach, rfl, hl, hw⟩ := h
  have hk : keys.length ≠ 0 ↔ keys ≠ [] := not_congr List.length_eq_zero_iff
  obtain ⟨keys', key', allowed', m', hs, hn, hl', ha⟩ :=
    step_inFlows hg (ht.imp_left hk.mp) hr hl allowed m waiting
  exact ⟨allowed', ⟨_, keys', key', m', waiting, hreach.drop gap, hs, hn, hl', hw⟩,
    fun hd => ha (hk.mp hd)⟩

/-- The indicators of flow collections, and what reads them. -/
def flowReader? : Char → Option (Scanner → Except SyntaxError Scanner)
  | '[' => some (readFlowStart · .flowSequenceStart)
  | '{' => some (readFlowStart · .flowMappingStart)
  | ']' => some (readFlowEnd · .flowSequenceEnd)
  | '}' => some (readFlowEnd · .flowMappingEnd)
  | ',' => some readFlowEntry
  | _ => none

theorem readToken_flow {c : Char} {read : Scanner → Except SyntaxError Scanner}
    (h : flowReader? c = some read) (hr : s.cursor.rest = c :: rest) : s.readToken = read s := by
  unfold flowReader? at h
  split at h
  case h_6 => cases h
  all_goals
    cases h
    have hd (y : Char) (hy : _ ≠ y) := not_isDocumentIndicator hr hy
    simp [readToken, hr, hd '-' (by decide), hd '.' (by decide)]

theorem dropKey_inFlows (hl : Loose (key :: keys)) (allowed : Bool) (c : Cursor)
    (waiting : List Token) : (inFlows keys key allowed c waiting).dropKey =
      .ok (inFlows keys none allowed c waiting) := by
  cases key with
  | none => rfl
  | some k =>
    have hk : k.required = false := (loose_cons_iff.mp hl).1 k rfl
    exact if_neg (by simp [hk])

theorem saveKey_inFlows (hl : Loose (key :: keys)) (allowed : Bool) (c : Cursor)
    (waiting : List Token) : ∃ key', (inFlows keys key allowed c waiting).saveKey =
        .ok (inFlows keys key' allowed c waiting) ∧ Loose (key' :: keys) ∧
      (allowed = true → key' = some ⟨false, waiting.length, c.mark⟩) := by
  cases allowed with
  | false => exact ⟨key, rfl, hl, nofun⟩
  | true =>
    refine ⟨some ⟨false, waiting.length, c.mark⟩, ?_, ?_, fun _ => rfl⟩
    · have hs : (inFlows keys key true c waiting).saveKey =
          (inFlows keys key true c waiting).dropKey >>= fun s => .ok { s with
            possibleKey := some ⟨!decide (keys ≠ []) && (-1 : Int) == c.mark.column,
              s.released + s.waiting.length, s.mark⟩ } := rfl
      have hi : ((-1 : Int) == c.mark.column) = false :=
        beq_eq_false_iff_ne.mpr (by omega)
      have hn : 0 + waiting.length = waiting.length := Nat.zero_add _
      rw [hs, dropKey_inFlows hl, ok_bind, hi, Bool.and_false]
      exact congrArg (fun n => Except.ok (inFlows keys (some ⟨false, n, c.mark⟩) true c waiting)) hn
    · exact loose_cons_iff.mpr ⟨fun k hk => by cases hk; rfl, (loose_cons_iff.mp hl).2⟩

/-- What a token is read to: a state behind it in flow collections. -/
def Reads (s : Scanner) (depth : Nat) (allowed : Bool) (rest : List Char) (waiting : List Token)
    (kind : TokenKind) : Prop :=
  ∃ keys key m start stop, s.readToken =
      .ok (inFlows keys key allowed ⟨rest, m⟩ (waiting ++ [⟨kind, start, stop⟩])) ∧
    keys.length = depth ∧ Loose (key :: keys)

variable {depth' : Nat} {allowed' : Bool} {kind : TokenKind} {x : Char}

theorem Facing.within (taken : List Char)
    (h : Facing text depth allowed (taken ++ rest) kinds) (hn : taken ≠ [])
    (hr : ∀ keys key m waiting, keys.length = depth → Loose (key :: keys) →
      (inFlows keys key allowed ⟨taken ++ rest, m⟩ waiting).Reads depth' allowed' rest waiting
        kind) :
    Within text depth' allowed' rest (kinds ++ [kind]) := by
  obtain ⟨s, keys, key, m, waiting, hreach, hs, hk, hl, rfl⟩ := h
  obtain ⟨keys', key', m', start, stop, hread, hk', hl'⟩ := hr keys key m waiting hk hl
  have hpos := List.length_pos_iff.mpr hn
  refine ⟨keys', key', m', _, hreach.step (hs.trans hread) rfl ?_, hk', hl', List.map_append⟩
  simp only [List.length_append, List.length_cons, List.length_nil]
  omega

/-- A collection starts, which may be a key itself. -/
theorem Facing.opens (h : Facing text depth allowed (x :: rest) kinds)
    (hx : flowReader? x = some (readFlowStart · kind)) :
    Within text (depth + 1) true rest (kinds ++ [kind]) := by
  refine h.within [x] (List.cons_ne_nil _ _) fun keys key m waiting hk hl => ?_
  obtain ⟨key', hs, hl', -⟩ := saveKey_inFlows hl allowed ⟨x :: rest, m⟩ waiting
  have hread : (inFlows keys key allowed ⟨x :: rest, m⟩ waiting).readFlowStart kind =
      .ok (inFlows (key' :: keys) none true ⟨rest, m.forward [x]⟩
        (waiting ++ [⟨kind, m, m.forward [x]⟩])) := by
    rw [readFlowStart, hs]
    rfl
  refine ⟨key' :: keys, none, _, _, _, (readToken_flow hx rfl).trans hread, congrArg (· + 1) hk, ?_⟩
  exact loose_cons_iff.mpr ⟨nofun, hl'⟩

theorem Facing.closes (h : Facing text (depth + 1) allowed (x :: rest) kinds)
    (hx : flowReader? x = some (readFlowEnd · kind)) :
    Within text depth false rest (kinds ++ [kind]) := by
  refine h.within [x] (List.cons_ne_nil _ _) fun keys key m waiting hk hl => ?_
  obtain ⟨outer, keys, rfl⟩ := List.exists_cons_of_length_eq_add_one hk
  have hread : (inFlows (outer :: keys) key allowed ⟨x :: rest, m⟩ waiting).readFlowEnd kind =
      .ok (inFlows keys outer false ⟨rest, m.forward [x]⟩
        (waiting ++ [⟨kind, m, m.forward [x]⟩])) := by
    rw [readFlowEnd, dropKey_inFlows hl]
    rfl
  exact ⟨keys, outer, _, _, _, (readToken_flow hx rfl).trans hread, Nat.succ.inj hk,
    (loose_cons_iff.mp hl).2⟩

theorem Facing.comma (h : Facing text depth allowed (',' :: rest) kinds) :
    Within text depth true rest (kinds ++ [.flowEntry]) := by
  refine h.within [','] (List.cons_ne_nil _ _) fun keys key m waiting hk hl => ?_
  have hread : (inFlows keys key allowed ⟨',' :: rest, m⟩ waiting).readFlowEntry =
      .ok (inFlows keys none true ⟨rest, m.forward [',']⟩
        (waiting ++ [⟨.flowEntry, m, m.forward [',']⟩])) := by
    rw [readFlowEntry, dropKey_inFlows hl]
    rfl
  exact ⟨keys, none, _, _, _, (readToken_flow rfl rfl).trans hread, hk,
    loose_cons_iff.mpr ⟨nofun, (loose_cons_iff.mp hl).2⟩⟩

variable {written content : List Char}

theorem readQuoted_inFlows (hw : Quoted.Body false written content) (hl : Loose (key :: keys))
    (allowed : Bool) (m : Mark) (waiting : List Token) (rest : List Char) :
    ∃ key', (inFlows keys key allowed ⟨'"' :: (written ++ '"' :: rest), m⟩ waiting).readToken =
        .ok (inFlows keys key' false ⟨rest, pastQuotes false m written⟩
          (waiting ++ [⟨.scalar content .doubleQuoted, m, pastQuotes false m written⟩])) ∧
      Loose (key' :: keys) ∧ (allowed = true → key' = some ⟨false, waiting.length, m⟩) := by
  obtain ⟨key', hs, hl', hk⟩ :=
    saveKey_inFlows hl allowed ⟨'"' :: (written ++ '"' :: rest), m⟩ waiting
  refine ⟨key', (readToken_quote (show _ = Quoted.quote false :: _ from rfl)).trans ?_, hl', hk⟩
  have hread := Quoted.read_body hw (show false = true → rest.head? ≠ some '\'' from nofun) m
  rw [readQuoted, hs, ok_bind]
  exact (congrArg (· >>= _) hread).trans rfl

theorem Facing.quoted (h : Facing text depth allowed ('"' :: (written ++ '"' :: rest)) kinds)
    (hw : Quoted.Body false written content) :
    Within text depth false rest (kinds ++ [.scalar content .doubleQuoted]) := by
  have he : '"' :: (written ++ '"' :: rest) = '"' :: (written ++ ['"']) ++ rest := by simp
  rw [he] at h
  refine h.within _ (List.cons_ne_nil _ _) fun keys key m waiting hk hl => ?_
  obtain ⟨key', hread, hl', -⟩ := readQuoted_inFlows hw hl allowed m waiting rest
  rw [← he]
  exact ⟨keys, key', _, _, _, hread, hk, hl'⟩

theorem readToken_flowColon (hr : s.cursor.rest = ':' :: rest) (hf : s.inFlow = true) :
    s.readToken = s.readValue := by
  have hd (y : Char) (hy : ':' ≠ y) := not_isDocumentIndicator hr hy
  simp [readToken, hr, hd '-' (by decide), hd '.' (by decide), hf]

/-- The mark of the key goes in front of the tokens behind the place where it starts. -/
theorem readValue_inFlows (hk : keys ≠ []) (start m : Mark) (waiting behind : List Token) :
    (inFlows keys (some ⟨false, waiting.length, start⟩) false ⟨':' :: rest, m⟩
        (waiting ++ behind)).readValue =
      .ok (inFlows keys none false ⟨rest, m.forward [':']⟩
        (waiting ++ ⟨.key, start, start⟩ :: behind ++
        [⟨.value, m, m.forward [':']⟩])) := by
  have hi : (inFlows keys (some ⟨false, waiting.length, start⟩) false ⟨':' :: rest, m⟩
      (waiting ++ behind)).insert waiting.length .key start =
        inFlows keys (some ⟨false, waiting.length, start⟩) false ⟨':' :: rest, m⟩
          (waiting ++ ⟨.key, start, start⟩ :: behind) := by
    simp [insert, inFlows, inBlocks, withKeys]
  have ho (c : Cursor) (key : Option PossibleKey) (waiting : List Token) (number : Option Nat) :
      (inFlows keys key false c waiting).openBlock start.column number .blockMappingStart start =
        inFlows keys key false c waiting := by
    have hf : (inFlows keys key false c waiting).inFlow = true := decide_eq_true hk
    rw [openBlock, hf]
    rfl
  exact (congrArg (fun t : Scanner => (Except.ok ({ t.openBlock start.column (some waiting.length)
    .blockMappingStart start with possibleKey := none, keyAllowed := false }.indicator .value 1) :
      Except SyntaxError Scanner)) hi).trans (by rw [ho])

/-- The colon behind a possible key and blanks, on the line of the key and in its reach. -/
theorem step_flowColon (m start : Mark) (hk : keys ≠ []) (hl : Loose keys)
    (hg : ∀ c ∈ gap, isBlank c = true) (hline : m.line = start.line)
    (hi : m.index + Text.octets gap ≤ start.index + 1024) (waiting behind : List Token)
    (rest : List Char) :
    ∃ keys', (inFlows keys (some ⟨false, waiting.length, start⟩) false ⟨gap ++ ':' :: rest, m⟩
        (waiting ++ behind)).step =
      .ok (inFlows keys' none false ⟨rest, (m.forward gap).forward [':']⟩ (waiting ++
        ⟨.key, start, start⟩ :: behind ++
          [⟨.value, m.forward gap, (m.forward gap).forward [':']⟩])) ∧
      keys'.length = keys.length ∧ Loose (none :: keys') := by
  have hstart : StartsToken (':' :: rest) := by
    rintro c ⟨⟩
    decide
  have hblanks : ∀ c ∈ gap, c = ' ' ∨ c = '\t' ∧ (decide (keys ≠ []) || !false) = true := by
    intro c hc
    have hb := hg c hc
    simp only [isBlank, Bool.or_eq_true, decide_eq_true_eq] at hb
    exact hb.imp_right fun hb => ⟨hb, Bool.or_true _⟩
  have hskip := skipToToken_blanks (s := inFlows keys (some ⟨false, waiting.length, start⟩) false
    ⟨gap ++ ':' :: rest, m⟩ (waiting ++ behind)) hstart hblanks rfl (gap ++ ':' :: rest).length
  have hloose : Loose (some ⟨false, waiting.length, start⟩ :: keys) :=
    loose_cons_iff.mpr ⟨fun k hk => by cases hk; rfl, hl⟩
  obtain ⟨keys', key', hdrop, hn, hl', hstays⟩ := dropStaleKeys_loose
    (s := inFlows keys (some ⟨false, waiting.length, start⟩) false ⟨':' :: rest, m.forward gap⟩
      (waiting ++ behind)) hloose
  have hfresh : ¬ (start.line < m.line ∨ start.index + 1024 < m.index + Text.octets gap) := by omega
  obtain rfl := hstays _ rfl (by
    rw [← Bool.not_eq_true, isStale, Bool.or_eq_true, decide_eq_true_eq, decide_eq_true_eq]
    exact hfresh)
  have hkeys' : keys' ≠ [] := by
    rintro rfl
    exact hk (List.length_eq_zero_iff.mp hn.symm)
  have hnone : ∀ k ∈ (none : Option PossibleKey), k.required = false := by
    rintro k ⟨⟩
  refine ⟨keys', ?_, hn, loose_cons_iff.mpr ⟨hnone, (loose_cons_iff.mp hl').2⟩⟩
  have hfront := (congrArg dropStaleKeys hskip).trans hdrop
  rw [step_of_front hfront]
  exact (congrArg readToken (closeBlocks_inFlows ..)).trans
    ((readToken_flowColon rfl (decide_eq_true hkeys')).trans (readValue_inFlows hkeys' ..))

/-- A quoted key of one line, which is read before its colon tells that it is one. -/
theorem Facing.quotedKey
    (h : Facing text depth true ('"' :: (written ++ '"' :: (gap ++ ':' :: rest))) kinds)
    (hd : depth ≠ 0) (hw : Quoted.Body false written content) (hu : Unbroken written)
    (hg : ∀ c ∈ gap, isBlank c = true) (hs : Text.octets ('"' :: (written ++ '"' :: gap)) ≤ 1024) :
    Within text depth false rest (kinds ++ [.key, .scalar content .doubleQuoted, .value]) := by
  obtain ⟨s, keys, key, m, waiting, hreach, hstep, hk, hl, rfl⟩ := h
  have hkeys : keys ≠ [] := by
    rintro rfl
    exact hd hk.symm
  obtain ⟨key', hread, hl', hkey⟩ := readQuoted_inFlows hw hl true m waiting
    (gap ++ ':' :: rest)
  obtain rfl := hkey rfl
  have hp : pastQuotes false m written = m.forward ('"' :: (written ++ ['"'])) := by
    rw [pastQuotes, hu.over, ← Mark.forward_append, ← Mark.forward_append]
    rfl
  have ho : Text.octets ('"' :: (written ++ ['"'])) + Text.octets gap ≤ 1024 := by
    rw [← octets_append]
    simpa using hs
  rw [hp] at hread
  obtain ⟨keys', hcolon, hn, hl''⟩ := step_flowColon (m.forward ('"' :: (written ++ ['"']))) m hkeys
    (loose_cons_iff.mp hl').2 hg rfl
    (by rw [Mark.forward, Nat.add_assoc]; exact Nat.add_le_add_left ho _) waiting
    [⟨.scalar content .doubleQuoted, m, m.forward ('"' :: (written ++ ['"']))⟩] rest
  obtain ⟨n, hsteps, hb⟩ := hreach.steps
  refine ⟨keys', none, _, _, ⟨rfl, n + 2, hsteps.trans (.step hreach.ended (hstep.trans hread)
    (.step rfl hcolon .refl)), ?_⟩, hn.trans hk, hl'', by simp⟩
  simp only [List.length_append, List.length_cons, List.length_nil] at hb ⊢
  omega

/-- A word that may stand in a flow collection without quotes. -/
structure IsFlowWord (word : List Char) : Prop where
  ne_nil : word ≠ []
  inner : ∀ c ∈ word, PlainScalar.IsFlowChar c
  leading : hasLeadingIndicator word = false
  question : word.head? ≠ some '?'

variable {word : List Char}

theorem endsWord_head {flow : Bool} (hg : IsSpace gap) (hr : PlainScalar.EndsWord flow rest) :
    ∀ c ∈ (gap ++ rest).head?, c ≠ '-' ∧ c ≠ '.' := by
  intro c hc
  have hs : isBlank c = true ∨ isBreak c = true ∨ PlainScalar.isFlowIndicator c = true := by
    cases gap with
    | nil => exact .inr (.inr (hr c hc).2)
    | cons d gap =>
      cases hc
      exact (hg _ List.mem_cons_self).imp_right .inl
  constructor <;> rintro rfl <;> rcases hs with h | h | h <;> cases h

theorem readToken_word (hw : IsFlowWord word) (hr : s.cursor.rest = word ++ rest)
    (hd : s.cursor.atDocumentIndicator = false) : s.readToken = s.readPlain := by
  obtain ⟨c, word, rfl⟩ := List.exists_cons_of_ne_nil hw.ne_nil
  obtain ⟨hl, hs⟩ := hasLeadingIndicator_cons hw.leading
  obtain ⟨hb, hk, hn, -⟩ := hw.inner c List.mem_cons_self
  refine readToken_plain hr hl ⟨hb, hk⟩ hd (fun hc => ?_) fun hc => ?_
  · have hb := hs hc
    rw [startsBlank_eq] at hb
    cases word with
    | nil => cases hb
    | cons d word => exact hb
  · have hq : c ≠ '?' := fun h => hw.question (congrArg some h)
    simp [hq, hn] at hc

/-- A word is read with the gap behind it. -/
theorem Facing.plain (h : Facing text depth allowed (word ++ (gap ++ rest)) kinds)
    (hw : IsFlowWord word) (hg : IsSpace gap) (hr : PlainScalar.EndsWord (depth ≠ 0) rest) :
    ∃ allowed', Within text depth allowed' rest (kinds ++ [.scalar word .plain]) := by
  obtain ⟨s, keys, key, m, waiting, hreach, hs, rfl, hl, rfl⟩ := h
  have hf (key : Option PossibleKey) (c : Cursor) : (inFlows keys key allowed c waiting).inFlow =
      decide (keys.length ≠ 0) := by
    cases keys <;> rfl
  have hd : (⟨word ++ (gap ++ rest), m⟩ : Cursor).atDocumentIndicator = false :=
    not_atDocumentIndicator_bare hw.leading hw.ne_nil (endsWord_head hg hr) m
  have hsharp : word.head? ≠ some '#' := by
    intro hc
    obtain ⟨word, rfl⟩ := List.head?_eq_some_iff.mp hc
    exact (hasLeadingIndicator_cons hw.leading).1 (by decide)
  obtain ⟨key', hsave, hl', -⟩ := saveKey_inFlows hl allowed ⟨word ++ (gap ++ rest), m⟩ waiting
  obtain ⟨broken, m', hread, -⟩ := PlainScalar.read_word hw.inner hw.ne_nil hsharp hg hr hd
  have hplain : (inFlows keys key allowed ⟨word ++ (gap ++ rest), m⟩ waiting).readPlain =
      .ok (inFlows keys key' broken ⟨rest, m'⟩
        (waiting ++ [⟨.scalar word .plain, m, m.forward word⟩])) := by
    rw [readPlain, hsave, ok_bind, hf]
    exact (congrArg (· >>= _) hread).trans rfl
  have hpos := List.length_pos_iff.mpr hw.ne_nil
  refine ⟨broken, keys, key', m', _,
    hreach.step (hs.trans ((readToken_word hw rfl hd).trans hplain))
    rfl ?_, rfl, hl', List.map_append⟩
  simp only [List.length_append, List.length_cons, List.length_nil]
  omega

theorem readEnd_inFlows (key : Option PossibleKey) (hl : Loose [key]) (allowed : Bool) (m : Mark)
    (waiting : List Token) : ∃ m', (inFlows [] key allowed ⟨[], m⟩ waiting).readEnd =
      .ok ({ inFlows [] none false ⟨[], m'⟩ waiting with ended := true }.append .streamEnd m'
        m') := by
  let m' : Mark := if m.column = 0 then m else ⟨m.index, m.line + 1, 0⟩
  have hc := congrArg (·.withKeys [] key) (closeBlocks_all [] allowed ⟨[], m'⟩ waiting)
  have hw : waiting ++ blockEnds m' ([] : List Nat).length = waiting := List.append_nil waiting
  rw [hw] at hc
  have hd : ({ inFlows [] key allowed ⟨[], m⟩ waiting with cursor := ⟨[], m'⟩ }.closeBlocks
      (-1)).dropKey = .ok (inFlows [] none allowed ⟨[], m'⟩ waiting) :=
    (congrArg dropKey hc).trans (dropKey_inFlows hl ..)
  exact ⟨m', (congrArg (· >>= _) hd).trans rfl⟩

theorem Within.start (text : List Char) : Within text 0 true text [] :=
  ⟨[], none, .start, [], .start text, rfl, nofun, rfl⟩

/-- The end of a text behind its only node. -/
theorem Within.end (h : Within text 0 allowed gap kinds) (hg : IsSpace gap) (ht : '\t' ∉ gap) :
    ∃ tokens, run step (8 * text.length + 16) (ofText text) = ⟨tokens, none⟩ ∧
      tokens.map (·.kind) = kinds ++ [.streamEnd] := by
  rw [← List.append_nil gap] at h
  obtain ⟨allowed', ⟨s, keys, key, m, waiting, hreach, hs, hk, hl, rfl⟩, -⟩ :=
    h.facing hg (.inr ht) startsToken_nil
  obtain rfl := List.length_eq_zero_iff.mp hk
  obtain ⟨m', hend⟩ := readEnd_inFlows key hl allowed' m waiting
  refine ⟨_, hreach.run (hs.trans hend) ⟨rfl, rfl, rfl⟩ ?_, List.map_append⟩
  simp [append, inFlows, inBlocks, withKeys]

/-- The tokens of a text that is read up to its end. -/
theorem Within.ofText (h : Within text 0 allowed gap kinds) (hg : IsSpace gap) (ht : '\t' ∉ gap)
    (ha : ∀ c ∈ text, isAllowed c = true) :
    ∃ tokens, TokenStream.ofText text = ⟨tokens, none⟩ ∧
      tokens.map (·.kind) = kinds ++ [.streamEnd] := by
  rw [TokenStream.ofText, intruder?_eq_none ha]
  exact h.end hg ht

end ApiPresence.Yaml.Scanner
