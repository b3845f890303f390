import ApiPresence.Proofs.Yaml.Lexeme.Plain
import ApiPresence.Proofs.Yaml.Lexeme.Quoted
import ApiPresence.Proofs.Yaml.Token.Block
import ApiPresence.Yaml.Token.Stream

namespace ApiPresence.Yaml.Scanner

variable {s : Scanner} {levels levels' : List Nat} {allowed : Bool} {c : Cursor} {m : Mark}
  {waiting waiting' : List Token} {text rest : List Char} {kinds : List TokenKind}
  {column n : Nat}

/-- A scalar without quotes starts at the cursor. -/
theorem readToken_plain {c : Char} (hr : s.cursor.rest = c :: rest) (hl : c ∉ leadingIndicators)
    (hb : isBlank c = false ∧ isBreak c = false) (hd : s.cursor.atDocumentIndicator = false)
    (hs : c ∈ ['?', ':', '-'] → atSpace rest = false) (hf : c ∈ ['?', ':'] → s.inFlow = false) :
    s.readToken = s.readPlain := by
  have hi : isIndicator c = false := by
    have hall : [',', '[', ']', '{', '}', '#', '&', '*', '!', '|', '>', '\'', '"', '%', '@',
        '\x60'] ⊆ leadingIndicators := by decide
    exact decide_eq_false fun hm => hl (hall hm)
  have hall : ['?', ':'] ⊆ ['?', ':', '-'] := by decide
  have hm : ¬ (c = '-' ∧ atSpace rest = true) := by
    rintro ⟨rfl, h⟩
    rw [hs (by decide)] at h
    cases h
  have hq (x : Char) (hx : x ∈ ['?', ':']) : ¬ (c = x ∧ (s.inFlow || atSpace rest) = true) := by
    rintro ⟨rfl, h⟩
    rw [hs (hall hx), hf hx] at h
    cases h
  have hp : startsPlain s.inFlow c rest = true := by
    rw [startsPlain]
    split
    · next hc =>
      have hr := hs (by simp [hc])
      cases rest with
      | nil => cases hr
      | cons d rest => simpa using (Bool.or_eq_false_iff.mp hr).1
    · split
      · next hc =>
        have hc : c ∈ ['?', ':'] := by simpa using hc
        rw [hs (hall hc), hf hc]
        rfl
      · rw [hb.1, hb.2, hi]
        rfl
  simp only [leadingIndicators, List.mem_cons, List.not_mem_nil, or_false, not_or] at hl
  obtain ⟨hd₁, hd₂⟩ := Bool.or_eq_false_iff.mp hd
  simp only [readToken, hr, hl, hd₁, hd₂, hq '?' (by decide), hq ':' (by decide), hm, hp, and_false,
    false_and, Bool.false_eq_true, reduceIte]

/-- The key that a scalar may turn out to be. -/
def keyHere (levels : List Nat) (allowed : Bool) (m : Mark) (waiting : List Token) :
    Option PossibleKey :=
  if allowed then some ⟨top levels == m.column, waiting.length, m⟩ else none

theorem keyHere_stale {line : Nat} (hc : top levels < m.column) (waiting : List Token)
    (hl : m.line < line) :
    ∀ k ∈ keyHere levels allowed m waiting, k.required = false ∧ k.mark.line < line := by
  intro k hk
  cases allowed with
  | false => cases hk
  | true =>
    cases hk
    exact ⟨beq_eq_false_iff_ne.mpr (Int.ne_of_lt hc), hl⟩

theorem saveKey_inBlocks (levels : List Nat) (allowed : Bool) (c : Cursor) (waiting : List Token) :
    (inBlocks levels allowed c waiting).saveKey =
      .ok ((inBlocks levels allowed c waiting).withKeys []
        (keyHere levels allowed c.mark waiting)) := by
  cases allowed with
  | false => rfl
  | true =>
    have hn : 0 + waiting.length = waiting.length := Nat.zero_add _
    simp only [saveKey, keyHere, inBlocks, dropKey, withKeys, ok_bind, hn, reduceIte]
    rfl

theorem readPlain_inBlocks {word follow past : List Char} {broken : Bool} (allowed : Bool)
    (waiting : List Token) (hw : Words word)
    (hf : PlainScalar.Follows (top levels + 1).toNat follow broken past rest)
    (ht : top levels ≤ m.column)
    (hd : (⟨word ++ follow, m⟩ : Cursor).atDocumentIndicator = false) :
    (inBlocks levels allowed ⟨word ++ follow, m⟩ waiting).readPlain =
      .ok ((inBlocks levels broken ⟨rest, (m.forward word).over past⟩
        (waiting ++ [⟨.scalar word .plain, m, m.forward word⟩])).withKeys []
          (keyHere levels allowed m waiting)) := by
  have hr := PlainScalar.read_words hw hf (m := m) (by omega) hd
  have hi (key : Option PossibleKey) :
      ((inBlocks levels allowed ⟨word ++ follow, m⟩ waiting).withKeys [] key).indent = top levels :=
        rfl
  rw [readPlain, saveKey_inBlocks, ok_bind, hi]
  exact (congrArg (· >>= _) hr).trans rfl

theorem readToken_bare {word : List Char} (hw : IsBare word) (hr : s.cursor.rest = word ++ rest)
    (hf : s.inFlow = false) (hd : s.cursor.atDocumentIndicator = false) :
    s.readToken = s.readPlain := by
  obtain ⟨c, word, rfl⟩ := List.exists_cons_of_ne_nil hw.words.ne_nil
  obtain ⟨hl, hs⟩ := hasLeadingIndicator_cons hw.leading
  have hg : EndsGap (c :: word ++ rest) := hw.words.endsGap
  refine readToken_plain hr hl (hg c rfl) hd (fun hc => ?_) fun _ => hf
  have hb := hs hc
  rw [startsBlank_eq] at hb
  cases word with
  | nil => cases hb
  | cons d word => exact hb

/-- What follows a scalar completes no document indicator. -/
theorem not_atDocumentIndicator_bare {word : List Char} (hl : hasLeadingIndicator word = false)
    (hn : word ≠ []) (hx : ∀ x ∈ rest.head?, x ≠ '-' ∧ x ≠ '.') (m : Mark) :
    (⟨word ++ rest, m⟩ : Cursor).atDocumentIndicator = false := by
  have ht (y : Char) (hy : y = '-' ∨ y = '.') : ((word ++ rest).take 3 == [y, y, y]) = false := by
    have hxy : rest.head? ≠ some y := by
      intro he
      obtain ⟨h, h'⟩ := hx y he
      exact hy.elim h h'
    rw [beq_eq_false_iff_ne]
    intro he
    match word, hn with
    | [a], _ => cases rest <;> simp_all
    | [a, b], _ => cases rest <;> simp_all
    | a :: b :: c :: word, _ =>
      simp only [List.cons_append, List.take_succ_cons, List.cons.injEq] at he
      obtain ⟨rfl, rfl, rfl, -⟩ := he
      obtain rfl | rfl := hy <;> cases hl
  simp only [Cursor.atDocumentIndicator, Cursor.isDocumentIndicator, ht '-' (.inl rfl),
    ht '.' (.inr rfl), Bool.and_false, Bool.false_and, Bool.or_self]

theorem Ready.plain {word : List Char}
    (h : Ready text levels allowed column (word ++ '\n' :: (spaces n ++ rest)) kinds)
    (hw : IsBare word) (hr : StartsToken rest) (hn : n ≤ top levels) (hc : top levels < column) :
    Between text levels (spaces n ++ rest) (kinds ++ [.scalar word .plain]) := by
  obtain ⟨s, m, waiting, hreach, hs, rfl, rfl⟩ := h
  have hd : (⟨word ++ '\n' :: (spaces n ++ rest), m⟩ : Cursor).atDocumentIndicator = false :=
    Cursor.not_atDocumentIndicator (by omega)
  have hf : PlainScalar.Follows (top levels + 1).toNat ('\n' :: (spaces n ++ rest)) true
      ('\n' :: spaces n) rest := .line (by omega) hr.endsGap
  have hread := readPlain_inBlocks allowed waiting hw.words hf (by omega) hd
  rw [readToken_bare hw rfl rfl hd, hread] at hs
  have hb : Behind text levels true n (spaces 0 ++ rest) 0
      (waiting.map (·.kind) ++ [.scalar word .plain]) := by
    refine ⟨_, _, _, hreach.step hs rfl ?_, ?_, PlainScalar.over_line _ n, List.map_append⟩
    · simp only [List.length_append, List.length_cons, spaces, List.length_replicate,
        List.length_nil]
      omega
    · refine keyHere_stale hc waiting ?_
      rw [Mark.over_cons_break rfl]
      have hu := (Mark.upTo_over ((m.forward word).nextLine ['\n']) (spaces n)).line
      exact Nat.lt_of_succ_le hu
  exact (hb.ahead hr).between hr

def quoteStyle (single : Bool) : ScalarStyle := if single then .singleQuoted else .doubleQuoted

theorem not_isDocumentIndicator {c : Cursor} {x y : Char} (hr : c.rest = x :: rest) (hx : x ≠ y) :
    c.isDocumentIndicator y = false := by
  simp [Cursor.isDocumentIndicator, hr, hx]

theorem readToken_quote {single : Bool} (hr : s.cursor.rest = Quoted.quote single :: rest) :
    s.readToken = s.readQuoted (quoteStyle single) := by
  have hd (y : Char) (hy : Quoted.quote single ≠ y) := not_isDocumentIndicator hr hy
  cases single with
  | true => simp [readToken, hr, hd '-' (by decide), hd '.' (by decide), Quoted.quote, quoteStyle]
  | false => simp [readToken, hr, hd '-' (by decide), hd '.' (by decide), Quoted.quote, quoteStyle]

/-- The place behind a quoted scalar. -/
def pastQuotes (single : Bool) (m : Mark) (written : List Char) : Mark :=
  ((m.forward [Quoted.quote single]).over written).forward [Quoted.quote single]

theorem readQuoted_inBlocks {single : Bool} {written content : List Char}
    (hw : Quoted.Body single written content) (hr : single = true → rest.head? ≠ some '\'') :
    (inBlocks levels allowed ⟨Quoted.quote single :: (written ++ Quoted.quote single :: rest), m⟩
        waiting).readQuoted (quoteStyle single) =
      .ok ((inBlocks levels false ⟨rest, pastQuotes single m written⟩ (waiting ++
        [⟨.scalar content (quoteStyle single), m, pastQuotes single m written⟩])).withKeys []
          (keyHere levels allowed m waiting)) := by
  have hread := Quoted.read_body hw hr m
  have hs : decide (quoteStyle single = .singleQuoted) = single := by cases single <;> rfl
  rw [readQuoted, saveKey_inBlocks, ok_bind, hs]
  exact (congrArg (· >>= _) hread).trans rfl

theorem Ready.quoted {single : Bool} {written content : List Char}
    (h : Ready text levels allowed column (Quoted.quote single :: (written ++
      Quoted.quote single :: '\n' :: (spaces n ++ rest))) kinds)
    (hw : Quoted.Body single written content) (hr : StartsToken rest) (hc : top levels < column) :
    Between text levels (spaces n ++ rest) (kinds ++ [.scalar content (quoteStyle single)]) := by
  obtain ⟨s, m, waiting, hreach, hs, rfl, rfl⟩ := h
  rw [readToken_quote rfl, readQuoted_inBlocks hw (by simp)] at hs
  have hb : Behind text levels false (pastQuotes single m written).column
      ('\n' :: (spaces n ++ rest)) 1
      (waiting.map (·.kind) ++ [.scalar content (quoteStyle single)]) := by
    refine ⟨_, _, _, hreach.step hs rfl ?_, ?_, rfl, List.map_append⟩
    · simp only [List.length_append, List.length_cons, List.length_nil]
      omega
    · exact keyHere_stale hc waiting (Nat.lt_succ_of_le
        (Mark.upTo_over (m.forward [Quoted.quote single]) written).line)
  exact (hb.ahead_line hr).between hr

theorem readToken_literal (hr : s.cursor.rest = '|' :: rest) (hf : s.inFlow = false) :
    s.readToken = s.readBlockScalar .literal := by
  have hd (y : Char) (hy : '|' ≠ y) := not_isDocumentIndicator hr hy
  simp [readToken, hr, hd '-' (by decide), hd '.' (by decide), hf]

theorem Ready.literal {level : Nat} {content : List Char}
    (h : Ready text (level :: levels) allowed column ('|' :: (blockHints content ++ '\n' ::
      (blockBody (level + 2) true content ++ (Block.lineEnd content ++ (spaces n ++ rest))))) kinds)
    (hn : content ≠ []) (hp : ∀ c ∈ content, isPlainText c = true) (hr : StartsToken rest)
    (hc : n ≤ level) :
    Between text (level :: levels) (spaces n ++ rest) (kinds ++ [.scalar content .literal]) := by
  obtain ⟨s, m, waiting, hreach, hs, rfl, rfl⟩ := h
  obtain ⟨stop, m', hm', hread⟩ := Block.read_literal hn hp level (show n < level + 2 by omega)
    hr.endsGap m
  have hblock : (inBlocks (level :: levels) allowed ⟨'|' :: (blockHints content ++ '\n' ::
      (blockBody (level + 2) true content ++ (Block.lineEnd content ++ (spaces n ++ rest)))), m⟩
        waiting).readBlockScalar .literal = .ok ((inBlocks (level :: levels) true ⟨rest, m'⟩
          (waiting ++ [⟨.scalar content .literal, m, stop⟩])).withKeys [] none) := by
    have hd (c : Cursor) : (inBlocks (level :: levels) allowed c waiting).dropKey =
        .ok (inBlocks (level :: levels) allowed c waiting) := rfl
    rw [readBlockScalar, hd, ok_bind]
    exact (congrArg (· >>= _) hread).trans rfl
  rw [readToken_literal rfl rfl, hblock] at hs
  have hb : Behind text (level :: levels) true n (spaces 0 ++ rest) 0
      (waiting.map (·.kind) ++ [.scalar content .literal]) := by
    refine ⟨_, _, _, hreach.step hs rfl ?_, nofun, hm', List.map_append⟩
    simp only [List.length_append, List.length_cons, List.length_nil, spaces, List.length_replicate]
    omega
  exact (hb.ahead hr).between hr

theorem readToken_item (hr : s.cursor.rest = '-' :: ' ' :: rest) :
    s.readToken = s.readBlockEntry := by
  have hd : s.cursor.isDocumentIndicator '-' = false := by
    simp [Cursor.isDocumentIndicator, hr]
  have hd' := not_isDocumentIndicator (y := '.') hr (by decide)
  simp [readToken, hr, hd, hd', atSpace, isBlank]

/--
A token that opens a block at a column, unless one is open there: the blocks then, and its mark.
-/
inductive Opens (start : TokenKind) (levels : List Nat) (column : Nat) :
    (levels' : List Nat) → (opening : List TokenKind) → Prop
  | deeper (h : top levels < column) : Opens start levels column (column :: levels) [start]
  | level (h : top levels = column) : Opens start levels column levels []

variable {start : TokenKind} {opening : List TokenKind} {behind : List Token}

theorem Opens.length_eq (h : Opens start levels column levels' opening) :
    levels'.length = levels.length + opening.length := by
  cases h <;> rfl

theorem Opens.top_le (h : Opens start levels column levels' opening) : top levels ≤ column := by
  cases h with
  | deeper h => exact Int.le_of_lt h
  | level h => exact Int.le_of_eq h

theorem openBlock_none (s : Scanner) (column : Int) (kind : TokenKind) (mark : Mark) :
    s.openBlock column none kind mark = if s.inFlow || column ≤ s.indent then s else
      { s with indents := s.indent :: s.indents, indent := column }.append kind mark mark := rfl

theorem opensNone_iff (levels : List Nat) (allowed : Bool) (c : Cursor) (waiting : List Token)
    (key : Option PossibleKey) (column : Nat) :
    (((inBlocks levels allowed c waiting).withKeys [] key).inFlow ||
      decide ((column : Int) ≤ ((inBlocks levels allowed c waiting).withKeys [] key).indent)) =
        true ↔ column ≤ top levels := by
  rw [Bool.or_eq_true, decide_eq_true_eq]
  exact or_iff_right nofun

theorem inBlocks_cons (levels : List Nat) (column : Nat) (allowed : Bool) (c : Cursor)
    (waiting : List Token) : inBlocks (column :: levels) allowed c waiting =
      { inBlocks levels allowed c waiting with
        indents := top levels :: (columns levels).tail, indent := column } := by
  rw [top_cons_tail]
  rfl

theorem Opens.openBlock_append (h : Opens start levels column levels' opening) (allowed : Bool)
    (c : Cursor) (waiting : List Token) (mark : Mark) :
    (inBlocks levels allowed c waiting).openBlock column none start mark =
      inBlocks levels' allowed c (waiting ++ opening.map (⟨·, mark, mark⟩)) := by
  have hn := opensNone_iff levels allowed c waiting none column
  cases h with
  | level h =>
    rw [List.map_nil, List.append_nil]
    exact (openBlock_none ..).trans (if_pos (hn.mpr (Int.le_of_eq h.symm)))
  | deeper h =>
    rw [inBlocks_cons]
    exact (openBlock_none ..).trans (if_neg fun hc => Int.not_le.mpr h (hn.mp hc))

/-- The token of an opened block goes in front of the key that opens it. -/
theorem Opens.openBlock_insert (h : Opens start levels column levels' opening) (allowed : Bool)
    (c : Cursor) (waiting behind : List Token) (key : Option PossibleKey) (mark : Mark) :
    ((inBlocks levels allowed c (waiting ++ behind)).withKeys [] key).openBlock column
        (some waiting.length) start mark =
      (inBlocks levels' allowed c (waiting ++ (opening.map (⟨·, mark, mark⟩) ++ behind))).withKeys
        [] key := by
  have hn := opensNone_iff levels allowed c (waiting ++ behind) key column
  cases h with
  | level h => exact (openBlock_some ..).trans (if_pos (hn.mpr (Int.le_of_eq h.symm)))
  | deeper h =>
    rw [inBlocks_cons, openBlock_some, if_neg fun hc => Int.not_le.mpr h (hn.mp hc)]
    simp [insert, inBlocks, withKeys]

theorem readBlockEntry_inBlocks (h : Opens .blockSequenceStart levels m.column levels' opening) :
    (inBlocks levels true ⟨'-' :: rest, m⟩ waiting).readBlockEntry =
      .ok ((inBlocks levels' true ⟨rest, m.forward ['-']⟩ (waiting ++
        opening.map (⟨·, m, m⟩) ++ [⟨.blockEntry, m, m.forward ['-']⟩])).withKeys [] none) := by
  have ho := h.openBlock_append true ⟨'-' :: rest, m⟩ waiting m
  rw [readBlockEntry, if_neg (by simp [inBlocks])]
  exact (congrArg (fun t => t.dropKey >>= _) ho).trans rfl

/-- The mark of an item; the first of a sequence opens a block unless it is not indented. -/
theorem Ready.item (h : Ready text levels true column ('-' :: ' ' :: rest) kinds)
    (ho : Opens .blockSequenceStart levels column levels' opening) :
    Behind text levels' true (column + 1) (' ' :: rest) 0 (kinds ++ opening ++ [.blockEntry]) := by
  obtain ⟨s, m, waiting, hreach, hs, rfl, rfl⟩ := h
  rw [readToken_item rfl, readBlockEntry_inBlocks ho] at hs
  have hl := ho.length_eq
  have hc : opening.length ≤ 1 := by cases ho <;> decide
  refine ⟨_, _, _, hreach.step hs rfl ?_, nofun, rfl, ?_⟩
  · simp only [List.length_append, List.length_cons, List.length_nil, List.length_map]
    omega
  · simp [Function.comp_def]

/-- A possible key is kept in front of a token on its line and in its reach. -/
theorem front_key {key : PossibleKey} (hr : StartsToken rest) (hl : m.line ≤ key.mark.line)
    (hi : m.index ≤ key.mark.index + 1024) :
    ((inBlocks levels allowed ⟨rest, m⟩ waiting).withKeys [] (some key)).front =
      .ok ((inBlocks levels allowed ⟨rest, m⟩ waiting).withKeys [] (some key)) := by
  have hs := skipToToken_spaces (s := (inBlocks levels allowed ⟨rest, m⟩ waiting).withKeys []
    (some key)) hr 0 m rfl rest.length
  refine (congrArg dropStaleKeys hs).trans
    (dropStaleKeys_eq_ok_iff.mpr ⟨[], some key, rfl, ?_, rfl⟩)
  have hn : ¬ ((inBlocks levels allowed ⟨rest, m⟩ waiting).withKeys [] (some key)).isStale key =
      true := by
    rw [isStale, Bool.or_eq_true, decide_eq_true_eq, decide_eq_true_eq]
    show ¬ (key.mark.line < m.line ∨ key.mark.index + 1024 < m.index)
    omega
  exact (if_neg hn : _ = _)

theorem readToken_colon (hr : s.cursor.rest = ':' :: rest) (hs : atSpace rest = true) :
    s.readToken = s.readValue := by
  have hd (y : Char) (hy : ':' ≠ y) := not_isDocumentIndicator hr hy
  simp [readToken, hr, hd '-' (by decide), hd '.' (by decide), hs]

theorem closeBlocks_key (ht : top levels ≤ column) (allowed : Bool) (c : Cursor)
    (waiting : List Token) (key : Option PossibleKey) :
    ((inBlocks levels allowed c waiting).withKeys [] key).closeBlocks column =
      (inBlocks levels allowed c waiting).withKeys [] key := by
  have ho : (inBlocks ([] ++ levels) allowed c waiting).closeBlocks column =
      inBlocks levels allowed c (waiting ++ blockEnds c.mark ([] : List Nat).length) :=
    closeBlocks_opened (List.forall_mem_nil _) ht allowed c waiting
  rw [List.nil_append, List.length_nil, blockEnds, List.replicate_zero, List.append_nil] at ho
  exact congrArg (·.withKeys [] key) ho

theorem readValue_inBlocks {start : Mark}
    (h : Opens .blockMappingStart levels start.column levels' opening) (required : Bool)
    (waiting behind : List Token) :
    ((inBlocks levels false ⟨':' :: rest, m⟩ (waiting ++ behind)).withKeys []
        (some ⟨required, waiting.length, start⟩)).readValue =
      .ok ((inBlocks levels' false ⟨rest, m.forward [':']⟩ (waiting ++
        (opening.map (⟨·, start, start⟩) ++ ⟨.key, start, start⟩ :: behind) ++
          [⟨.value, m, m.forward [':']⟩])).withKeys [] none) := by
  have hi : ((inBlocks levels false ⟨':' :: rest, m⟩ (waiting ++ behind)).withKeys []
      (some ⟨required, waiting.length, start⟩)).insert waiting.length .key start =
        (inBlocks levels false ⟨':' :: rest, m⟩
          (waiting ++ ⟨.key, start, start⟩ :: behind)).withKeys
          [] (some ⟨required, waiting.length, start⟩) := by
    simp [insert, inBlocks, withKeys]
  have ho := h.openBlock_insert false ⟨':' :: rest, m⟩ waiting (⟨.key, start, start⟩ :: behind)
    (some ⟨required, waiting.length, start⟩) start
  rw [← hi] at ho
  exact congrArg (fun t : Scanner => (Except.ok ({ t with
    possibleKey := none, keyAllowed := false }.indicator .value 1) : Except SyntaxError Scanner)) ho

theorem step_colon {start : Mark}
    (h : Opens .blockMappingStart levels start.column levels' opening) (hr : atSpace rest = true)
    (hl : m.line ≤ start.line) (hi : m.index ≤ start.index + 1024) (hc : start.column ≤ m.column)
    (required : Bool) (waiting behind : List Token) :
    ((inBlocks levels false ⟨':' :: rest, m⟩ (waiting ++ behind)).withKeys []
        (some ⟨required, waiting.length, start⟩)).step =
      .ok ((inBlocks levels' false ⟨rest, m.forward [':']⟩ (waiting ++
        (opening.map (⟨·, start, start⟩) ++ ⟨.key, start, start⟩ :: behind) ++
          [⟨.value, m, m.forward [':']⟩])).withKeys [] none) := by
  have hstart : StartsToken (':' :: rest) := by
    rintro c ⟨⟩
    decide
  have ht : top levels ≤ m.column := Int.le_trans h.top_le (Int.ofNat_le.mpr hc)
  have hclose := closeBlocks_key ht false ⟨':' :: rest, m⟩ (waiting ++ behind)
    (some ⟨required, waiting.length, start⟩)
  rw [step_of_front (front_key hstart hl hi)]
  exact (congrArg readToken hclose).trans
    ((readToken_colon rfl hr).trans (readValue_inBlocks h required waiting behind))

/-- A key of one line and its colon; the first of a mapping opens a block. -/
theorem Ready.key {word : List Char}
    (h : Ready text levels true column (word ++ ':' :: rest) kinds) (hw : IsBare word)
    (hl : Text.octets word ≤ 1024) (hr : atSpace rest = true)
    (ho : Opens .blockMappingStart levels column levels' opening) (lines : Nat) :
    Behind text levels' false (column + word.length + 1) rest lines
      (kinds ++ opening ++ [.key, .scalar word .plain, .value]) := by
  obtain ⟨s, m, waiting, hreach, hs, rfl, rfl⟩ := h
  have hd : (⟨word ++ ':' :: rest, m⟩ : Cursor).atDocumentIndicator = false :=
    not_atDocumentIndicator_bare hw.leading hw.words.ne_nil (by simp) m
  have hread := readPlain_inBlocks true waiting hw.words (.colon hr) ho.top_le hd
  rw [readToken_bare hw rfl rfl hd, hread] at hs
  have hcolon := step_colon (m := m.forward word) ho hr (Nat.le_refl _) (Nat.add_le_add_left hl _)
    (Nat.le_add_right _ _) (top levels == m.column) waiting
    [⟨.scalar word .plain, m, m.forward word⟩]
  obtain ⟨n, hn, hb⟩ := hreach.steps
  have hword := List.length_pos_of_ne_nil hw.words.ne_nil
  have hlevels := ho.length_eq
  have hopening : opening.length ≤ 1 := by cases ho <;> decide
  refine ⟨none, _, _, ⟨rfl, n + 2, hn.trans (.step hreach.ended hs (.step rfl hcolon .refl)), ?_⟩,
    nofun, rfl, ?_⟩
  · simp only [List.length_append, List.length_cons, List.length_nil, List.length_map] at hb ⊢
    omega
  · simp [Function.comp_def]

theorem closeBlocks_all (levels : List Nat) (allowed : Bool) (c : Cursor) (waiting : List Token) :
    (inBlocks levels allowed c waiting).closeBlocks (-1) =
      inBlocks [] allowed c (waiting ++ blockEnds c.mark levels.length) := by
  have hl : ∀ level ∈ levels, decide ((-1 : Int) < Int.ofNat level) = true := fun level _ =>
    decide_eq_true (Int.lt_of_lt_of_le (by decide) (Int.natCast_nonneg level))
  have hn : ∀ level ∈ ([] : List Nat).head?, decide ((-1 : Int) < Int.ofNat level) = false := nofun
  have ht := takeWhile_append hl hn
  have hd := dropWhile_append hl hn
  rw [List.append_nil] at ht hd
  rw [closeBlocks_inBlocks (Int.le_refl _), ht, hd]

theorem readEnd_inBlocks (hm : m.column = 0) :
    (inBlocks levels allowed ⟨[], m⟩ waiting).readEnd =
      .ok ({ inBlocks [] false ⟨[], m⟩ (waiting ++ blockEnds m levels.length) with
        ended := true }.append .streamEnd m m) := by
  have hc := closeBlocks_all levels allowed ⟨[], m⟩ waiting
  have hs : ({ inBlocks levels allowed ⟨[], m⟩ waiting with cursor := ⟨[], if m.column = 0 then m
      else ⟨m.index, m.line + 1, 0⟩⟩ } : Scanner) = inBlocks levels allowed ⟨[], m⟩ waiting := by
    rw [if_pos hm]
    rfl
  exact (congrArg (fun t => (closeBlocks t (-1)).dropKey >>= _) hs).trans
    ((congrArg (fun t => t.dropKey >>= _) hc).trans rfl)

/-- The end of a text ends all blocks. -/
theorem Between.end (h : Between text [] [] kinds) : ∃ tokens,
    run step (8 * text.length + 16) (ofText text) = ⟨tokens, none⟩ ∧
      tokens.map (·.kind) = kinds ++ [.streamEnd] := by
  obtain ⟨opened, column, rest, before, hl, -, ⟨s, m, waiting, hreach, hf, rfl, rfl⟩, -, rfl⟩ := h
  obtain ⟨hc, rfl⟩ := List.append_eq_nil_iff.mp hl.symm
  have hm : m.column = 0 := by rwa [spaces, List.replicate_eq_nil_iff] at hc
  rw [List.append_nil] at hreach hf
  have hs := step_of_front hf
  -- the step first closes the blocks that are deeper than the end, and then all others
  have hclose := closeBlocks_inBlocks (show -1 ≤ (m.column : Int) by omega) opened true ⟨[], m⟩
    waiting
  have hends : blockEnds m (opened.takeWhile ((m.column : Int) < Int.ofNat ·)).length ++
      blockEnds m (opened.dropWhile ((m.column : Int) < Int.ofNat ·)).length =
        blockEnds m opened.length := by
    rw [blockEnds, blockEnds, List.replicate_append_replicate, ← List.length_append,
      List.takeWhile_append_dropWhile, blockEnds]
  have hread := hs.trans ((congrArg readToken hclose).trans (readEnd_inBlocks hm))
  rw [List.append_assoc, hends] at hread
  refine ⟨_, hreach.run hread ⟨rfl, rfl, rfl⟩ ?_, by simp [append, inBlocks, blockEnds]⟩
  simp only [append, inBlocks, blockEnds, List.length_append, List.length_replicate,
    List.length_cons, List.length_nil]
  omega

theorem intruder?_eq_none (ha : ∀ c ∈ text, isAllowed c = true)
    (pieceStart readable count offset : Nat) :
    intruder? pieceStart readable count offset text = none := by
  induction text generalizing pieceStart readable count offset with
  | nil => rfl
  | cons c text ih =>
    obtain ⟨hc, ht⟩ := List.forall_mem_cons.mp ha
    rw [intruder?, if_pos hc]
    exact ih ht _ _ _ _

/-- The tokens of a text that is read up to its end. -/
theorem Between.ofText (h : Between text [] [] kinds) (ha : ∀ c ∈ text, isAllowed c = true) :
    ∃ tokens, TokenStream.ofText text = ⟨tokens, none⟩ ∧
      tokens.map (·.kind) = kinds ++ [.streamEnd] := by
  rw [TokenStream.ofText, intruder?_eq_none ha]
  exact h.end

end ApiPresence.Yaml.Scanner
