import ApiPresence.Proofs.Yaml.Lexeme.Block
import ApiPresence.Proofs.Yaml.Token.Run

namespace ApiPresence.Yaml.Scanner

variable {s : Scanner} {levels opened : List Nat} {allowed : Bool} {c : Cursor} {m : Mark}
  {waiting : List Token} {text rest line : List Char} {kinds : List TokenKind} {column : Nat}

/-- The columns of the blocks around a cursor, and that of no block. -/
def columns (levels : List Nat) : List Int := levels.map Int.ofNat ++ [-1]

/-- The column of the innermost block. -/
def top (levels : List Nat) : Int := (columns levels).headD (-1)

/-- The state in blocks at some columns, when no key is possible. -/
def inBlocks (levels : List Nat) (allowed : Bool) (c : Cursor) (waiting : List Token) :
    Scanner where
  cursor := c
  indent := top levels
  indents := (columns levels).tail
  flowKeys := []
  possibleKey := none
  keyAllowed := allowed
  waiting := waiting
  released := 0
  ended := false

theorem top_cons_tail (levels : List Nat) :
    top levels :: (columns levels).tail = columns levels := by
  cases levels <;> rfl

theorem takeWhile_columns {column : Int} (h : -1 ≤ column) (levels : List Nat) :
    (columns levels).takeWhile (column < ·) =
      (levels.takeWhile (column < Int.ofNat ·)).map Int.ofNat := by
  induction levels with
  | nil => exact List.takeWhile_cons_of_neg (by simpa using h)
  | cons level levels ih =>
    rw [columns, List.map_cons, List.cons_append, List.takeWhile_cons, List.takeWhile_cons]
    split
    · rw [← columns, ih, List.map_cons]
    · rfl

theorem drop_columns (column : Int) (levels : List Nat) :
    (columns levels).drop (levels.takeWhile (column < Int.ofNat ·)).length =
      columns (levels.dropWhile (column < Int.ofNat ·)) := by
  induction levels with
  | nil => rfl
  | cons level levels ih =>
    rw [List.takeWhile_cons, List.dropWhile_cons]
    split
    · exact ih
    · rfl

/-- The marks of blocks that end at a place. -/
def blockEnds (m : Mark) (count : Nat) : List Token := List.replicate count ⟨.blockEnd, m, m⟩

theorem closeBlocks_inBlocks {column : Int} (h : -1 ≤ column) (levels : List Nat) (allowed : Bool)
    (c : Cursor)
    (waiting : List Token) : (inBlocks levels allowed c waiting).closeBlocks column =
      inBlocks (levels.dropWhile (column < Int.ofNat ·)) allowed c
        (waiting ++ blockEnds c.mark (levels.takeWhile (column < Int.ofNat ·)).length) := by
  have hb : (inBlocks levels allowed c waiting).indent ::
      (inBlocks levels allowed c waiting).indents = columns levels := top_cons_tail levels
  have hf : (inBlocks levels allowed c waiting).inFlow = false := rfl
  simp only [closeBlocks, hf, hb, takeWhile_columns h, List.length_map, drop_columns,
    List.map_const', List.drop_one, Bool.false_eq_true, reduceIte]
  rfl

theorem closeBlocks_opened (h : ∀ level ∈ opened, column < level) (ht : top levels ≤ column)
    (allowed : Bool) (c : Cursor) (waiting : List Token) :
    (inBlocks (opened ++ levels) allowed c waiting).closeBlocks column =
      inBlocks levels allowed c (waiting ++ blockEnds c.mark opened.length) := by
  have hk : ∀ level ∈ levels.head?, decide ((column : Int) < Int.ofNat level) = false := by
    intro level hl
    obtain ⟨levels, rfl⟩ := List.head?_eq_some_iff.mp hl
    exact decide_eq_false (Int.not_lt.mpr ht)
  have ho : ∀ level ∈ opened, decide ((column : Int) < Int.ofNat level) = true := fun level hl =>
    decide_eq_true (Int.ofNat_lt.mpr (h level hl))
  rw [closeBlocks_inBlocks (by omega), takeWhile_append ho hk, dropWhile_append ho hk]

/-- A text that starts with a token: nothing in front of it would be passed over. -/
def StartsToken (rest : List Char) : Prop :=
  ∀ c ∈ rest.head?, isBlank c = false ∧ isBreak c = false ∧ c ≠ '#' ∧ c ≠ '\ufeff'

theorem StartsToken.endsGap (h : StartsToken rest) : EndsGap rest :=
  fun c hc => ⟨(h c hc).1, (h c hc).2.1⟩

theorem startsToken_nil : StartsToken [] := nofun

/--
The blanks in front of a token or a line break are passed over; tabs only where none opens a key.
-/
theorem lineFront_blanks {gap : List Char}
    (hg : ∀ c ∈ gap, c = ' ' ∨ c = '\t' ∧ (s.inFlow || !s.keyAllowed) = true)
    (h : ∀ c ∈ rest.head?, isBlank c = false ∧ c ≠ '#' ∧ c ≠ '\ufeff')
    (hc : s.cursor = ⟨gap ++ rest, m⟩) : s.lineFront = ⟨rest, m.forward gap⟩ := by
  have hbom : (⟨gap ++ rest, m⟩ : Cursor).startsWith '\ufeff' = false := by
    rw [Cursor.startsWith, beq_eq_false_iff_ne]
    intro hx
    cases gap with
    | nil => exact (h _ hx).2.2 rfl
    | cons c gap =>
      cases hx
      rcases hg _ List.mem_cons_self with hc | ⟨hc, -⟩ <;> cases hc
  have hgap : ∀ c ∈ gap, (decide (c = ' ') || (s.inFlow || !s.keyAllowed) && decide (c = '\t')) =
      true := by
    intro c hx
    rcases hg c hx with rfl | ⟨rfl, ht⟩
    · rfl
    · rw [ht]
      rfl
  have hs :
      ∀ c ∈ rest.head?, (decide (c = ' ') || (s.inFlow || !s.keyAllowed) && decide (c = '\t')) =
      false := by
    intro c hx
    have hb := (h c hx).1
    simp only [isBlank, Bool.or_eq_false_iff] at hb
    rw [hb.1, hb.2, Bool.and_false, Bool.false_or]
  have hsharp : (⟨rest, m.forward gap⟩ : Cursor).startsWith '#' = false := by
    rw [Cursor.startsWith, beq_eq_false_iff_ne]
    exact fun hx => (h _ hx).2.1 rfl
  simp only [lineFront, mark, hc, hbom, Bool.false_eq_true, and_false, reduceIte,
    Cursor.skipWhile_append hgap hs, hsharp]

theorem skipToToken_blanks {gap : List Char} (h : StartsToken rest)
    (hg : ∀ c ∈ gap, c = ' ' ∨ c = '\t' ∧ (s.inFlow || !s.keyAllowed) = true)
    (hc : s.cursor = ⟨gap ++ rest, m⟩) (fuel : Nat) :
    skipToToken (fuel + 1) s = { s with cursor := ⟨rest, m.forward gap⟩ } := by
  have hb : rest.head?.any isBreak = false := by
    cases rest with
    | nil => rfl
    | cons c rest => exact (h c rfl).2.1
  rw [skipToToken_succ, lineFront_blanks hg (fun c hc => ⟨(h c hc).1, (h c hc).2.2⟩) hc, hb,
    if_neg Bool.false_ne_true]

theorem skipToToken_spaces (h : StartsToken rest) (n : Nat) (m : Mark)
    (hc : s.cursor = ⟨spaces n ++ rest, m⟩) (fuel : Nat) :
    skipToToken (fuel + 1) s = { s with cursor := ⟨rest, m.forward (spaces n)⟩ } :=
  skipToToken_blanks h (fun _ hx => .inl (List.eq_of_mem_replicate hx)) hc fuel

theorem skipToToken_line (h : StartsToken rest) (n : Nat) (m : Mark)
    (hc : s.cursor = ⟨'\n' :: (spaces n ++ rest), m⟩) (hf : s.flowKeys = []) (fuel : Nat) :
    skipToToken (fuel + 2) s = { s with
      cursor := ⟨rest, (m.nextLine ['\n']).forward (spaces n)⟩
      keyAllowed := true } := by
  have hl : s.lineFront = ⟨'\n' :: (spaces n ++ rest), m⟩ :=
    lineFront_blanks (List.forall_mem_nil _) (by rintro c ⟨⟩; decide) hc
  have hb : ('\n' :: (spaces n ++ rest)).head?.any isBreak = true := rfl
  have ha : (s.keyAllowed || !s.inFlow) = true := by simp [inFlow, hf]
  rw [skipToToken_succ, hl, if_pos hb, ha]
  exact skipToToken_spaces h n (m.nextLine ['\n']) rfl fuel

/-- The state in front of the next token, once the keys that it rules out are given up. -/
def front (s : Scanner) : Except SyntaxError Scanner :=
  (s.skipToToken (s.cursor.rest.length + 1)).dropStaleKeys

theorem step_of_front (h : s.front = .ok t) : s.step = (t.closeBlocks t.column).readToken := by
  have hs : s.step = s.front >>= fun t => (t.closeBlocks t.column).readToken := rfl
  rw [hs, h, ok_bind]

/-- A key that was only possible is gone on a later line. -/
theorem dropStaleKeys_withKeys (s : Scanner)
    (hk : ∀ k ∈ key, k.required = false ∧ k.mark.line < s.mark.line) :
    (s.withKeys [] key).dropStaleKeys = .ok (s.withKeys [] none) := by
  refine dropStaleKeys_eq_ok_iff.mpr ⟨[], none, rfl, ?_, rfl⟩
  cases key with
  | none => rfl
  | some k =>
    obtain ⟨hr, hl⟩ := hk k rfl
    have hs : (s.withKeys [] (some k)).isStale k = true := by
      rw [isStale, Bool.or_eq_true]
      exact .inl (decide_eq_true hl)
    show (s.withKeys [] (some k)).checkKey (some k) = _
    simp [checkKey, hs, hr]

theorem front_spaces (h : StartsToken rest) (n : Nat) (m : Mark)
    (hk : ∀ k ∈ key, k.required = false ∧ k.mark.line < m.line) :
    ((inBlocks levels allowed ⟨spaces n ++ rest, m⟩ waiting).withKeys [] key).front =
      .ok (inBlocks levels allowed ⟨rest, m.forward (spaces n)⟩ waiting) := by
  have hs :=
    skipToToken_spaces (s := (inBlocks levels allowed ⟨spaces n ++ rest, m⟩ waiting).withKeys
    [] key) h n m rfl (spaces n ++ rest).length
  have hd :=
    dropStaleKeys_withKeys (inBlocks levels allowed ⟨rest, m.forward (spaces n)⟩ waiting) hk
  rw [front]
  exact (congrArg dropStaleKeys hs).trans hd

theorem front_line (h : StartsToken rest) (n : Nat) (m : Mark)
    (hk : ∀ k ∈ key, k.required = false ∧ k.mark.line ≤ m.line) :
    ((inBlocks levels allowed ⟨'\n' :: (spaces n ++ rest), m⟩ waiting).withKeys [] key).front =
      .ok (inBlocks levels true ⟨rest, (m.nextLine ['\n']).forward (spaces n)⟩ waiting) := by
  have hs := skipToToken_line (s := (inBlocks levels allowed ⟨'\n' :: (spaces n ++ rest), m⟩
    waiting).withKeys [] key) h n m rfl rfl (spaces n ++ rest).length
  have hd := dropStaleKeys_withKeys
    (inBlocks levels true ⟨rest, (m.nextLine ['\n']).forward (spaces n)⟩ waiting)
    fun k hx => ⟨(hk k hx).1, Nat.lt_succ_of_le (hk k hx).2⟩
  rw [front]
  exact (congrArg dropStaleKeys hs).trans hd

/--
A state that has not ended is reached with `rest` left of a text. What has been read pays for the
steps, for the tokens, and for the ends of the blocks that are open.
-/
structure Reaches (text : List Char) (s : Scanner) (levels : List Nat) (rest : List Char)
    (waiting : List Token) : Prop where
  ended : s.ended = false
  steps : ∃ n, Steps n (ofText text) s ∧
    n + waiting.length + levels.length + 8 * rest.length ≤ 8 * text.length

/-- Directly behind a token in blocks, `lines` line breaks before a possible key is given up. -/
def Behind (text : List Char) (levels : List Nat) (allowed : Bool) (column : Nat)
    (rest : List Char) (lines : Nat) (kinds : List TokenKind) : Prop :=
  ∃ key m waiting, Reaches text ((inBlocks levels allowed ⟨rest, m⟩ waiting).withKeys [] key) levels
      rest waiting ∧
    (∀ k ∈ key, k.required = false ∧ k.mark.line < m.line + lines) ∧ m.column = column ∧
    waiting.map (·.kind) = kinds

/-- In front of a token, which may end blocks. -/
def Ahead (text : List Char) (levels : List Nat) (allowed : Bool) (column : Nat)
    (rest : List Char) (kinds : List TokenKind) : Prop :=
  ∃ s m waiting, Reaches text s levels rest waiting ∧
    s.front = .ok (inBlocks levels allowed ⟨rest, m⟩ waiting) ∧ m.column = column ∧
    waiting.map (·.kind) = kinds

/-- In front of a token, with the blocks that it ends closed. -/
def Ready (text : List Char) (levels : List Nat) (allowed : Bool) (column : Nat)
    (rest : List Char) (kinds : List TokenKind) : Prop :=
  ∃ s m waiting, Reaches text s levels rest waiting ∧
    s.step = (inBlocks levels allowed ⟨rest, m⟩ waiting).readToken ∧ m.column = column ∧
    waiting.map (·.kind) = kinds

/-- A line starts behind a node: the blocks that are deeper than some ended with that node. -/
def Between (text : List Char) (levels : List Nat) (line : List Char) (kinds : List TokenKind) :
    Prop :=
  ∃ opened column rest before, line = spaces column ++ rest ∧ StartsToken rest ∧
    Ahead text (opened ++ levels) true column rest before ∧
    (∀ level ∈ opened, top levels < level) ∧
    kinds = before ++ List.replicate opened.length .blockEnd

variable {t : Scanner} {lines n : Nat} {levels' : List Nat} {rest' before : List Char}
  {waiting' : List Token}

theorem Reaches.start (text : List Char) : Reaches text (ofText text) [] text [] :=
  ⟨rfl, 0, .refl, by simp⟩

/-- A step, and what of the text it reads. -/
theorem Reaches.step (h : Reaches text s levels rest waiting) (hs : s.step = .ok t)
    (he : t.ended = false)
    (hl : waiting'.length + levels'.length + 8 * rest'.length + 1 ≤
      waiting.length + levels.length + 8 * rest.length) :
    Reaches text t levels' rest' waiting' := by
  obtain ⟨n, hn, hb⟩ := h.steps
  exact ⟨he, n + 1, hn.trans (.step h.ended hs .refl), by omega⟩

/-- A step to the end of a text makes a run, of which the waiting tokens are given out. -/
theorem Reaches.run (h : Reaches text s levels rest waiting) (hs : s.step = .ok t) (ht : Ended t)
    (hl : t.waiting.length ≤ waiting.length + levels.length + 1) :
    run Scanner.step (8 * text.length + 16) (ofText text) = ⟨t.waiting, none⟩ := by
  obtain ⟨n, hn, hb⟩ := h.steps
  have hf : Final 0 (ofText text) := by
    refine ⟨Nat.zero_le _, fun key hm => ?_⟩
    cases List.mem_singleton.mp hm
  exact run_of_steps (hn.trans (.step h.ended hs .refl)) ht hf (by omega)

/-- What stands in front of a token costs nothing. -/
theorem Reaches.drop (before : List Char) (h : Reaches text s levels (before ++ rest) waiting) :
    Reaches text s levels rest waiting := by
  obtain ⟨n, hn, hb⟩ := h.steps
  rw [List.length_append] at hb
  exact ⟨h.ended, n, hn, by omega⟩

theorem Behind.ahead (h : Behind text levels allowed column (spaces n ++ rest) 0 kinds)
    (hr : StartsToken rest) : Ahead text levels allowed (column + n) rest kinds := by
  obtain ⟨key, m, waiting, hreach, hk, rfl, hw⟩ := h
  exact ⟨_, _, waiting, hreach.drop _, front_spaces hr n m hk, Block.forward_spaces_column m n, hw⟩

theorem Behind.ahead_line
    (h : Behind text levels allowed column ('\n' :: (spaces n ++ rest)) 1 kinds)
    (hr : StartsToken rest) : Ahead text levels true n rest kinds := by
  obtain ⟨key, m, waiting, hreach, hk, rfl, hw⟩ := h
  have hk' : ∀ k ∈ key, k.required = false ∧ k.mark.line ≤ m.line :=
    fun k hx => ⟨(hk k hx).1, Nat.le_of_lt_succ (hk k hx).2⟩
  refine ⟨_, _, waiting, hreach.drop ('\n' :: spaces n), front_line hr n m hk', ?_, hw⟩
  rw [Block.forward_spaces_column, Mark.nextLine_column, Nat.zero_add]

/-- The blocks that the next token ends are closed in front of it. -/
theorem Ahead.close (h : Ahead text (opened ++ levels) allowed column rest kinds)
    (ho : ∀ level ∈ opened, column < level) (ht : top levels ≤ column) :
    Ready text levels allowed column rest (kinds ++ List.replicate opened.length .blockEnd) := by
  obtain ⟨s, m, waiting, hreach, hf, rfl, rfl⟩ := h
  refine ⟨s, m, waiting ++ blockEnds m opened.length, ?_, ?_, rfl, ?_⟩
  · obtain ⟨n, hn, hb⟩ := hreach.steps
    refine ⟨hreach.ended, n, hn, ?_⟩
    simp only [List.length_append, blockEnds, List.length_replicate] at hb ⊢
    omega
  · rw [step_of_front hf]
    exact congrArg readToken (closeBlocks_opened ho ht allowed ⟨rest, m⟩ waiting)
  · rw [List.map_append, blockEnds, List.map_replicate]

theorem Ahead.ready (h : Ahead text levels allowed column rest kinds) (ht : top levels ≤ column) :
    Ready text levels allowed column rest kinds := by
  have hc : Ready text levels allowed column rest
      (kinds ++ List.replicate ([] : List Nat).length .blockEnd) := h.close nofun ht
  rwa [List.length_nil, List.replicate_zero, List.append_nil] at hc

theorem Ahead.between (h : Ahead text levels true n rest kinds) (hr : StartsToken rest) :
    Between text levels (spaces n ++ rest) kinds :=
  ⟨[], n, rest, kinds, rfl, hr, h, nofun, (List.append_nil kinds).symm⟩

theorem StartsToken.ne_space (h : StartsToken rest) : ∀ c ∈ rest.head?, c ≠ ' ' := by
  rintro c hx rfl
  cases (h _ hx).1

/-- A line at the column of the innermost block. -/
theorem Between.ready (h : Between text levels (spaces n ++ rest) kinds) (hr : StartsToken rest)
    (ht : top levels = n) : Ready text levels true n rest kinds := by
  obtain ⟨opened, column, rest', before, hl, hr', ha, ho, rfl⟩ := h
  obtain ⟨rfl, rfl⟩ := spaces_append_inj hr.ne_space hr'.ne_space hl
  refine ha.close (fun level hx => ?_) (Int.le_of_eq ht)
  have hlt := ho level hx
  omega

theorem Between.close (h : Between text (level :: levels) line kinds) (ht : top levels < level) :
    Between text levels line (kinds ++ [.blockEnd]) := by
  obtain ⟨opened, column, rest, before, hl, hr, ha, ho, rfl⟩ := h
  refine ⟨opened ++ [level], column, rest, before, hl, hr, ?_, ?_, ?_⟩
  · rwa [List.append_assoc]
  · intro l hx
    rcases List.mem_append.mp hx with hx | hx
    · exact Int.lt_trans ht (ho l hx)
    · exact List.mem_singleton.mp hx ▸ ht
  · rw [List.length_append, List.length_singleton, List.replicate_succ', List.append_assoc]

end ApiPresence.Yaml.Scanner
