import ApiPresence.Proofs.Basic
import ApiPresence.Yaml.Token.Scanner

namespace ApiPresence.Yaml
namespace Scanner

variable {s t u : Scanner} {k n : Nat}

/-- The state once its first waiting tokens have been given out. -/
def give (k : Nat) (s : Scanner) : Scanner :=
  { s with waiting := s.waiting.drop k, released := s.released + k }

/-- The first waiting tokens are final: no possible key is in front of them. -/
structure Final (k : Nat) (s : Scanner) : Prop where
  waiting : k ≤ s.waiting.length
  ahead : ∀ key, some key ∈ s.possibleKey :: s.flowKeys → s.released + k ≤ key.tokenNumber

/-- Tokens that were final still are, and they are the same. -/
structure Keeps (k : Nat) (s t : Scanner) : Prop where
  final : Final k t
  same : t.waiting.take k = s.waiting.take k

theorem Keeps.trans (h : Keeps k s t) (h' : Keeps k t u) : Keeps k s u :=
  ⟨h'.final, h'.same.trans h.same⟩

/-- What comes of a state with and without its final tokens. -/
structure Agrees (k : Nat) (s : Scanner) (given all : Except SyntaxError Scanner) : Prop where
  eq : given = all.map (give k)
  keeps : ∀ t, all = .ok t → Keeps k s t

/-- What is done to a state does not depend on whether its final tokens have been given out. -/
def Steady (f : Scanner → Except SyntaxError Scanner) : Prop :=
  ∀ k s, Final k s → Agrees k s (f (s.give k)) (f s)

theorem Agrees.ite {p : Prop} [Decidable p] {a b a' b' : Except SyntaxError Scanner}
    (h : Agrees k s a a') (h' : Agrees k s b b') :
    Agrees k s (if p then a else b) (if p then a' else b') := by
  split
  · exact h
  · exact h'

theorem Steady.bind {f g : Scanner → Except SyntaxError Scanner} (hf : Steady f) (hg : Steady g) :
    Steady fun s => f s >>= g := by
  intro k s h
  obtain ⟨he, hk⟩ := hf k s h
  dsimp only
  rw [he]
  cases hs : f s with
  | error e => exact ⟨rfl, fun t ht => by cases ht⟩
  | ok t =>
    have ht := hk t hs
    obtain ⟨he', hk'⟩ := hg k t ht.final
    exact ⟨he', fun u hu => ht.trans (hk' u hu)⟩

theorem Steady.read {α : Type} {f : Scanner → Except SyntaxError α}
    {g : α → Scanner → Except SyntaxError Scanner}
    (hf : ∀ k s, f (s.give k) = f s) (hg : ∀ a, Steady (g a)) :
    Steady fun s => f s >>= fun a => g a s := by
  intro k s h
  dsimp only
  rw [hf]
  cases f s with
  | error e => exact ⟨rfl, fun t ht => by cases ht⟩
  | ok a => exact hg a k s h

theorem Steady.ite {p : Scanner → Prop} [DecidablePred p]
    {f g : Scanner → Except SyntaxError Scanner} (hp : ∀ k s, p (s.give k) ↔ p s)
    (hf : Steady f) (hg : Steady g) : Steady fun s => if p s then f s else g s := by
  intro k s h
  simp only [hp]
  split
  · exact hf k s h
  · exact hg k s h

theorem steady_fail {f : Scanner → SyntaxError} (hf : ∀ k s, f (s.give k) = f s) :
    Steady fun s => .error (f s) :=
  fun k s _ => ⟨congrArg Except.error (hf k s), fun t ht => by cases ht⟩

theorem steady_ok {f : Scanner → Scanner} (hf : ∀ k s, Final k s → f (s.give k) = (f s).give k)
    (hk : ∀ k s, Final k s → Keeps k s (f s)) : Steady fun s => .ok (f s) := by
  intro k s h
  refine ⟨congrArg Except.ok (hf k s h), ?_⟩
  rintro t ⟨⟩
  exact hk k s h

/-- Tokens put behind all others, with whatever the state holds beside tokens and keys. -/
theorem steady_append {f : Scanner → Scanner} (more : Scanner → List Token)
    (hf : ∀ k s, f (s.give k) = { f s with
      waiting := s.waiting.drop k ++ more s, released := s.released + k })
    (hw : ∀ s, (f s).waiting = s.waiting ++ more s) (hr : ∀ s, (f s).released = s.released)
    (hk : ∀ s key, some key ∈ (f s).possibleKey :: (f s).flowKeys →
      some key ∈ s.possibleKey :: s.flowKeys) :
    Steady fun s => .ok (f s) := by
  refine steady_ok ?_ ?_
  · intro k s h
    rw [hf, give, hw, hr, List.drop_append_of_le_length h.waiting]
  · intro k s h
    refine ⟨⟨?_, ?_⟩, ?_⟩
    · rw [hw, List.length_append]
      exact Nat.le_add_right_of_le h.waiting
    · intro key hm
      rw [hr]
      exact h.ahead key (hk s key hm)
    · rw [hw, List.take_append_of_le_length h.waiting]

theorem Steady.after {f : Scanner → Scanner} {g : Scanner → Except SyntaxError Scanner}
    (hg : Steady g) (hf : Steady fun s => .ok (f s)) : Steady fun s => g (f s) :=
  hf.bind hg

theorem steady_indicator (kind : TokenKind) (size : Nat) :
    Steady fun s => .ok (s.indicator kind size) :=
  steady_append (fun s => [⟨kind, s.mark, (s.cursor.skip size).mark⟩]) (fun _ _ => rfl)
    (fun _ => rfl) (fun _ => rfl) (fun _ _ h => h)

theorem steady_openBlock (kind : TokenKind) :
    Steady fun s => .ok (s.openBlock s.column none kind s.mark) := by
  have he : (fun s : Scanner => Except.ok (ε := SyntaxError)
      (s.openBlock s.column none kind s.mark)) =
      fun s => if s.inFlow || s.column ≤ s.indent then .ok s else
        .ok ({ s with indents := s.indent :: s.indents, indent := s.column }.append kind
          s.mark s.mark) := by
    funext s
    rw [openBlock]
    split <;> rfl
  rw [he]
  refine .ite (fun _ _ => Iff.rfl) ?_ ?_
  · exact steady_append (fun _ => []) (by simp [give]) (by simp) (by simp) (by simp)
  · exact steady_append (fun s => [⟨kind, s.mark, s.mark⟩]) (fun _ _ => rfl) (fun _ => rfl)
      (fun _ => rfl) (fun _ _ h => h)

/-- Only what stands beside tokens and keys is changed. -/
theorem steady_beside {f : Scanner → Scanner}
    (hf : ∀ k s, f (s.give k) = { f s with
      waiting := s.waiting.drop k, released := s.released + k })
    (hw : ∀ s, (f s).waiting = s.waiting) (hr : ∀ s, (f s).released = s.released)
    (hk : ∀ s, (f s).possibleKey = s.possibleKey ∧ (f s).flowKeys = s.flowKeys) :
    Steady fun s => .ok (f s) :=
  steady_append (fun _ => []) (by simpa using hf) (by simpa using hw) hr
    fun s key h => by rwa [(hk s).1, (hk s).2] at h

theorem steady_closeBlocks (column : Scanner → Int) (hc : ∀ k s, column (s.give k) = column s) :
    Steady fun s => .ok (s.closeBlocks (column s)) := by
  have he : (fun s : Scanner => Except.ok (ε := SyntaxError) (s.closeBlocks (column s))) =
      fun s => if s.inFlow then .ok s else
        let blocks := (s.indent :: s.indents).takeWhile (column s < ·)
        let left := (s.indent :: s.indents).drop blocks.length
        .ok { s with
          indent := left.headD (-1)
          indents := left.drop 1
          waiting := s.waiting ++ blocks.map fun _ => ⟨.blockEnd, s.mark, s.mark⟩ } := by
    funext s
    rw [closeBlocks]
    split <;> rfl
  rw [he]
  refine .ite (fun _ _ => Iff.rfl) ?_ ?_
  · exact steady_beside (fun _ _ => rfl) (fun _ => rfl) (fun _ => rfl) (fun _ => ⟨rfl, rfl⟩)
  · refine steady_append (fun s => ((s.indent :: s.indents).takeWhile (column s < ·)).map
      fun _ => ⟨.blockEnd, s.mark, s.mark⟩) ?_ (fun _ => rfl) (fun _ => rfl) (fun _ _ h => h)
    intro k s
    dsimp only
    rw [hc]
    rfl

/-- The cursor past the blanks and the comment on its line. -/
def lineFront (s : Scanner) : Cursor :=
  let c := if s.mark.column = 0 ∧ s.cursor.startsWith '\ufeff' then s.cursor.skip 1 else s.cursor
  let tabs := s.inFlow || !s.keyAllowed
  let c := c.skipWhile fun x => x = ' ' || (tabs && x = '\t')
  if c.startsWith '#' then c.skipWhile (fun x => !isBreak x) else c

theorem skipToToken_succ (fuel : Nat) (s : Scanner) :
    skipToToken (fuel + 1) s = if s.lineFront.rest.head?.any isBreak then
        skipToToken fuel
          { s with cursor := s.lineFront.skipBreak, keyAllowed := s.keyAllowed || !s.inFlow }
      else { s with cursor := s.lineFront } := rfl

theorem steady_skipToToken (fuel : Nat) : Steady fun s => .ok (skipToToken fuel s) := by
  induction fuel with
  | zero => exact steady_beside (fun _ _ => rfl) (fun _ => rfl) (fun _ => rfl) (fun _ => ⟨rfl, rfl⟩)
  | succ fuel ih =>
    simp only [skipToToken_succ, apply_ite Except.ok]
    refine .ite (fun _ _ => Iff.rfl) (ih.after ?_) ?_
    all_goals
      exact steady_beside (fun _ _ => rfl) (fun _ => rfl) (fun _ => rfl) (fun _ => ⟨rfl, rfl⟩)

theorem steady_dropKey : Steady dropKey := by
  intro k s h
  have hk : Keeps k s { s with possibleKey := none } :=
    ⟨⟨h.waiting, fun key hm => h.ahead key (by simp_all)⟩, rfl⟩
  cases hp : s.possibleKey with
  | none =>
    have he : dropKey s = .ok s := by rw [dropKey, hp]
    have he' : dropKey (s.give k) = .ok (s.give k) := by simp only [dropKey, give, hp]
    exact ⟨he' ▸ he ▸ rfl, fun t ht => Except.ok.inj (he ▸ ht) ▸ ⟨h, rfl⟩⟩
  | some key =>
    simp only [dropKey, give, hp]
    split
    · exact ⟨rfl, fun t ht => by cases ht⟩
    · refine ⟨rfl, ?_⟩
      rintro t ⟨⟩
      exact hk

theorem steady_skip : Steady fun s => .ok s :=
  steady_beside (fun _ _ => rfl) (fun _ => rfl) (fun _ => rfl) (fun _ => ⟨rfl, rfl⟩)

theorem steady_setKey (required : Bool) : Steady fun s => .ok { s with
    possibleKey := some ⟨required, s.released + s.waiting.length, s.mark⟩ } := by
  refine steady_ok ?_ ?_
  · intro k s h
    have hl : s.released + k + (s.waiting.drop k).length = s.released + s.waiting.length := by
      have := h.waiting
      rw [List.length_drop]
      omega
    simp only [give, hl]
    rfl
  · intro k s h
    refine ⟨⟨h.waiting, ?_⟩, rfl⟩
    intro key hm
    rcases List.mem_cons.mp hm with hm | hm
    · cases hm
      exact Nat.add_le_add_left h.waiting _
    · exact h.ahead key (List.mem_cons_of_mem _ hm)

theorem steady_saveKey : Steady saveKey := by
  refine .ite (p := fun s => s.keyAllowed = true) (fun _ _ => Iff.rfl) ?_ steady_skip
  exact .read (f := fun s => .ok (!s.inFlow && s.indent == s.column)) (fun _ _ => rfl)
    fun required => steady_dropKey.bind (steady_setKey required)

theorem checkKey_eq_some (h : s.checkKey key = .ok (some found)) : key = some found := by
  unfold checkKey at h
  split at h
  · split at h
    · split at h <;> cases h
    · exact Except.ok.inj h
  · cases h

/-- Of some keys those are left that are not stale. -/
theorem mapM_checkKey_subset {keys left : List (Option PossibleKey)}
    (h : keys.mapM s.checkKey = .ok left) : ∀ key, some key ∈ left → some key ∈ keys := by
  induction keys generalizing left with
  | nil =>
    cases h
    exact fun key hm => hm
  | cons key keys ih =>
    rw [List.mapM_cons, bind_eq_ok_iff] at h
    obtain ⟨first, hf, h⟩ := h
    obtain ⟨rest, hr, h⟩ := bind_eq_ok_iff.mp h
    cases h
    intro found hm
    rcases List.mem_cons.mp hm with rfl | hm
    · exact checkKey_eq_some hf ▸ List.mem_cons_self
    · exact List.mem_cons_of_mem _ (ih hr found hm)

theorem dropStaleKeys_eq_ok_iff : s.dropStaleKeys = .ok t ↔
    ∃ outer key, s.flowKeys.reverse.mapM s.checkKey = .ok outer ∧
      s.checkKey s.possibleKey = .ok key ∧
      t = { s with flowKeys := outer.reverse, possibleKey := key } := by
  rw [dropStaleKeys, bind_eq_ok_iff]
  refine exists_congr fun outer => ?_
  rw [bind_eq_ok_iff]
  constructor
  · rintro ⟨ho, key, hk, h⟩
    exact ⟨key, ho, hk, (Except.ok.inj h).symm⟩
  · rintro ⟨key, ho, hk, rfl⟩
    exact ⟨ho, key, hk, rfl⟩

theorem steady_dropStaleKeys : Steady dropStaleKeys := by
  intro k s h
  have hg : (s.give k).dropStaleKeys = s.dropStaleKeys.map (give k) := by
    have hc : (s.give k).checkKey = s.checkKey := rfl
    have hf : (s.give k).flowKeys = s.flowKeys := rfl
    have hp : (s.give k).possibleKey = s.possibleKey := rfl
    simp only [dropStaleKeys, hc, hf, hp]
    cases s.flowKeys.reverse.mapM s.checkKey with
    | error e => rfl
    | ok outer => cases s.checkKey s.possibleKey <;> rfl
  refine ⟨hg, ?_⟩
  intro t ht
  obtain ⟨outer, key, ho, hk, rfl⟩ := dropStaleKeys_eq_ok_iff.mp ht
  refine ⟨⟨h.waiting, ?_⟩, rfl⟩
  intro found hm
  rcases List.mem_cons.mp hm with rfl | hm
  · exact h.ahead found (checkKey_eq_some hk ▸ List.mem_cons_self)
  · have hf := mapM_checkKey_subset ho found (List.mem_reverse.mp hm)
    exact h.ahead found (List.mem_cons_of_mem _ (List.mem_reverse.mp hf))

/-- A token put in front of one that is not final. -/
theorem insert_give {number : Nat} (h : Final k s) (hn : s.released + k ≤ number)
    (kind : TokenKind) (mark : Mark) :
    (s.give k).insert number kind mark = (s.insert number kind mark).give k ∧
      Keeps k s (s.insert number kind mark) := by
  have hl := h.waiting
  have hp : k ≤ number - s.released := by omega
  have ht : k ≤ (s.waiting.take (number - s.released)).length := by
    rw [List.length_take]
    omega
  constructor
  · have hd : number - (s.released + k) = number - s.released - k := by omega
    have ha : k + (number - s.released - k) = number - s.released := by omega
    simp only [insert, give, List.drop_append_of_le_length ht, List.drop_take, List.drop_drop, hd,
      ha]
  · refine ⟨⟨?_, h.ahead⟩, ?_⟩
    · simp only [insert, List.length_append]
      omega
    · rw [insert, List.take_append_of_le_length ht, List.take_take, Nat.min_eq_left hp]

theorem openBlock_some (s : Scanner) (column : Int) (number : Nat) (kind : TokenKind)
    (mark : Mark) :
    s.openBlock column (some number) kind mark = if s.inFlow || column ≤ s.indent then s else
      { s with indents := s.indent :: s.indents, indent := column }.insert number kind mark := rfl

theorem openBlock_give {number : Nat} (h : Final k s) (hn : s.released + k ≤ number) (column : Int)
    (kind : TokenKind) (mark : Mark) :
    (s.give k).openBlock column (some number) kind mark =
        (s.openBlock column (some number) kind mark).give k ∧
      Keeps k s (s.openBlock column (some number) kind mark) := by
  have hf : (s.give k).inFlow = s.inFlow ∧ (s.give k).indent = s.indent := ⟨rfl, rfl⟩
  simp only [openBlock_some, hf]
  split
  · exact ⟨rfl, h, rfl⟩
  · have ho : Final k { s with indents := s.indent :: s.indents, indent := column } :=
      ⟨h.waiting, h.ahead⟩
    obtain ⟨hi, hk⟩ := insert_give ho hn kind mark
    exact ⟨hi, hk.final, hk.same⟩

theorem steady_keyAllowed (allowed : Scanner → Bool)
    (ha : ∀ k s, allowed (s.give k) = allowed s) :
    Steady fun s => .ok { s with keyAllowed := allowed s } :=
  steady_beside (fun k s => by rw [ha]; rfl) (fun _ => rfl) (fun _ => rfl) (fun _ => ⟨rfl, rfl⟩)

theorem steady_clearKey : Steady fun s => .ok { s with possibleKey := none, keyAllowed := false } :=
  steady_append (fun _ => []) (fun k s => by rw [List.append_nil]; rfl)
    (fun s => (List.append_nil _).symm) (fun _ => rfl)
    fun s key hm => by
      rcases List.mem_cons.mp hm with hm | hm
      · cases hm
      · exact List.mem_cons_of_mem _ hm

theorem steady_readValue : Steady readValue := by
  intro k s h
  cases hp : s.possibleKey with
  | none =>
    have hf : Steady fun s => if !s.inFlow && !s.keyAllowed then s.failHere .mappingValueNotAllowed
        else .ok ({ s.openBlock s.column none .blockMappingStart s.mark with
          keyAllowed := !(s.openBlock s.column none .blockMappingStart s.mark).inFlow }.indicator
            .value 1) :=
      .ite (fun _ _ => Iff.rfl) (steady_fail fun _ _ => rfl)
        (((steady_indicator .value 1).after (steady_keyAllowed (!·.inFlow) fun _ _ => rfl)).after
          (steady_openBlock .blockMappingStart))
    have he : ∀ t : Scanner, t.possibleKey = none → readValue t = if !t.inFlow && !t.keyAllowed then
        t.failHere .mappingValueNotAllowed
        else .ok ({ t.openBlock t.column none .blockMappingStart t.mark with
          keyAllowed := !(t.openBlock t.column none .blockMappingStart t.mark).inFlow }.indicator
            .value 1) := by
      intro t ht
      rw [readValue, ht]
    rw [he s hp, he (s.give k) hp]
    exact hf k s h
  | some key =>
    have he : ∀ t : Scanner, t.possibleKey = some key → readValue t = .ok ({
        (t.insert key.tokenNumber .key key.mark).openBlock key.mark.column (some key.tokenNumber)
          .blockMappingStart key.mark with possibleKey := none, keyAllowed := false }.indicator
            .value 1) := by
      intro t ht
      rw [readValue, ht]
    have hn := h.ahead key (hp ▸ List.mem_cons_self)
    obtain ⟨hi, hki⟩ := insert_give h hn .key key.mark
    have hn' : (s.insert key.tokenNumber .key key.mark).released + k ≤ key.tokenNumber := hn
    obtain ⟨ho, hko⟩ := openBlock_give hki.final hn' key.mark.column .blockMappingStart key.mark
    obtain ⟨hv, hkv⟩ := (steady_indicator .value 1).after steady_clearKey k _ hko.final
    rw [he s hp, he (s.give k) hp, hi, ho]
    exact ⟨hv, fun t ht => (hki.trans hko).trans (hkv t ht)⟩

theorem steady_readEnd : Steady readEnd := by
  have hb : Steady fun s => .ok { s with cursor := ⟨s.cursor.rest,
      if s.mark.column = 0 then s.mark else ⟨s.mark.index, s.mark.line + 1, 0⟩⟩ } :=
    steady_beside (fun _ _ => rfl) (fun _ => rfl) (fun _ => rfl) (fun _ => ⟨rfl, rfl⟩)
  have he : Steady fun s => .ok ({ s with keyAllowed := false, ended := true }.append .streamEnd
      s.mark s.mark) :=
    steady_append (fun s => [⟨.streamEnd, s.mark, s.mark⟩]) (fun _ _ => rfl) (fun _ => rfl)
      (fun _ => rfl) (fun _ _ h => h)
  exact ((steady_dropKey.bind he).after (steady_closeBlocks (fun _ => -1)
    fun _ _ => rfl)).after hb

/-- A token that is read in one piece, by what is in front of the cursor. -/
theorem steady_lexeme {α : Type} (read : Scanner → Except SyntaxError α) (kind : α → TokenKind)
    (stop : α → Mark) (cursor : α → Cursor) (allowed : α → Bool)
    (hr : ∀ k s, read (s.give k) = read s) :
    Steady fun s => read s >>= fun a => .ok { s.append (kind a) s.mark (stop a) with
      keyAllowed := allowed a, cursor := cursor a } :=
  .read hr fun a => steady_append (fun s => [⟨kind a, s.mark, stop a⟩]) (fun _ _ => rfl)
    (fun _ => rfl) (fun _ => rfl) (fun _ _ h => h)

theorem steady_closeAll : Steady fun s => (s.closeBlocks (-1)).dropKey :=
  steady_dropKey.after (steady_closeBlocks (fun _ => -1) fun _ _ => rfl)

theorem steady_readDirective : Steady readDirective :=
  steady_closeAll.bind (steady_lexeme (fun s => Directive.read s.cursor)
    (fun a => .directive a.1) (fun a => a.2.1) (fun a => a.2.2)
    (fun _ => false) fun _ _ => rfl)

theorem steady_readDocumentIndicator (kind : TokenKind) :
    Steady (readDocumentIndicator · kind) :=
  steady_closeAll.bind
    ((steady_indicator kind 3).after (steady_keyAllowed (fun _ => false) fun _ _ => rfl))

theorem steady_readFlowStart (kind : TokenKind) : Steady (readFlowStart · kind) := by
  refine steady_saveKey.bind ((steady_indicator kind 1).after ?_)
  refine steady_append (fun _ => []) (fun k s => by rw [List.append_nil]; rfl)
    (fun s => (List.append_nil _).symm) (fun _ => rfl) fun s key hm => ?_
  rcases List.mem_cons.mp hm with hm | hm
  · cases hm
  · exact hm

/-- The state around a flow collection, whose own key is possible again. -/
def leaveFlow (s : Scanner) : Scanner :=
  match s.flowKeys with
  | key :: keys => { s with possibleKey := key, flowKeys := keys }
  | [] => s

theorem steady_leaveFlow : Steady fun s => .ok s.leaveFlow := by
  intro k s h
  dsimp only [leaveFlow]
  cases hk : s.flowKeys with
  | nil =>
    have hk' : (s.give k).flowKeys = [] := hk
    rw [hk']
    exact steady_skip k s h
  | cons key keys =>
    have hk' : (s.give k).flowKeys = key :: keys := hk
    rw [hk']
    refine ⟨rfl, ?_⟩
    rintro t ⟨⟩
    exact ⟨⟨h.waiting, fun found hm => h.ahead found (hk ▸ List.mem_cons_of_mem _ hm)⟩, rfl⟩

theorem steady_readFlowEnd (kind : TokenKind) : Steady (readFlowEnd · kind) :=
  steady_dropKey.bind (((steady_indicator kind 1).after
    (steady_keyAllowed (fun _ => false) fun _ _ => rfl)).after steady_leaveFlow)

theorem steady_readFlowEntry : Steady readFlowEntry :=
  steady_dropKey.bind
    ((steady_indicator .flowEntry 1).after (steady_keyAllowed (fun _ => true) fun _ _ => rfl))

theorem steady_readBlockEntry : Steady readBlockEntry :=
  .ite (fun _ _ => Iff.rfl) (steady_fail fun _ _ => rfl)
    ((steady_dropKey.bind ((steady_indicator .blockEntry 1).after
      (steady_keyAllowed (fun _ => true) fun _ _ => rfl))).after
        (steady_openBlock .blockSequenceStart))

theorem steady_readKey : Steady readKey :=
  .ite (fun _ _ => Iff.rfl) (steady_fail fun _ _ => rfl)
    ((steady_dropKey.bind ((steady_indicator .key 1).after
      (steady_keyAllowed (!·.inFlow) fun _ _ => rfl))).after (steady_openBlock .blockMappingStart))

theorem steady_readAnchor : Steady readAnchor :=
  steady_saveKey.bind (steady_lexeme (fun s => s.readName .anchor)
    (fun a => .anchor a.1) (fun a => a.2.mark) (fun a => a.2)
    (fun _ => false) fun _ _ => rfl)

theorem steady_readAlias : Steady readAlias :=
  steady_saveKey.bind (steady_lexeme (fun s => s.readName .aliasName)
    (fun a => .aliasOf a.1) (fun a => a.2.mark) (fun a => a.2)
    (fun _ => false) fun _ _ => rfl)

theorem steady_readTag : Steady readTag :=
  steady_saveKey.bind (steady_lexeme (fun s => TagName.read s.inFlow s.cursor)
    (fun a => .tag a.1) (fun a => a.2.mark) (fun a => a.2)
    (fun _ => false) fun _ _ => rfl)

theorem steady_readBlockScalar (style : ScalarStyle) : Steady (readBlockScalar · style) :=
  steady_dropKey.bind (steady_lexeme
    (fun s => Block.read (style = .folded) s.indent s.cursor)
    (fun a => .scalar a.1 style) (fun a => a.2.1) (fun a => a.2.2)
    (fun _ => true) fun _ _ => rfl)

theorem steady_readQuoted (style : ScalarStyle) : Steady (readQuoted · style) :=
  steady_saveKey.bind (steady_lexeme
    (fun s => Quoted.read (style = .singleQuoted) s.cursor)
    (fun a => .scalar a.1 style) (fun a => a.2.mark) (fun a => a.2)
    (fun _ => false) fun _ _ => rfl)

theorem steady_readPlain : Steady readPlain :=
  steady_saveKey.bind (steady_lexeme
    (fun s => PlainScalar.read s.inFlow (s.indent + 1).toNat s.cursor)
    (fun a => .scalar a.1.text .plain) (fun a => a.1.stop)
    (fun a => a.2) (fun a => a.1.broken) fun _ _ => rfl)

theorem steady_readToken : Steady readToken := by
  intro k s h
  have hc : (s.give k).cursor = s.cursor := rfl
  have hm : (s.give k).mark = s.mark := rfl
  have hf : (s.give k).inFlow = s.inFlow := rfl
  simp only [readToken, hc, hm, hf]
  split
  · exact steady_readEnd k s h
  · exact .ite (steady_readDirective k s h) <|
      .ite (steady_readDocumentIndicator .documentStart k s h) <|
      .ite (steady_readDocumentIndicator .documentEnd k s h) <|
      .ite (steady_readFlowStart .flowSequenceStart k s h) <|
      .ite (steady_readFlowStart .flowMappingStart k s h) <|
      .ite (steady_readFlowEnd .flowSequenceEnd k s h) <|
      .ite (steady_readFlowEnd .flowMappingEnd k s h) <|
      .ite (steady_readFlowEntry k s h) <|
      .ite (steady_readBlockEntry k s h) <|
      .ite (steady_readKey k s h) <|
      .ite (steady_readValue k s h) <|
      .ite (steady_readAlias k s h) <|
      .ite (steady_readAnchor k s h) <|
      .ite (steady_readTag k s h) <|
      .ite (steady_readBlockScalar .literal k s h) <|
      .ite (steady_readBlockScalar .folded k s h) <|
      .ite (steady_readQuoted .singleQuoted k s h) <|
      .ite (steady_readQuoted .doubleQuoted k s h) <|
      .ite (steady_readPlain k s h) ⟨rfl, nofun⟩

theorem steady_step : Steady step := by
  have hs : Steady fun s => (s.closeBlocks s.column).readToken :=
    steady_readToken.after (steady_closeBlocks column fun _ _ => rfl)
  have hd : Steady fun s => s.dropStaleKeys >>= fun s => (s.closeBlocks s.column).readToken :=
    steady_dropStaleKeys.bind hs
  intro k s h
  exact hd.after (steady_skipToToken (s.cursor.rest.length + 1)) k s h

end Scanner
end ApiPresence.Yaml
