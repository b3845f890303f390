import ApiPresence.Proofs.Basic
import ApiPresence.Proofs.Json.Lexeme

namespace ApiPresence.Json

open Text (isDigit)

variable {read next : List Char → Except Fault (Number × List Char)} {text rest : List Char}
  {n : Number} {c : Char}

/-- The characters of numbers. -/
def isNumberChar (c : Char) : Bool := isDigit c || c ∈ ['.', 'e', 'E', '+', '-']

theorem isNumberChar_of_isDigit (h : isDigit c = true) : isNumberChar c = true := by
  rw [isNumberChar, h, Bool.true_or]

/-- A number and where it ends; what follows it does not matter to it. -/
def Takes (read : List Char → Except Fault (Number × List Char)) (text : List Char) (n : Number)
    (rest : List Char) : Prop :=
  ∃ front, text = front ++ rest ∧ (∀ c ∈ front, isNumberChar c = true) ∧
    ∀ more, EndsNumber more → read (front ++ more) = .ok (n, more)

/-- Numbers are read up to where they end, and from their own characters. -/
def TakesNumbers (read : List Char → Except Fault (Number × List Char)) : Prop :=
  ∀ text n rest, read text = .ok (n, rest) → Takes read text n rest

theorem Takes.cons (h : Takes next text n rest) (hc : isNumberChar c = true)
    (he : ∀ text, read (c :: text) = next text) : Takes read (c :: text) n rest := by
  obtain ⟨front, rfl, hf, hm⟩ := h
  refine ⟨c :: front, rfl, List.forall_mem_cons.mpr ⟨hc, hf⟩, fun more hmore => ?_⟩
  rw [List.cons_append, he]
  exact hm more hmore

/--
Reading goes on in one way when the first character is not of a kind, as none behind numbers is.
-/
theorem Takes.of_head (h : Takes next text n rest) {kind : Char → Bool}
    (hk : ∀ more, EndsNumber more → ∀ c ∈ more.head?, kind c = false)
    (ht : ∀ c ∈ text.head?, kind c = false)
    (he : ∀ text, (∀ c ∈ text.head?, kind c = false) → read text = next text) :
    Takes read text n rest := by
  obtain ⟨front, rfl, hf, hm⟩ := h
  refine ⟨front, rfl, hf, fun more hmore => ?_⟩
  rw [he]
  · exact hm more hmore
  · cases front with
    | nil => exact hk more hmore
    | cons c front => exact ht

/-- Digits may be stepped over. -/
theorem TakesNumbers.skip (h : TakesNumbers next) :
    TakesNumbers fun text => next (text.dropWhile isDigit) := by
  intro text n rest hr
  obtain ⟨digits, others, rfl, hd, ho⟩ := exists_split isDigit text
  dsimp only at hr
  rw [dropWhile_append hd ho] at hr
  obtain ⟨front, rfl, hf, hm⟩ := h _ _ _ hr
  have hdigits : ∀ c ∈ digits, isNumberChar c = true :=
    fun c hc => isNumberChar_of_isDigit (hd c hc)
  refine ⟨digits ++ front, (List.append_assoc ..).symm, List.forall_mem_append.mpr ⟨hdigits, hf⟩,
    fun more hmore => ?_⟩
  dsimp only
  rw [List.append_assoc, dropWhile_append hd]
  · exact hm more hmore
  · cases front with
    | nil => exact fun c hc => (hmore c hc).1
    | cons c front => exact ho

theorem takesNumbers_ok (n : Number) : TakesNumbers fun text => .ok (n, text) := by
  rintro text _ rest ⟨⟩
  exact ⟨[], rfl, nofun, fun _ _ => rfl⟩

theorem takesNumbers_finish (p : Partial) : TakesNumbers p.finish := by
  cases hv : p.value? with
  | none =>
    intro text n rest h
    simp [Partial.finish, hv] at h
  | some value =>
    have he : p.finish = fun text => .ok (.float value, text) := by
      funext text
      simp [Partial.finish, hv]
    exact he ▸ takesNumbers_ok (.float value)

theorem head_isDigit_eq_false (h : EndsNumber more) : ∀ c ∈ more.head?, isDigit c = false :=
  fun c hc => (h c hc).1

/-- A text starts with a character of a kind or not. -/
theorem head_cases (kind : Char → Bool) (text : List Char) :
    (∀ c ∈ text.head?, kind c = false) ∨ ∃ c rest, text = c :: rest ∧ kind c = true := by
  cases text with
  | nil => exact .inl nofun
  | cons c text =>
    cases hc : kind c with
    | true => exact .inr ⟨c, text, rfl, hc⟩
    | false =>
      refine .inl ?_
      rintro x ⟨⟩
      exact hc

theorem takesNumbers_exponentDigits (p : Partial) (positive : Bool) (exponent : Nat) :
    TakesNumbers (readExponentDigits p positive exponent) := by
  have he (exponent : Nat) (text : List Char) (ht : ∀ c ∈ text.head?, isDigit c = false) :
      readExponentDigits p positive exponent text =
        readExponentDigits.finish p positive exponent text := by
    cases text with
    | nil => rfl
    | cons c text => rw [readExponentDigits, if_neg (by simp [ht c rfl])]
  intro text n rest h
  induction text generalizing exponent with
  | nil =>
    exact (takesNumbers_finish _ [] n rest h).of_head (fun _ => head_isDigit_eq_false) nofun
      (he exponent)
  | cons c text ih =>
    rcases head_cases isDigit (c :: text) with ht | ⟨_, _, ⟨⟩, hc⟩
    · rw [he exponent _ ht] at h
      exact (takesNumbers_finish _ _ n rest h).of_head (fun _ => head_isDigit_eq_false) ht
        (he exponent)
    · have hn := isNumberChar_of_isDigit hc
      rw [readExponentDigits, if_pos hc] at h
      by_cases ho : 0x7fffffff < exponent * 10 + Text.digitValue c
      · -- the exponent is too large to be kept
        rw [if_pos ho] at h
        split at h
        · cases h
        · next hz =>
          refine ((takesNumbers_ok _).skip text n rest h).cons hn fun text => ?_
          rw [readExponentDigits, if_pos hc, if_pos ho, if_neg hz]
      · rw [if_neg ho] at h
        refine (ih _ h).cons hn fun text => ?_
        rw [readExponentDigits, if_pos hc, if_neg ho]

/-- An exponent behind its sign, of which there is at least one digit. -/
def readUnsignedExponent (p : Partial) (positive : Bool) :
    List Char → Except Fault (Number × List Char)
  | [] => .error (.before .eofInValue [])
  | c :: rest =>
    if isDigit c then readExponentDigits p positive (Text.digitValue c) rest
    else .error (.at .invalidNumber (c :: rest))

theorem takesNumbers_unsignedExponent (p : Partial) (positive : Bool) :
    TakesNumbers (readUnsignedExponent p positive) := by
  intro text n rest h
  cases text with
  | nil => cases h
  | cons c text =>
    by_cases hc : isDigit c = true
    · rw [readUnsignedExponent, if_pos hc] at h
      refine (takesNumbers_exponentDigits p positive _ text n rest h).cons
        (isNumberChar_of_isDigit hc) fun text => ?_
      rw [readUnsignedExponent, if_pos hc]
    · rw [readUnsignedExponent, if_neg hc] at h
      cases h

theorem takesNumbers_exponent (p : Partial) : TakesNumbers (readExponent p) := by
  intro text n rest h
  cases text with
  | nil => cases h
  | cons c text =>
    by_cases hp : c = '+'
    · subst hp
      exact (takesNumbers_unsignedExponent p true text n rest h).cons rfl fun _ => rfl
    · by_cases hm : c = '-'
      · subst hm
        exact (takesNumbers_unsignedExponent p false text n rest h).cons rfl fun _ => rfl
      · have he (text : List Char) : readExponent p (c :: text) =
            readUnsignedExponent p true (c :: text) := by
          simp [readExponent, readUnsignedExponent, hp, hm]
        by_cases hc : isDigit c = true
        · rw [he, readUnsignedExponent, if_pos hc] at h
          refine (takesNumbers_exponentDigits p true _ text n rest h).cons
            (isNumberChar_of_isDigit hc) fun text => ?_
          rw [he, readUnsignedExponent, if_pos hc]
        · rw [he, readUnsignedExponent, if_neg hc] at h
          cases h

theorem takesNumbers_afterDigits (p : Partial) : TakesNumbers (readAfterDigits p) := by
  have he (text : List Char) (ht : ∀ c ∈ text.head?, (c = 'e' || c = 'E') = false) :
      readAfterDigits p text = p.finish text := by
    cases text with
    | nil => rfl
    | cons c text =>
      have hc := ht c rfl
      simp only [Bool.or_eq_false_iff, decide_eq_false_iff_not] at hc
      simp [readAfterDigits, hc]
  intro text n rest h
  rcases head_cases (fun c => c = 'e' || c = 'E') text with ht | ⟨c, text, rfl, hc⟩
  · rw [he text ht] at h
    refine (takesNumbers_finish p text n rest h).of_head (fun more hm c hc => ?_) ht he
    simp [(hm c hc).2]
  · simp only [Bool.or_eq_true, decide_eq_true_eq] at hc
    rcases hc with rfl | rfl
    · exact (takesNumbers_exponent p text n rest h).cons rfl fun _ => rfl
    · exact (takesNumbers_exponent p text n rest h).cons rfl fun _ => rfl

theorem takesNumbers_fraction (p : Partial) (first : Bool) :
    TakesNumbers (readFraction p first) := by
  have he (p : Partial) (text : List Char) (ht : ∀ c ∈ text.head?, isDigit c = false) :
      readFraction p false text = readAfterDigits p text := by
    cases text with
    | nil => rfl
    | cons c text => rw [readFraction, if_neg (by simp [ht c rfl])]; rfl
  intro text n rest h
  induction text generalizing p first with
  | nil =>
    cases first with
    | true => cases h
    | false =>
      exact (takesNumbers_afterDigits p [] n rest h).of_head (fun _ => head_isDigit_eq_false) nofun
        (he p)
  | cons c text ih =>
    rcases head_cases isDigit (c :: text) with ht | ⟨_, _, ⟨⟩, hc⟩
    · cases first with
      | true =>
        rw [readFraction, if_neg (by simp [ht c rfl])] at h
        cases h
      | false =>
        rw [he p _ ht] at h
        exact (takesNumbers_afterDigits p _ n rest h).of_head (fun _ => head_isDigit_eq_false) ht
          (he p)
    · have hn := isNumberChar_of_isDigit hc
      rw [readFraction, if_pos hc] at h
      by_cases hk : p.significand * 10 + Text.digitValue c < 0x10000000000000000
      · rw [if_pos hk] at h
        refine (ih _ _ h).cons hn fun text => ?_
        rw [readFraction, if_pos hc, if_pos hk]
      · rw [if_neg hk] at h
        refine ((takesNumbers_afterDigits p).skip text n rest h).cons hn fun text => ?_
        rw [readFraction, if_pos hc, if_neg hk]

theorem takesNumbers_long (p : Partial) : TakesNumbers (readLong p) := by
  have he (p : Partial) (text : List Char)
      (ht : ∀ c ∈ text.head?, (isDigit c || c = '.') = false) :
      readLong p text = readAfterDigits p text := by
    cases text with
    | nil => rfl
    | cons c text =>
      have hc := ht c rfl
      simp only [Bool.or_eq_false_iff, decide_eq_false_iff_not] at hc
      rw [readLong, if_neg (by simp [hc.1]), if_neg hc.2]
  intro text n rest h
  induction text generalizing p with
  | nil =>
    rw [he p [] nofun] at h
    exact (takesNumbers_afterDigits p [] n rest h).of_head
      (fun more hm c hc => by simp [hm c hc]) nofun (he p)
  | cons c text ih =>
    rcases head_cases (fun c => isDigit c || c = '.') (c :: text) with ht | ⟨_, _, ⟨⟩, hc⟩
    · rw [he p _ ht] at h
      exact (takesNumbers_afterDigits p _ n rest h).of_head
        (fun more hm c hc => by simp [hm c hc]) ht (he p)
    · by_cases hd : isDigit c = true
      · rw [readLong, if_pos hd] at h
        refine (ih _ h).cons (isNumberChar_of_isDigit hd) fun text => ?_
        rw [readLong, if_pos hd]
      · obtain rfl : c = '.' := by simpa [hd] using hc
        exact (takesNumbers_fraction p true text n rest h).cons rfl fun _ => rfl

theorem takesNumbers_afterWhole (negative : Bool) (whole : Nat) :
    TakesNumbers (readAfterWhole negative whole) := by
  have he (text : List Char) (ht : ∀ c ∈ text.head?, (c = '.' || c = 'e' || c = 'E') = false) :
      readAfterWhole negative whole text = .ok (wholeNumber negative whole, text) := by
    cases text with
    | nil => rfl
    | cons c text =>
      have hc := ht c rfl
      simp only [Bool.or_eq_false_iff, decide_eq_false_iff_not] at hc
      simp [readAfterWhole, hc]
  intro text n rest h
  rcases head_cases (fun c => c = '.' || c = 'e' || c = 'E') text with ht | ⟨c, text, rfl, hc⟩
  · rw [he text ht] at h
    refine (takesNumbers_ok _ text n rest h).of_head (fun more hm c hc => ?_) ht ?_
    · simp [(hm c hc).2]
    · cases h
      exact he
  · simp only [Bool.or_eq_true, decide_eq_true_eq] at hc
    rcases hc with (rfl | rfl) | rfl
    · exact (takesNumbers_fraction _ true text n rest h).cons rfl fun _ => rfl
    · exact (takesNumbers_exponent _ text n rest h).cons rfl fun _ => rfl
    · exact (takesNumbers_exponent _ text n rest h).cons rfl fun _ => rfl

theorem takesNumbers_whole (negative : Bool) (whole : Nat) :
    TakesNumbers (readWhole negative whole) := by
  have he (whole : Nat) (text : List Char) (ht : ∀ c ∈ text.head?, isDigit c = false) :
      readWhole negative whole text = readAfterWhole negative whole text := by
    cases text with
    | nil => rfl
    | cons c text => rw [readWhole, if_neg (by simp [ht c rfl])]
  intro text n rest h
  induction text generalizing whole with
  | nil =>
    have hnil : ∀ c ∈ ([] : List Char).head?, isDigit c = false := by
      rintro c ⟨⟩
    exact (takesNumbers_afterWhole negative whole [] n rest h).of_head
      (fun _ => head_isDigit_eq_false) hnil (he whole)
  | cons c text ih =>
    rcases head_cases isDigit (c :: text) with ht | ⟨_, _, ⟨⟩, hc⟩
    · rw [he whole _ ht] at h
      exact (takesNumbers_afterWhole negative whole _ n rest h).of_head
        (fun _ => head_isDigit_eq_false) ht (he whole)
    · have hn := isNumberChar_of_isDigit hc
      rw [readWhole, if_pos hc] at h
      by_cases hk : whole * 10 + Text.digitValue c < 0x10000000000000000
      · rw [if_pos hk] at h
        refine (ih _ h).cons hn fun text => ?_
        rw [readWhole, if_pos hc, if_pos hk]
      · rw [if_neg hk, readLong, if_pos hc] at h
        refine (takesNumbers_long _ text n rest h).cons hn fun text => ?_
        rw [readWhole, if_pos hc, if_neg hk, readLong, if_pos hc]

theorem takesNumbers_number (negative : Bool) : TakesNumbers (readNumber negative) := by
  have hz (text : List Char) (ht : ∀ c ∈ text.head?, isDigit c = false) :
      readNumber negative ('0' :: text) = readAfterWhole negative 0 text := by
    cases text with
    | nil => rfl
    | cons c text => simp [readNumber, ht c rfl]
  intro text n rest h
  cases text with
  | nil => cases h
  | cons c text =>
    by_cases h0 : c = '0'
    · subst h0
      rcases head_cases isDigit text with ht | ⟨c, text, rfl, hc⟩
      · rw [hz text ht] at h
        have htake : Takes (fun text => readNumber negative ('0' :: text)) text n rest :=
          (takesNumbers_afterWhole negative 0 text n rest h).of_head
            (fun _ => head_isDigit_eq_false) ht hz
        exact htake.cons rfl fun _ => rfl
      · simp [readNumber, hc] at h
    · have he (text : List Char) : readNumber negative (c :: text) = if isDigit c then
          readWhole negative (Text.digitValue c) text
          else .error (.at .invalidNumber (c :: text)) := by
        simp only [readNumber]
      rw [he] at h
      by_cases hc : isDigit c = true
      · rw [if_pos hc] at h
        refine (takesNumbers_whole negative _ text n rest h).cons (isNumberChar_of_isDigit hc)
          fun text => ?_
        rw [he, if_pos hc]
      · rw [if_neg hc] at h
        cases h

/-- A number that takes up a text starts with a digit. -/
theorem isDigit_of_readNumber (h : readNumber negative text = .ok (n, rest)) :
    ∃ c more, text = c :: more ∧ isDigit c = true := by
  cases text with
  | nil => cases h
  | cons c text =>
    refine ⟨c, text, rfl, ?_⟩
    by_cases h0 : c = '0'
    · exact h0 ▸ rfl
    · by_contra hc
      simp [readNumber, hc] at h

/-- A number that is all of a text is read from it, whatever follows. -/
theorem readNumber_append (h : readNumber negative digits = .ok (n, [])) (hr : EndsNumber rest) :
    readNumber negative (digits ++ rest) = .ok (n, rest) := by
  obtain ⟨front, hf, -, hm⟩ := takesNumbers_number negative _ _ _ h
  rw [List.append_nil] at hf
  exact hf ▸ hm rest hr

theorem isNumberChar_of_readNumber (h : readNumber negative digits = .ok (n, [])) :
    ∀ c ∈ digits, isNumberChar c = true := by
  obtain ⟨front, hf, hc, -⟩ := takesNumbers_number negative _ _ _ h
  rw [List.append_nil] at hf
  exact hf ▸ hc

end ApiPresence.Json
