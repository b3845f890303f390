import ApiPresence.FilePath
import ApiPresence.Proofs.Basic

namespace ApiPresence

namespace FilePath

/-- What may stand behind the last name of a path: slashes, and single points behind them. -/
inductive Trailing : List Char → Prop
  | nil : Trailing []
  | slash (h : Trailing rest) : Trailing ('/' :: rest)
  | point (h : Trailing rest) : Trailing ('/' :: '.' :: rest)

/-- What may stand in front of a name. -/
inductive Leading : List Char → Prop
  | nil : Leading []
  | slash : Leading (directory ++ ['/'])

/-- A path whose last name has a stem and behind its last point this extension. -/
inductive Extends (extension : List Char) : List Char → Prop
  | intro (hf : Leading front) (hs : stem ≠ [] ∧ '/' ∉ stem)
      (he : '/' ∉ extension ∧ '.' ∉ extension) (hr : Trailing rest) :
      Extends extension (front ++ (stem ++ '.' :: extension ++ rest))

/-- A part of a path that names something. -/
def IsName (part : List Char) : Prop := part ≠ [] ∧ part ≠ ['.']

instance (part : List Char) : Decidable (IsName part) := inferInstanceAs (Decidable (_ ∧ _))

open parts (split)

theorem split_cons_of_ne (h : c ≠ '/') (part text : List Char) :
    split part (c :: text) = split (c :: part) text := by
  rw [split]
  exact h

theorem split_of_not_mem (h : '/' ∉ text) (part : List Char) :
    split part text = [part.reverse ++ text] := by
  induction text generalizing part with
  | nil => rw [split, List.append_nil]
  | cons c text ih =>
    rw [List.mem_cons, not_or] at h
    rw [split_cons_of_ne (Ne.symm h.1), ih h.2, List.reverse_cons, List.append_assoc,
      List.singleton_append]

theorem split_append (part a b : List Char) :
    split part (a ++ '/' :: b) = split part a ++ split [] b := by
  induction a generalizing part with
  | nil => rfl
  | cons c a ih =>
    by_cases hc : c = '/'
    · subst hc
      rw [List.cons_append, split, ih, split, List.cons_append]
    · rw [List.cons_append, split_cons_of_ne hc, split_cons_of_ne hc, ih]

/-- A path is one part, or the first part, a slash and a shorter path. -/
theorem split_cases (text : List Char) : ('/' ∉ text ∧ split [] text = [text]) ∨
    ∃ first rest, '/' ∉ first ∧ text = first ++ '/' :: rest ∧ rest.length < text.length ∧
      split [] text = first :: split [] rest := by
  obtain ⟨a, b, rfl, ha, hb⟩ := exists_split (fun c => decide (c ≠ '/')) text
  have hn : '/' ∉ a := by
    intro h
    simpa using ha _ h
  cases b with
  | nil =>
    left
    rw [List.append_nil]
    exact ⟨hn, split_of_not_mem hn []⟩
  | cons c rest =>
    right
    have hc : c = '/' := by simpa using hb c rfl
    subst hc
    have hl : rest.length < (a ++ '/' :: rest).length := by
      rw [List.length_append, List.length_cons]
      omega
    refine ⟨a, rest, hn, rfl, hl, ?_⟩
    rw [split_append, split_of_not_mem hn]
    rfl

/-- Behind a name there is nothing that names something. -/
theorem Trailing.split_append (h : Trailing rest) (hn : '/' ∉ name) :
    ∃ others, split [] (name ++ rest) = name :: others ∧ ∀ part ∈ others, ¬ IsName part := by
  induction h generalizing name with
  | nil => exact ⟨[], by rw [List.append_nil, split_of_not_mem hn]; rfl, List.forall_mem_nil _⟩
  | @slash rest h ih =>
    obtain ⟨others, ho, hm⟩ := @ih [] List.not_mem_nil
    rw [List.nil_append] at ho
    refine ⟨[] :: others, ?_, ?_⟩
    · rw [FilePath.split_append, split_of_not_mem hn, ho]
      rfl
    · rw [List.forall_mem_cons]
      exact ⟨fun h => h.1 rfl, hm⟩
  | @point rest h ih =>
    obtain ⟨others, ho, hm⟩ := @ih ['.'] (by decide)
    refine ⟨['.'] :: others, ?_, ?_⟩
    · rw [FilePath.split_append, split_of_not_mem hn, ← List.singleton_append (l := rest), ho]
      rfl
    · rw [List.forall_mem_cons]
      exact ⟨fun h => h.2 rfl, hm⟩

theorem not_isName_iff : ¬ IsName part ↔ part = [] ∨ part = ['.'] := by
  rw [IsName, not_and_or, not_not, not_not]

theorem trailing_of_split (text : List Char) (h : ∀ part ∈ split [] text, ¬ IsName part) :
    Trailing ('/' :: text) := by
  rcases split_cases text with ⟨-, hs⟩ | ⟨first, rest, -, ht, hl, hs⟩
  · rw [hs, List.forall_mem_singleton, not_isName_iff] at h
    rcases h with rfl | rfl
    · exact .slash .nil
    · exact .point .nil
  · rw [hs, List.forall_mem_cons, not_isName_iff] at h
    have hr := trailing_of_split rest h.2
    rw [ht]
    rcases h.1 with rfl | rfl
    · exact .slash hr
    · exact .point hr
termination_by text.length

/-- The last name of a path and what stands around it. -/
theorem exists_of_lastName (text : List Char)
    (h : ((split [] text).filter (IsName ·)).getLast? = some name) :
    ∃ front rest, text = front ++ (name ++ rest) ∧ Leading front ∧ '/' ∉ name ∧ Trailing rest := by
  rcases split_cases text with ⟨hn, hs⟩ | ⟨first, rest, hn, ht, hl, hs⟩
  · rw [hs, List.filter_singleton] at h
    cases hi : decide (IsName text) with
    | false => simp [hi] at h
    | true =>
      rw [hi] at h
      cases h
      exact ⟨[], [], (List.append_nil _).symm, .nil, hn, .nil⟩
  · rw [hs, List.filter_cons] at h
    cases hf : (split [] rest).filter (IsName ·) with
    | nil =>
      -- The name is the first part, as nothing behind it is a name.
      have hr : ∀ part ∈ split [] rest, ¬ IsName part := by simpa using hf
      rw [hf] at h
      split at h
      · cases h
        exact ⟨[], '/' :: rest, ht, .nil, hn, trailing_of_split rest hr⟩
      · cases h
    | cons other others =>
      have hg : ((split [] rest).filter (IsName ·)).getLast? = some name := by
        split at h
        · rw [hf] at h ⊢
          rwa [List.getLast?_cons_cons] at h
        · exact h
      obtain ⟨front, behind, hb, hl, hm, ht'⟩ := exists_of_lastName rest hg
      refine ⟨first ++ '/' :: front, behind, ?_, ?_, hm, ht'⟩
      · rw [ht, hb, List.append_assoc, List.cons_append]
      · cases hl with
        | nil => exact .slash
        | @slash directory =>
          rw [← List.cons_append, ← List.append_assoc]
          exact .slash
termination_by text.length

theorem fileName?_eq_some_iff (hd : name ≠ ['.', '.']) : fileName? path = some name ↔
    ∃ front rest, path.toList = front ++ (name ++ rest) ∧ Leading front ∧ '/' ∉ name ∧
      IsName name ∧ Trailing rest := by
  have hf : fileName? path =
      ((split [] path.toList).filter (IsName ·)).getLast?.filter (· ≠ ['.', '.']) := rfl
  rw [hf, Option.filter_eq_some_iff, decide_eq_true_eq, and_iff_left hd]
  constructor
  · intro h
    obtain ⟨front, rest, ht, hl, hn, hr⟩ := exists_of_lastName _ h
    have hi : IsName name := of_decide_eq_true (List.mem_filter.mp (List.mem_of_getLast? h)).2
    exact ⟨front, rest, ht, hl, hn, hi, hr⟩
  · intro h
    obtain ⟨front, rest, ht, hl, hn, hi, hr⟩ := h
    obtain ⟨others, ho, hm⟩ := hr.split_append hn
    have hg : ((split [] (name ++ rest)).filter (IsName ·)) = [name] := by
      rw [ho, List.filter_cons, if_pos (decide_eq_true hi), List.filter_eq_nil_iff.mpr]
      simpa using hm
    cases hl with
    | nil =>
      rw [ht, List.nil_append, hg]
      rfl
    | slash =>
      rw [ht, List.append_assoc, List.singleton_append, split_append, List.filter_append, hg,
        List.getLast?_append]
      rfl

/-- What stands behind the last point of a name, unless the name begins with that point. -/
def behindPoint? (name : List Char) : Option (List Char) :=
  match name.reverse.dropWhile (· ≠ '.') with
  | _ :: _ :: _ => some (name.reverse.takeWhile (· ≠ '.')).reverse
  | _ => none

theorem behindPoint?_eq_some_iff : behindPoint? name = some extension ↔
    ∃ stem, name = stem ++ '.' :: extension ∧ stem ≠ [] ∧ '.' ∉ extension := by
  constructor
  · intro h
    obtain ⟨a, b, hr, ha, hb⟩ := exists_split (fun c => decide (c ≠ '.')) name.reverse
    rw [behindPoint?, hr, takeWhile_append ha hb, dropWhile_append ha hb] at h
    split at h
    · next c d stem =>
      cases h
      have hc : c = '.' := by simpa using hb c rfl
      refine ⟨(d :: stem).reverse, ?_, by simp, ?_⟩
      · rw [← name.reverse_reverse, hr, hc]
        simp
      · intro hm
        simpa using ha _ (List.mem_reverse.mp hm)
    · cases h
  · intro h
    obtain ⟨stem, rfl, hs, he⟩ := h
    have hr : (stem ++ '.' :: extension).reverse = extension.reverse ++ '.' :: stem.reverse := by
      simp
    have ha : ∀ c ∈ extension.reverse, decide (c ≠ '.') = true := by
      intro c hc
      exact decide_eq_true (ne_of_mem_of_not_mem (List.mem_reverse.mp hc) he)
    have hb : ∀ c ∈ ('.' :: stem.reverse).head?, decide (c ≠ '.') = false := by simp
    obtain ⟨c, rest, hc⟩ := List.exists_cons_of_ne_nil (List.reverse_ne_nil_iff.mpr hs)
    rw [behindPoint?, hr, takeWhile_append ha hb, dropWhile_append ha hb, hc,
      List.reverse_reverse]

/-- The extension of a path is that of its last name, whatever stands around the name. -/
theorem extension?_eq_some_iff (he : extension ≠ []) :
    extension? path = some extension ↔ Extends extension path.toList := by
  have hx : extension? path = (fileName? path).bind behindPoint? := rfl
  rw [hx, Option.bind_eq_some_iff]
  have hd {stem : List Char} (hs : stem ≠ []) : stem ++ '.' :: extension ≠ ['.', '.'] := by
    intro h
    have hl := congrArg List.length h
    have hp := List.length_pos_of_ne_nil hs
    have hq := List.length_pos_of_ne_nil he
    simp at hl
    omega
  constructor
  · intro h
    obtain ⟨name, hn, hb⟩ := h
    obtain ⟨stem, rfl, hs, hp⟩ := behindPoint?_eq_some_iff.mp hb
    obtain ⟨front, rest, ht, hl, hm, -, hr⟩ := (fileName?_eq_some_iff (hd hs)).mp hn
    rw [ht]
    rw [List.mem_append, List.mem_cons, not_or, not_or] at hm
    exact .intro hl ⟨hs, hm.1⟩ ⟨hm.2.2, hp⟩ hr
  · intro h
    generalize ht : path.toList = text at h
    cases h with
    | @intro front stem rest hf hs hp hr =>
      refine ⟨stem ++ '.' :: extension, ?_, behindPoint?_eq_some_iff.mpr ⟨stem, rfl, hs.1, hp.2⟩⟩
      rw [fileName?_eq_some_iff (hd hs.1)]
      refine ⟨front, rest, ht, hf, ?_, ?_, hr⟩
      · simp [hs.2, hp.1]
      · constructor
        · simp
        · intro h
          have hl := congrArg List.length h
          have hp := List.length_pos_of_ne_nil hs.1
          simp at hl
          omega

/-- A path whose extension is `json`, in letters of any case. -/
def NamesJson (path : String) : Prop :=
  ∃ extension, Extends extension path.toList ∧ extension.map Char.toLower = ['j', 's', 'o', 'n']

end FilePath

theorem DocumentFormat.ofPath_eq_json_iff : ofPath path = .json ↔ FilePath.NamesJson path := by
  constructor
  · intro h
    rw [ofPath] at h
    split at h
    · next extension hx =>
      split at h
      · next hj =>
        have hn : extension ≠ [] := by
          rintro rfl
          cases hj
        exact ⟨extension, (FilePath.extension?_eq_some_iff hn).mp hx, hj⟩
      · cases h
    · cases h
  · intro h
    obtain ⟨extension, hx, hj⟩ := h
    have hn : extension ≠ [] := by
      rintro rfl
      cases hj
    rw [ofPath, (FilePath.extension?_eq_some_iff hn).mpr hx]
    exact if_pos hj

end ApiPresence
