import ApiPresence.Number

namespace ApiPresence.Text

/--
Marks the first unmarked `c` among the characters at the places `low` to `high`, counted from
`place`.
-/
def markPartner (c : Char) (low high : Nat) : (place : Nat) → List (Char × Bool) →
    Option (List (Char × Bool))
  | _, [] => none
  | place, (d, marked) :: rest =>
    if high < place then none
    else if low ≤ place ∧ d = c ∧ ¬ marked then some ((d, true) :: rest)
    else (markPartner c low high (place + 1) rest).map ((d, marked) :: ·)

/-- The characters of a word that find partners in another one, at most `range` places away. -/
def findPartners (range : Nat) : (place : Nat) → List Char → List (Char × Bool) →
    List Char × List (Char × Bool)
  | _, [], other => ([], other)
  | place, c :: rest, other =>
    match markPartner c (place - range) (place + range) 0 other with
    | some other =>
      let (found, other) := findPartners range (place + 1) rest other
      (c :: found, other)
    | none => findPartners range (place + 1) rest other

/-- A quotient as a float, in the smallest units of one. -/
def floatUnits (num den : Nat) : Nat := Binary64.units (Binary64.nearestRank num den)

/--
How alike two words are: the mean of the shares of their characters that have partners and of the
share of partners that stand in order, each step rounded to a float. One is `Binary64.unitsPerOne`.
-/
def similarity (a b : List Char) : Nat :=
  let range := max a.length b.length / 2 - 1
  let (found, other) := findPartners range 0 a (b.map (·, false))
  let partners := (other.filter Prod.snd).map Prod.fst
  let shared := found.length
  let outOfOrder := ((found.zip partners).filter fun pair => pair.1 ≠ pair.2).length / 2
  if shared = 0 then 0
  else
    let one := Binary64.unitsPerOne
    let shares := floatUnits (floatUnits shared a.length + floatUnits shared b.length) one
    floatUnits (floatUnits (shares + floatUnits (shared - outOfOrder) shared) one) (3 * one)

/-- The name that is most like a word and like it for more than seven tenths; of equals the last. -/
def closest? (word : String) (names : List String) : Option String :=
  let scored := names.map fun name => (similarity word.toList name.toList, name)
  let near := scored.filter fun entry => floatUnits 7 10 < entry.1
  (near.foldl (fun best entry =>
    match best with
    | some (score, _) => if entry.1 < score then best else some entry
    | none => some entry) none).map Prod.snd

end ApiPresence.Text
