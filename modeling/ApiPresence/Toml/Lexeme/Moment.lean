import ApiPresence.Toml.Problem

namespace ApiPresence.Toml

open Text (isDigit digitValue)

def readPair (low high : Nat) : Reader Nat
  | a :: b :: rest =>
    if isDigit a ∧ isDigit b then
      let n := digitValue a * 10 + digitValue b
      if low ≤ n ∧ n ≤ high then .ok (n, rest)
      else .error (.before (a :: b :: rest) (.ofCause .outOfRange))
    else .error (.before (a :: b :: rest) .unknown)
  | rest => .error (.before rest .unknown)

def readChar (c : Char) : Reader Unit
  | d :: rest => if d = c then .ok ((), rest) else .error (.before (d :: rest) .unknown)
  | [] => .error (.before [] .unknown)

def readHour : Reader Nat := readPair 0 23

def readMinute : Reader Nat := readPair 0 59

def skipFraction : List Char → List Char
  | '.' :: c :: rest => if isDigit c then rest.dropWhile isDigit else '.' :: c :: rest
  | text => text

/-- Past a time of day, if an hour and a colon start here. -/
def readTime (text : List Char) : Except Fault (Option (List Char)) :=
  match readHour text with
  | .ok (_, ':' :: rest) => do
    let (_, rest) ← readMinute rest
    let ((), rest) ← readChar ':' rest
    let (_, rest) ← readPair 0 60 rest
    .ok (some (skipFraction rest))
  | _ => .ok none

def skipOffset : List Char → Except Fault (List Char)
  | [] => .ok []
  | c :: rest =>
    if c = 'Z' ∨ c = 'z' then .ok rest
    else if c = '+' ∨ c = '-' then
      (do
        let (_, rest) ← readHour rest
        let ((), rest) ← readChar ':' rest
        let (_, rest) ← readMinute rest
        .ok rest : Except Fault (List Char)).mapError (.within "time offset")
    else .ok (c :: rest)

def isLeapYear (year : Nat) : Bool := year % 4 = 0 && (year % 100 ≠ 0 || year % 400 = 0)

def daysOfMonth (year month : Nat) : Nat :=
  if month = 2 then if isLeapYear year then 29 else 28
  else if month ∈ [4, 6, 9, 11] then 30
  else 31

def readMonthAndDay (year : Nat) (text : List Char) : Except Fault (List Char) := do
  let (month, rest) ← readPair 1 12 text
  let ((), rest) ← readChar '-' rest
  let (day, after) ← readPair 1 31 rest
  if daysOfMonth year month < day then .error (.before rest (.ofCause .outOfRange))
  else .ok after

def skipTime : List Char → Except Fault (List Char)
  | [] => .ok []
  | c :: rest =>
    if c = 'T' ∨ c = 't' ∨ c = ' ' then do
      match ← readTime rest with
      | some rest => skipOffset rest
      | none => .ok (c :: rest)
    else .ok (c :: rest)

/-- Past a date, with or without a time, or a time of day, if one starts here. -/
def readMoment (text : List Char) : Except Fault (Option (List Char)) :=
  match text with
  | a :: b :: c :: d :: '-' :: rest =>
    if [a, b, c, d].all isDigit then
      let year := [a, b, c, d].foldl (fun n c => n * 10 + digitValue c) 0
      (do
        let rest ← readMonthAndDay year rest
        let rest ← skipTime rest
        .ok (some rest) : Except Fault (Option (List Char))).mapError (.within "date-time")
    else time
  | _ => time
where
  time : Except Fault (Option (List Char)) := (readTime text).mapError (.within "time")

end ApiPresence.Toml
