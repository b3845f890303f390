import ApiPresence.Yaml.Cursor

namespace ApiPresence.Yaml

/--
What stands between two stretches of a scalar: blanks, or line breaks of which the first is told
apart.
-/
structure Gap where
  blanks : List Char
  broken : Bool
  first : List Char
  later : List Char

namespace Gap

def empty : Gap := ⟨[], false, [], []⟩

/-- A line break that is hidden by a backslash. -/
def escaped : Gap := ⟨[], true, [], []⟩

def addBlank (g : Gap) (c : Char) : Gap :=
  if g.broken then g else { g with blanks := g.blanks ++ [c] }

def addBreak (g : Gap) (lineBreak : List Char) : Gap :=
  if g.broken then { g with later := g.later ++ lineBreak }
  else { g with broken := true, first := lineBreak }

/--
What a gap reads as: blanks stay, one newline is a space, and of several the first is left out.
-/
def folded (g : Gap) : List Char :=
  if !g.broken then g.blanks
  else if g.first = ['\n'] then (if g.later = [] then [' '] else g.later)
  else g.first ++ g.later

/--
The blanks and breaks at a cursor. In a plain scalar a tab may not stand in the indentation of a
later line, which has the given width.
-/
def read (indentation : Option (Nat × Mark)) : (fuel : Nat) → Gap → Cursor →
    Except SyntaxError (Gap × Cursor)
  | 0, g, c => .ok (g, c)
  | fuel + 1, g, c =>
    match c.rest with
    | [] => .ok (g, c)
    | x :: _ =>
      if isBlank x then
        match indentation with
        | some (width, start) =>
          if g.broken ∧ c.mark.column < width ∧ x = '\t' then
            c.fail .tabViolatesIndentation .plainScalar start
          else read indentation fuel (g.addBlank x) (c.skip 1)
        | none => read indentation fuel (g.addBlank x) (c.skip 1)
      else if isBreak x then
        let (lineBreak, c) := c.lineBreak
        read indentation fuel (g.addBreak lineBreak) c
      else .ok (g, c)

end Gap
end ApiPresence.Yaml
