import ApiPresence.FileSystem.Directory
import ApiPresence.Proofs.FilePath
import Mathlib.Data.String.Basic

namespace ApiPresence

namespace Directory

variable {d : Directory}

/-- A path that stays where it is for so many steps and then goes to a name. -/
def winding : Nat → List Char → List Char
  | 0, name => name
  | n + 1, name => '.' :: '/' :: winding n name

theorem parts_winding (hn : '/' ∉ name) (n : Nat) :
    FilePath.parts (String.ofList (winding n name)) = List.replicate n ['.'] ++ [name] := by
  rw [FilePath.parts, String.toList_ofList]
  induction n with
  | zero => exact FilePath.split_of_not_mem hn []
  | succ n ih => exact congrArg (['.'] :: ·) ih

theorem le_utf8ByteSize_winding (n : Nat) (name : List Char) :
    2 * n ≤ (String.ofList (winding n name)).utf8ByteSize := by
  rw [String.utf8ByteSize_ofList]
  induction n with
  | zero => exact Nat.zero_le _
  | succ n ih =>
    have hp : '.'.utf8Size = 1 ∧ '/'.utf8Size = 1 := by decide
    rw [winding, String.utf8Len_cons, String.utf8Len_cons, hp.1, hp.2]
    omega

theorem follow_points (hd : d.node? names = some .directory) (n : Nat)
    (parts : List (List Char)) :
    d.follow (.inside names) (List.replicate n ['.'] ++ parts) = d.follow (.inside names) parts := by
  induction n with
  | zero => rfl
  | succ n ih =>
    have hs : ¬ 255 < (String.ofList ['.']).utf8ByteSize := by decide
    have he : (Place.inside names).enter ['.'] = some (.inside names) := rfl
    rw [List.replicate_succ, List.cons_append, follow, Place.node?, hd]
    simp only [if_neg hs, he, ih]

theorem not_contains_of_le (h : 4096 ≤ path.utf8ByteSize) : ¬ d.asFileSystem.contains path := by
  simp only [asFileSystem, find, if_pos h]
  split_ifs <;> decide

end Directory
end ApiPresence
