namespace ApiPresence

inductive IoError where
  | notFound
  | notDirectory
  | isDirectory
  | nameTooLong
  | zeroInName
  | notText
  | writeZero
  /-- Anything else, by the system's number for it and its words. -/
  | other (code : Nat) (words : String)
  deriving DecidableEq, Repr

def IoError.message : IoError → String
  | notFound => "No such file or directory (os error 2)"
  | notDirectory => "Not a directory (os error 20)"
  | isDirectory => "Is a directory (os error 21)"
  | nameTooLong => "File name too long (os error 36)"
  | zeroInName => "file name contained an unexpected NUL byte"
  | notText => "stream did not contain valid UTF-8"
  | writeZero => "failed to write whole buffer"
  | other code words => words ++ " (os error " ++ Nat.repr code ++ ")"

/--
What the system answers about paths. The answers are apart: what is found need not be readable, and
what is there need not be found.
-/
structure FileSystem where
  /-- Whether something is found at a path. -/
  contains : String → Bool
  /-- The octets that are read at a path, or why there are none. -/
  read : String → Except IoError ByteArray

def FileSystem.readText (fs : FileSystem) (path : String) : Except IoError String :=
  match fs.read path with
  | .error fault => .error fault
  | .ok content =>
    match String.fromUTF8? content with
    | some text => .ok text
    | none => .error .notText

end ApiPresence
