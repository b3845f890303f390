import ApiPresence.Run

namespace ApiPresence

def IoError.ofCode (code : Nat) (words : String) : IoError :=
  match code with
  | 2 => .notFound
  | 20 => .notDirectory
  | 21 => .isDirectory
  | 36 => .nameTooLong
  | code => .other code words

/-- A fault of the system, by its number and its words. -/
def IoError.ofSystem? : IO.Error → Option IoError
  | .noFileOrDirectory _ code words | .interrupted _ code words | .alreadyExists _ code words
  | .invalidArgument _ code words | .permissionDenied _ code words
  | .resourceExhausted _ code words | .inappropriateType _ code words
  | .noSuchThing _ code words | .otherError code words | .resourceBusy code words
  | .resourceVanished code words | .unsupportedOperation code words | .hardwareFault code words
  | .unsatisfiedConstraints code words | .illegalOperation code words | .protocolError code words
  | .timeExpired code words => some (ofCode code.toNat words)
  | .unexpectedEof | .userError _ => none

namespace FileSystem

/-- Asks whether something is found at a path. -/
def probe (path : String) : IO Bool := do
  try
    let _ ← IO.FS.realPath path
    return true
  catch _ => return false

/-- Reads what is at a path, whether or not it is found there. -/
def readOctets (path : String) : IO (Except IoError ByteArray) := do
  try
    let handle ← IO.FS.Handle.mk path .read
    return .ok (← handle.readBinToEnd)
  catch error =>
    match IoError.ofSystem? error with
    | some fault => return .error fault
    | none => throw error

structure Answers where
  path : String
  found : Bool
  content : Except IoError ByteArray

/-- What the system answers for a path; a path with a zero in it is none that it is asked for. -/
def ask (path : String) : IO Answers := do
  if '\x00' ∈ path.toList then return ⟨path, false, .error .zeroInName⟩
  let content ← readOctets path
  match content with
  -- The search for a path goes part by part and does not mind its length.
  | .error .nameTooLong => return ⟨path, false, content⟩
  | _ => return ⟨path, ← probe path, content⟩

def known (answers : List Answers) : FileSystem where
  contains path := answers.any fun a => a.path = path ∧ a.found
  read path := ((answers.find? (·.path = path)).map (·.content)).getD (.error .notFound)

/--
The file system as far as a command line needs it: the settings, and the description that they lead
to.
-/
def forWords (words : List String) : IO FileSystem := do
  match CommandLine.parse words with
  | .error _ => return known []
  | .ok invocation =>
    let settings ← match invocation.config with
      | some path => pure [← ask path]
      | none => pure []
    match Config.load (known settings) invocation.config with
    | .error _ => return known settings
    | .ok config =>
      let document := invocation.documentPath config
      return known (settings ++ [← ask document])

end FileSystem

def carryOut (words : List String) : IO UInt32 := do
  let stdout ← IO.getStdout
  let around : Surroundings := {
    files := ← FileSystem.forWords words
    log := ⟨← IO.getEnv "RUST_LOG", ← IO.getEnv "APICHECK_LOG_FORMAT"⟩
    terminal := ← stdout.isTty }
  let outcome := run around words
  (← IO.getStderr).putStr outcome.notices
  stdout.putStr outcome.output
  stdout.flush
  return outcome.exitCode.toUInt32

end ApiPresence

def main (words : List String) : IO UInt32 := ApiPresence.carryOut words
