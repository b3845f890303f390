import ApiPresence.FilePath
import ApiPresence.Render.StatusLine

namespace ApiPresence

inductive LoadCause where
  | notFound
  | unreadable (reason : String)
  | malformed (format : DocumentFormat) (reason : String)
  | notTree (reason : String)
  deriving DecidableEq, Repr

structure LoadError where
  path : String
  cause : LoadCause
  deriving DecidableEq, Repr

namespace LoadError

def isNotFound (e : LoadError) : Bool := e.cause = .notFound

def isMalformed (e : LoadError) : Bool :=
  match e.cause with
  | .malformed _ _ => true
  | _ => false

def message (e : LoadError) : String :=
  match e.cause with
  | .notFound => "File not found: " ++ e.path
  | .unreadable reason => "Failed to read file '" ++ e.path ++ "': " ++ reason
  | .malformed format reason =>
    format.label ++ " parse error in '" ++ e.path ++ "': " ++ reason
  | .notTree reason =>
    "Failed to convert '" ++ e.path ++ "' into a document tree: " ++ reason

end LoadError

inductive RunError where
  | load (error : LoadError)
  | unexpected (message : String)
  | config (message : String)
  | io (message : String)
  deriving DecidableEq, Repr

namespace RunError

/-- A description that is well formed but no tree is not the fault of its notation. -/
def ofLoadError (e : LoadError) : RunError :=
  match e.cause with
  | .notTree _ => .unexpected e.message
  | _ => .load e

def message : RunError → String
  | load error => error.message
  | unexpected message => "Validation error: " ++ message
  | config message => "Configuration error: " ++ message
  | io message => "IO error: " ++ message

def exitCode : RunError → Nat
  | config _ => 2
  | load _ | unexpected _ | io _ => 1

def line (e : RunError) (coloring : Coloring) : String := statusLine .error e.message coloring

end RunError

end ApiPresence
