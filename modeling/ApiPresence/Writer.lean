import ApiPresence.Description
import ApiPresence.Render.Format

namespace ApiPresence

/-- A text with a newline at its end. -/
def endLine (text : String) : String :=
  if text.toList.getLast? = some '\n' then text else text ++ "\n"

def reportLines (format : OutputFormat) (coloring : Coloring) (document : String)
    (report : Report) : String :=
  endLine (format.formatReport document report coloring)

/-- What takes in output: the octets that have come, and how many more there is room for. -/
structure Sink where
  written : List UInt8
  /-- None where there is no end of room. -/
  room : Option Nat
  flushes : Nat
  deriving DecidableEq, Repr

namespace Sink

def empty (room : Option Nat) : Sink := ⟨[], room, 0⟩

/-- Takes in octets as far as there is room, and says whether it has taken all of them. -/
def accept (s : Sink) (octets : List UInt8) : Bool × Sink :=
  match s.room with
  | none => (true, { s with written := s.written ++ octets })
  | some room =>
    (octets.length ≤ room,
      { s with written := s.written ++ octets.take room, room := some (room - octets.length) })

def flush (s : Sink) : Sink := { s with flushes := s.flushes + 1 }

end Sink

structure Writer where
  format : OutputFormat
  coloring : Coloring
  sink : Sink
  deriving DecidableEq, Repr

namespace Writer

/-- Writes a text as it is; only what has been written completely is flushed. -/
def write (w : Writer) (text : String) : Except RunError Unit × Writer :=
  let (complete, sink) := w.sink.accept text.toUTF8.toList
  if complete then (.ok (), { w with sink := sink.flush })
  else (.error (.io IoError.writeZero.message), { w with sink })

def reportText (w : Writer) (document : String) (report : Report) : String :=
  reportLines w.format w.coloring document report

def report (w : Writer) (document : String) (report : Report) : Except RunError Unit × Writer :=
  w.write (w.reportText document report)

/-- Loads a description, checks it and writes the report; nothing is written unless it loads. -/
def checkDocument (w : Writer) (fs : FileSystem) (document : String) :
    Except RunError Unit × Writer :=
  match reportOn fs document with
  | .error e => (.error e, w)
  | .ok report => w.report document report

end Writer

end ApiPresence
