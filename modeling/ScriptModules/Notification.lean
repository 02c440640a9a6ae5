import ScriptModules.Json.Printer
import ScriptModules.Text.Utf8

/-!
# Notifications

A supervising process is told which modules are loaded, one JSON object a line. Whether it listens
changes nothing else.
-/

namespace ScriptModules

/-- A message to a supervising process. -/
inductive Notification where
  /-- A module is depended on. -/
  | dependency (path : String)
  deriving DecidableEq, Repr

namespace Notification

/-- The JSON of a message. -/
def toJson : Notification → Json.Value
  | dependency path => .object [("type", .string "dependency"), ("path", .string path)]

/-- A message as a line of text. -/
def line (n : Notification) : String := n.toJson.compact ++ "\n"

end Notification

/-- A place that bytes are written to. With a limit, it takes that many bytes and no more. -/
structure ByteSink where
  limit : Option Nat := none
  written : List UInt8 := []
  deriving DecidableEq, Repr

namespace ByteSink

/-- Write as many of the bytes as are taken. -/
def write (bytes : List UInt8) (s : ByteSink) : ByteSink :=
  let taken :=
    match s.limit with
    | none => bytes
    | some limit => bytes.take (limit - s.written.length)
  { s with written := s.written ++ taken }

/-- Write a message. What is not taken is lost. -/
def report (n : Notification) (s : ByteSink) : ByteSink := s.write (Text.utf8 n.line.toList)

/-- Write messages one after the other. -/
def reportAll (l : List Notification) (s : ByteSink) : ByteSink :=
  l.foldl (fun s n => s.report n) s

end ByteSink

end ScriptModules
