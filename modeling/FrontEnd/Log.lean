/-!
# Build diagnostics

The notes, warnings and errors that a build leaves behind.  What is built keeps its log.

## Main Definitions

* `Log.Level`, `Log.Message` — one message
* `Log` — the messages in the order in which they were given
* `Log.display` — the messages as a list, one on each line
-/

namespace FrontEnd

/-- How serious a message is. -/
inductive Log.Level where
  | note
  | warning
  | error
deriving DecidableEq

/-- One message of a log. -/
structure Log.Message where
  level : Log.Level
  text : String
deriving DecidableEq

/-- A message with the name of its level, which is padded to one width. -/
def Log.Message.display (m : Log.Message) : String :=
  match m.level with
  | .note => "Note   : " ++ m.text
  | .warning => "Warning: " ++ m.text
  | .error => "ERROR  : " ++ m.text

/-- The messages of a build in the order in which they were given. -/
structure Log where
  messages : List Log.Message
deriving DecidableEq

namespace Log

/-- The log without messages. -/
def empty : Log := ⟨[]⟩

/-- The log with one more message at its end. -/
def add (log : Log) (level : Level) (text : String) : Log := ⟨log.messages ++ [⟨level, text⟩]⟩

/-- The log with a note at its end. -/
def note (log : Log) (text : String) : Log := log.add .note text

/-- The log with a warning at its end. -/
def warning (log : Log) (text : String) : Log := log.add .warning text

/-- The log with an error at its end. -/
def error (log : Log) (text : String) : Log := log.add .error text

/-- The messages of one log followed by those of another. -/
def append (log other : Log) : Log := ⟨log.messages ++ other.messages⟩

/-- The texts of the messages of one level. -/
def texts (log : Log) (level : Level) : List String :=
  (log.messages.filter fun m => m.level = level).map Message.text

/-- Number of messages of one level. -/
def count (log : Log) (level : Level) : Nat := (log.texts level).length

/-- Whether there are no messages. -/
def isEmpty (log : Log) : Bool := log.messages.isEmpty

/-- Whether there are no messages of a level. -/
def hasNo (log : Log) (level : Level) : Bool := log.count level == 0

/-- The messages as a list, one on each line. -/
def display (log : Log) : String :=
  String.intercalate "\n" (log.messages.map fun m => "- " ++ m.display)

end Log

end FrontEnd
