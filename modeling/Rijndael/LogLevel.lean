/-!
# Levels of log entries

Every log entry has a level, from errors, which matter most, down to traces.
-/

namespace Rijndael

/-- How much a log entry matters. -/
inductive LogLevel where
  | error
  | warn
  | info
  | debug
  | trace
  deriving DecidableEq, Repr

namespace LogLevel

/-- The five levels, the most important first. -/
def all : List LogLevel := [error, warn, info, debug, trace]

/-- The name of a level, as it stands before a message. -/
def name : LogLevel → String
  | error => "ERROR"
  | warn => "WARN"
  | info => "INFO"
  | debug => "DEBUG"
  | trace => "TRACE"

/-- The rank of a level: the more important, the lower. -/
def rank : LogLevel → Nat
  | error => 1
  | warn => 2
  | info => 3
  | debug => 4
  | trace => 5

end LogLevel

end Rijndael
