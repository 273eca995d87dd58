/-!
# Severities

Messages come in six severities. A limit names the least severe one that is still shown.

* `Severity`, `Severity.shownUnder`;
* `LogLine`: a severity and a text.
-/

namespace VirtualMemory

/-- **How serious a message is**, the most serious first. -/
inductive Severity where
  | fatal
  | error
  | warn
  | info
  | debug
  | trace
deriving DecidableEq, Repr

namespace Severity

def rank : Severity → Nat
  | fatal => 0
  | error => 1
  | warn => 2
  | info => 3
  | debug => 4
  | trace => 5

/-- Messages of this severity are shown under the limit. -/
def shownUnder (s limit : Severity) : Bool := s.rank ≤ limit.rank

def name : Severity → String
  | fatal => "FATAL"
  | error => "ERROR"
  | warn => "WARN"
  | info => "INFO"
  | debug => "DEBUG"
  | trace => "TRACE"

def column (s : Severity) : String := s.name.pushn ' ' (5 - s.name.length)

end Severity

structure LogLine where
  severity : Severity
  text : String
deriving DecidableEq

def LogLine.render (l : LogLine) : String := l.severity.name ++ " " ++ l.text

/-- The line, if it is shown under a limit. -/
def LogLine.filtered (l : LogLine) (limit : Severity) : Option LogLine :=
  if l.severity.shownUnder limit then some l else none

end VirtualMemory
