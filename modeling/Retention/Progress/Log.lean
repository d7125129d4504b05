import Retention.Error
import Retention.Progress

namespace Retention

/-- A log of the phases of one load. -/
structure ProgressLog where
  label : String
  description : String
  duration : Nat
  current : Nat
  nextReport : Nat
  deriving DecidableEq

namespace ProgressLog

/-- What one call leaves behind: the log, the lines written, and whether a counter overflowed. -/
structure Written where
  log : ProgressLog
  lines : List String
  overflowed : Bool
  deriving DecidableEq

def new (label : String) : ProgressLog := ⟨label, "", 0, 0, 0⟩

/-- Counters have 64 bits. -/
def limit : Nat := UInt64.size

/-- A tenth of the phase, at least one unit. -/
def step (log : ProgressLog) : Nat := max (log.duration / 10) 1

def start (log : ProgressLog) (description : String) (units : Nat) : Written :=
  let begun : ProgressLog := ⟨log.label, description, units, 0, 0⟩
  ⟨{ begun with nextReport := begun.step },
    ["INFO [" ++ log.label ++ "] " ++ description ++ s!" ({units} units)"], false⟩

/-- Writes a line once the next report is due; the line is out before the following one is planned. -/
def report (log : ProgressLog) : Written :=
  if log.current < log.nextReport then ⟨log, [], false⟩
  else
    let line := "DEBUG [" ++ log.label ++ "] " ++ log.description ++ s!": {log.current}/{log.duration}"
    if log.current + log.step < limit then
      ⟨{ log with nextReport := log.current + log.step }, [line], false⟩
    else ⟨log, [line], true⟩

def advance (log : ProgressLog) (units : Nat) : Written :=
  if log.current + units < limit then report { log with current := log.current + units }
  else ⟨log, [], true⟩

def update (log : ProgressLog) (current : Nat) : Written := report { log with current := current }

/-- The elapsed time is left open in the line. -/
def done (log : ProgressLog) : Written :=
  ⟨log, ["INFO [" ++ log.label ++ "] " ++ log.description ++ " finished in <time> ms"], false⟩

def notify (log : ProgressLog) : Notification → Written
  | .start description units => log.start description units
  | .advance units => log.advance units
  | .done => log.done

/-- The lines of a whole run of notifications. -/
def lines (log : ProgressLog) (notifications : List Notification) : List String :=
  (notifications.foldl
    (fun (acc : ProgressLog × Array String) n =>
      let written := acc.1.notify n
      (written.log, acc.2 ++ written.lines)) (log, #[])).2.toList

end ProgressLog

end Retention
