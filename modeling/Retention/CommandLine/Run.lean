import Retention.CommandLine.Arguments
import Retention.Report
import Retention.Snapshot.Check
import Retention.Table
import Retention.Wire.Records

namespace Retention.CommandLine

/-- What a run may ask of the file system; a failure comes with its message. -/
structure Storage where
  read : String → Except String Wire.Bytes
  /-- Makes sure that a file of this name can be written. -/
  create : String → Except String Unit

/-- What a run writes to a file. -/
inductive Artifact where
  | text (content : String)
  | table (content : Table)
  deriving DecidableEq

/-- How a run fails. -/
inductive Failure where
  | arguments (e : ArgumentError)
  | message (text : String)
  | undecodable
  | overflow
  deriving DecidableEq

/-- What a run shows and writes. -/
structure Output where
  shown : String
  written : Option (String × Artifact)
  deriving DecidableEq

/-- A run that only shows something. -/
def Output.ofText (text : String) : Output := ⟨text, none⟩

/-- A finished run as its caller sees it. -/
structure Exit where
  code : Nat
  shown : String
  complaint : Option String
  written : Option (String × Artifact)
  deriving DecidableEq

def ofMessage {ε α : Type} (message : ε → String) : Except ε α → Except Failure α
  | .ok a => .ok a
  | .error e => .error (.message (message e))

def ofLoad {α : Type} : Except LoadError α → Except Failure α
  | .ok a => .ok a
  | .error .overflow => .error .overflow
  | .error e => .error (.message e.message)

def ofCheck {α : Type} : Except CheckFault α → Except Failure α
  | .ok a => .ok a
  | .error .overflow => .error .overflow
  | .error e => .error (.message e.message)

/-- The records of the stream in a file. -/
def readRecords (storage : Storage) (path : String) : Except Failure (List Record) := do
  let bytes ← ofMessage id (storage.read path)
  match Wire.RecordStream.read bytes with
  | none => throw .undecodable
  | some stream => ofMessage MalformedRecord.message stream.toRecords

/-- Loads a file and checks the snapshot against a trace. -/
def loadFile (storage : Storage) (path : String) : Except Failure Snapshot := do
  let records ← readRecords storage path
  let s ← ofLoad (Snapshot.load records).outcome.1
  let _ ← ofCheck s.sanityTrace
  pure s

def runCompare (storage : Storage) (args : Arguments) : Except Failure Output :=
  match args.paths with
  | [first, second] => do
    let baseline ← readRecords storage first
    let current ← readRecords storage second
    let pair ← ofLoad (LoadedPair.load .never .never baseline current)
    let a ← ofLoad pair.baseline.result
    let b ← ofLoad pair.current.result
    pure (.ofText (Report.comparison (.ofSnapshots a b) args.top))
  | _ => throw (.message "compare needs a baseline and a current record stream")

def write (storage : Storage) (path : String) (artifact : Artifact) : Except Failure Output := do
  ofMessage id (storage.create path)
  pure ⟨"", some (path, artifact)⟩

/-- Runs a command on loaded streams; all but the summaries and depths concern the first one. -/
def runLoaded (storage : Storage) (args : Arguments) (first : Snapshot) (others : List Snapshot) :
    Except Failure Output :=
  let answer := fun (text : Except QueryError String) => (ofMessage QueryError.message text).map .ofText
  match args.command with
  | none | some .summary =>
    pure (.ofText (String.join ((args.paths.zip (first :: others)).map fun (path, s) => Report.summary path s args.top)))
  | some (.dominator id) => answer (Report.dominator first id)
  | some (.path id) => answer (Report.path first id)
  | some (.children id) => answer (Report.children first id args.top)
  | some (.retained id) => answer (Report.retained first id)
  | some (.exportTo output .csv) => write storage output (.text first.csv)
  | some (.exportTo output .parquet) => write storage output (.table first.retentionTable)
  | some (.depth output) => write storage output (.table (Table.depths first others))
  | some .compare => runCompare storage args

def run (storage : Storage) (args : List String) : Except Failure Output :=
  match parse args with
  | .error e => .error (.arguments e)
  | .ok args =>
    match args.command with
    | some .compare => runCompare storage args
    | _ => do
      let all ← args.paths.mapM (loadFile storage)
      match all with
      | [] => throw (.arguments .missingRequiredArgument)
      | first :: others => runLoaded storage args first others

/-- The exit codes: one for a failed run, two for a bad command line, 101 for an overflow. -/
def finish : Except Failure Output → Exit
  | .ok output => ⟨0, output.shown, none, output.written⟩
  | .error (.arguments .displayHelp) => ⟨0, "", none, none⟩
  | .error (.arguments .displayVersion) => ⟨0, "", none, none⟩
  | .error (.arguments _) => ⟨2, "", none, none⟩
  | .error (.message text) => ⟨1, "", some ("Error: " ++ text ++ "\n"), none⟩
  | .error .undecodable => ⟨1, "", some "Error: failed to decode Protobuf message", none⟩
  | .error .overflow => ⟨101, "", none, none⟩

def execute (storage : Storage) (args : List String) : Exit := finish (run storage args)

end Retention.CommandLine
