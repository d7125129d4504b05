import Retention.Record.Layout

namespace Retention

/-- Why a load gave no snapshot. -/
inductive LoadError where
  | malformed (record : MalformedRecord)
  | cancelled
  /-- The estimates were still changing after the last allowed pass. -/
  | unsettled (passes : Nat) (objects : List ObjectId)
  /-- A sum of sizes does not fit into 64 bits. -/
  | overflow
  deriving DecidableEq

namespace LoadError

def message : LoadError → String
  | malformed record => record.message
  | cancelled => "snapshot load cancelled"
  | unsettled passes objects =>
    s!"internal invariant violation: dominators did not converge after {passes} passes; unsettled: ["
      ++ ", ".intercalate (objects.map ObjectId.debugText) ++ "]"
  | overflow => "attempt to add with overflow"

end LoadError

/-- Why a snapshot does not answer. -/
inductive QueryError where
  | unknownId (id : ObjectId)
  | notReachable (id : ObjectId)
  | buildIncomplete
  deriving DecidableEq

namespace QueryError

def message : QueryError → String
  | unknownId id => "no object with id " ++ id.text
  | notReachable id => "object " ++ id.text ++ " is not reachable from any GC root"
  | buildIncomplete => "snapshot was never completely built"

end QueryError

end Retention
