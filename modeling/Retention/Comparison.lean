import Retention.Cancellation
import Retention.Snapshot

namespace Retention

/-- The sizes that an object of both snapshots retains. -/
structure RetainedDelta where
  id : ObjectId
  baseline : UInt64
  current : UInt64
  deriving DecidableEq

namespace RetainedDelta

/-- What the object has gained. -/
def delta (d : RetainedDelta) : Int := (d.current.toNat : Int) - d.baseline.toNat

/-- Larger changes come first, equal ones by id. -/
def ahead (a b : RetainedDelta) : Bool :=
  decide (b.delta.natAbs < a.delta.natAbs ∨ a.delta.natAbs = b.delta.natAbs ∧ a.id ≤ b.id)

end RetainedDelta

structure Comparison where
  deltas : List RetainedDelta
  onlyInBaseline : List ObjectId
  onlyInCurrent : List ObjectId
  totalBaseline : UInt64
  totalCurrent : UInt64
  deriving DecidableEq

namespace Snapshot

/-- The size entered for an object, zero where strong references do not reach it. -/
def enteredSize? (s : Snapshot) (id : ObjectId) : Option UInt64 := (s.graph.lookup id).map s.retained.sizeOf

end Snapshot

namespace Comparison

/-- Objects of both snapshots by the size of their change, the others by id. -/
def ofSnapshots (baseline current : Snapshot) : Comparison :=
  let deltas := baseline.nodes.filterMap fun id =>
    match baseline.enteredSize? id, current.enteredSize? id with
    | some before, some after => some ⟨id, before, after⟩
    | _, _ => none
  { deltas := deltas.mergeSort RetainedDelta.ahead
    onlyInBaseline := baseline.nodes.filter fun id => (current.graph.lookup id).isNone
    onlyInCurrent := current.nodes.filter fun id => (baseline.graph.lookup id).isNone
    totalBaseline := baseline.totalRetained
    totalCurrent := current.totalRetained }

end Comparison

/-- Two loads side by side, each with what its observer was told. -/
structure LoadedPair where
  baseline : SnapshotSlot
  current : SnapshotSlot
  seenBaseline : List Notification
  seenCurrent : List Notification

namespace LoadedPair

/-- Loads two streams, each under its own plan; an overflow on either side ends both. -/
def load (planBaseline planCurrent : CancelPlan) (baseline current : List Record) :
    Except LoadError LoadedPair :=
  let (a, seenA) := planBaseline.run (Snapshot.load baseline)
  let (b, seenB) := planCurrent.run (Snapshot.load current)
  let pair : LoadedPair := ⟨⟨a⟩, ⟨b⟩, seenA, seenB⟩
  if pair.baseline.loadError? = some .overflow ∨ pair.current.loadError? = some .overflow then
    .error .overflow
  else .ok pair

/-- The comparison of the two, when both are complete. -/
def comparison? (pair : LoadedPair) : Option Comparison :=
  match pair.baseline.result, pair.current.result with
  | .ok a, .ok b => some (Comparison.ofSnapshots a b)
  | _, _ => none

end LoadedPair

end Retention
