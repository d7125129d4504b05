import Retention.HeapGraph.Builder
import Retention.RetainedSizes
import Retention.Trail

namespace Retention

/-- How roots lead to an object. -/
inductive Reachability where
  | strong
  | weak
  | unreachable
  deriving DecidableEq

namespace Reachability

def text : Reachability → String
  | strong => "Strong"
  | weak => "Weak"
  | unreachable => "Unreachable"

end Reachability

/-- What immediately dominates an object, by id. -/
inductive Idom where
  | superRoot
  | object (id : ObjectId)
  deriving DecidableEq

/-- A step of a path from a root: the object, the label by which the step before holds it, and
whether it dominates the end of the path. -/
structure PathStep where
  id : ObjectId
  label : Option RefLabel
  isDominator : Bool
  deriving DecidableEq

/-- All that a snapshot knows about one object. -/
structure ObjectView where
  node : Node
  retainedSize : UInt64
  idom : Option Idom
  reachability : Reachability
  deriving DecidableEq

namespace ObjectView

def isReachable (v : ObjectView) : Bool := v.idom.isSome

def debugText (v : ObjectView) : String :=
  "NodeRef \x7b id: " ++ v.node.id.debugText ++ ", kind: " ++ v.node.shape.debugText
    ++ s!", shallow_size: {v.node.shallowSize.toNat}, retained_size: {v.retainedSize.toNat} \x7d"

end ObjectView

structure Snapshot where
  graph : HeapGraph
  tree : DominatorTree
  retained : RetainedSizes
  trails : Array (Option Trail)

namespace Snapshot

/-- Analyses a graph that is already built. -/
def ofGraph (graph : HeapGraph) : Load Snapshot := do
  let tree ← graph.dominators none
  let retained ← RetainedSizes.compute graph tree
  pure ⟨graph, tree, retained, graph.trails⟩

/-- Loads a stream of records whose length is announced as `expected`. -/
def loadExpecting (expected : Nat) (records : List Record) : Load Snapshot := do
  let graph ← HeapGraph.build expected records
  ofGraph graph

/-- Loads a list of records. -/
def load (records : List Record) : Load Snapshot := loadExpecting records.length records

def idsOf (s : Snapshot) (places : List Nat) : List ObjectId := places.map s.graph.idOf

def placeOf (s : Snapshot) (id : ObjectId) : Except QueryError Nat :=
  match s.graph.lookup id with
  | some i => .ok i
  | none => .error (.unknownId id)

/-- The place of an object that strong references reach. -/
def reachablePlaceOf (s : Snapshot) (id : ObjectId) : Except QueryError Nat := do
  let i ← s.placeOf id
  if s.tree.isReachable i then pure i else throw (.notReachable id)

def trailOf (s : Snapshot) (i : Nat) : Option Trail := (s.trails[i]?).join

def reachabilityAt (s : Snapshot) (i : Nat) : Reachability :=
  if s.tree.isReachable i then .strong
  else if (s.trailOf i).isSome then .weak
  else .unreachable

def idomAt (s : Snapshot) (i : Nat) : Option Idom :=
  (s.tree.idomOf i).map fun
    | .superRoot => .superRoot
    | .node d => .object (s.graph.idOf d)

def lookup (s : Snapshot) (id : ObjectId) : Except QueryError ObjectView := do
  let i ← s.placeOf id
  match s.graph.node? i with
  | some node => pure ⟨node, s.retained.sizeOf i, s.idomAt i, s.reachabilityAt i⟩
  | none => throw (.unknownId id)

def retainedSize (s : Snapshot) (id : ObjectId) : Except QueryError UInt64 := do
  let i ← s.reachablePlaceOf id
  pure (s.retained.sizeOf i)

/-- The immediate dominator; none when the roots retain the object together. -/
def dominator (s : Snapshot) (id : ObjectId) : Except QueryError (Option ObjectId) := do
  let i ← s.reachablePlaceOf id
  match s.tree.idomOf i with
  | some (.node d) => pure (some (s.graph.idOf d))
  | _ => pure none

/-- The objects that this one immediately dominates, by id. -/
def children (s : Snapshot) (id : ObjectId) : Except QueryError (List ObjectId) := do
  let i ← s.placeOf id
  pure (s.idsOf (s.tree.childrenOf i))

/-- The objects that no single object dominates, by id. -/
def rooted (s : Snapshot) : List ObjectId := s.idsOf s.tree.rooted

/-- All dominators of an object but itself, nearest first. -/
def dominatorsOf (s : Snapshot) (id : ObjectId) : Except QueryError (List ObjectId) := do
  let i ← s.reachablePlaceOf id
  pure (s.idsOf (s.tree.chainOf i))

def reachability (s : Snapshot) (id : ObjectId) : Except QueryError Reachability := do
  let i ← s.placeOf id
  pure (s.reachabilityAt i)

/-- The label of the reference by which a trail comes to a stop from the one before. -/
def labelOf (s : Snapshot) (via : Option Nat) (before : Trail) : Option RefLabel :=
  match via, before with
  | some position, stop :: _ => ((s.graph.referencesOf stop.place)[position]?).map Reference.label
  | _, _ => none

/-- The steps of a trail from its end, while `awaited` is the next dominator to be met. -/
def steps (s : Snapshot) : Option Nat → Trail → List PathStep
  | _, [] => []
  | awaited, stop :: before =>
    let met := awaited == some stop.place
    let next :=
      if met then
        match s.tree.idomOf stop.place with
        | some (.node d) => some d
        | _ => none
      else awaited
    ⟨s.graph.idOf stop.place, s.labelOf stop.via before, met⟩ :: s.steps next before

/-- The canonical shortest path from a root; weak references come in only where strong ones do not
lead to the object. -/
def path (s : Snapshot) (id : ObjectId) : Except QueryError (List PathStep) := do
  let i ← s.placeOf id
  match s.trailOf i with
  | some trail => pure (s.steps (some i) trail).reverse
  | none => throw (.notReachable id)

/-- The objects that refer to this one, by id. -/
def referrers (s : Snapshot) (id : ObjectId) : Except QueryError (List ObjectId) := do
  let i ← s.placeOf id
  pure (s.idsOf (s.graph.referrersOf i))

/-- A class object's own name, or the name of the class that an object belongs to. -/
def className (s : Snapshot) (id : ObjectId) : Except QueryError (Option String) := do
  let i ← s.placeOf id
  match s.graph.node? i with
  | none => pure none
  | some node =>
    match node.shape.className? with
    | some name => pure (some name)
    | none => pure ((node.classId.bind s.graph.get?).bind fun n => n.shape.className?)

/-- The objects whose class this is, by id. -/
def instancesOf (s : Snapshot) (classId : ObjectId) : Except QueryError (List ObjectId) := do
  let _ ← s.placeOf classId
  let places := (List.range s.graph.size).filter fun i =>
    (s.graph.node? i).any fun n => n.classId == some classId
  pure (s.idsOf (s.graph.sortById places))

def reachablePlaces (s : Snapshot) : List Nat := (List.range s.graph.size).filter s.tree.isReachable

/-- The `n` objects that retain most, the largest first, then by id. -/
def topRetainers (s : Snapshot) (n : Nat) : List (ObjectId × UInt64) :=
  let sized := s.reachablePlaces.map fun i => (s.graph.idOf i, s.retained.sizeOf i)
  let ahead := fun (a b : ObjectId × UInt64) => decide (b.2 < a.2 ∨ a.2 = b.2 ∧ a.1 ≤ b.1)
  (sized.mergeSort ahead).take n

/-- How many objects lie at each depth of the dominator tree, from one on. -/
def dominatorDepths (s : Snapshot) : List (Nat × Nat) :=
  s.tree.layers.zipIdx.map fun (layer, k) => (k + 1, layer.length)

/-- All objects, by id. -/
def nodes (s : Snapshot) : List ObjectId := s.idsOf (s.graph.sortById (List.range s.graph.size))

/-- The root objects, in the order of their registration. -/
def roots (s : Snapshot) : List ObjectId := s.idsOf s.graph.roots

def danglingRoots (s : Snapshot) : List (ObjectId × RootKind) := s.graph.danglingRoots

def totalRetained (s : Snapshot) : UInt64 := s.retained.total

def nodeCount (s : Snapshot) : Nat := s.graph.size

def reachableCount (s : Snapshot) : Nat := s.tree.reachable

def dominatorPasses (s : Snapshot) : Nat := s.tree.passes

end Snapshot

/-- The place of a snapshot that may have failed to load. -/
structure SnapshotSlot where
  result : Except LoadError Snapshot

namespace SnapshotSlot

def loadError? (slot : SnapshotSlot) : Option LoadError :=
  match slot.result with
  | .ok _ => none
  | .error e => some e

/-- Asks the snapshot; one that was not completely built answers nothing. -/
def ask {α : Type} (slot : SnapshotSlot) (question : Snapshot → Except QueryError α) : Except QueryError α :=
  match slot.result with
  | .ok s => question s
  | .error _ => .error .buildIncomplete

end SnapshotSlot

end Retention
