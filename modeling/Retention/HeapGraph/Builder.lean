import Retention.HeapGraph
import Retention.Load
import Retention.Record.Layout

namespace Retention

/-- An accepted object record, its labels placed. -/
structure Draft where
  shape : Shape
  object : ObjectRecord
  deriving DecidableEq

/-- What an accepted record adds to a graph. -/
inductive Entry where
  | root (id : ObjectId) (kind : RootKind)
  | draft (draft : Draft)
  deriving DecidableEq

/-- The accepted records so far. -/
structure Drafts where
  objects : Array Draft
  index : Std.TreeMap ObjectId Nat
  roots : Array (ObjectId × RootKind)

namespace Drafts

def empty : Drafts := ⟨#[], ∅, #[]⟩

/-- What a record adds: a repeated id counts before a bad layout. -/
def inspect (d : Drafts) : Record → Except MalformedReason Entry
  | .root id kind => .ok (.root id kind)
  | .object shape object =>
    if d.index.contains object.id then .error .duplicateId
    else (shape.place object.references).map fun placed => .draft ⟨shape, { object with references := placed }⟩

def insert (d : Drafts) : Entry → Drafts
  | .root id kind => { d with roots := d.roots.push (id, kind) }
  | .draft draft =>
    let place := d.objects.size
    { d with objects := d.objects.push draft, index := d.index.insert draft.object.id place }

end Drafts

/-- Records taken in one after another; refused ones use up a position too. -/
structure HeapGraphBuilder where
  drafts : Drafts
  position : Nat

namespace HeapGraphBuilder

def new : HeapGraphBuilder := ⟨.empty, 0⟩

/-- A refused record leaves the accepted ones as they were. -/
def push (b : HeapGraphBuilder) (record : Record) : HeapGraphBuilder × Except MalformedRecord Unit :=
  match b.drafts.inspect record with
  | .ok entry => (⟨b.drafts.insert entry, b.position + 1⟩, .ok ())
  | .error reason => (⟨b.drafts, b.position + 1⟩, .error ⟨b.position, record.id, reason⟩)

/-- Pushes records one after another and goes on after refused ones. -/
def pushAll (b : HeapGraphBuilder) : List Record → HeapGraphBuilder × List (Except MalformedRecord Unit)
  | [] => (b, [])
  | record :: rest =>
    let (next, pushed) := b.push record
    let (last, results) := next.pushAll rest
    (last, pushed :: results)

/-- Pushes a record of a stream, which ends at the first refused one. -/
def take (b : HeapGraphBuilder) (record : Record) : Except LoadError HeapGraphBuilder :=
  match b.push record with
  | (next, .ok ()) => .ok next
  | (_, .error refused) => .error (.malformed refused)

def resolveRef (index : Std.TreeMap ObjectId Nat) (r : RecordRef) : Reference :=
  ⟨r.label, r.target, r.strong, r.target.bind (index[·]?)⟩

def resolve (index : Std.TreeMap ObjectId Nat) (draft : Draft) : Node :=
  { id := draft.object.id
    shape := draft.shape
    classId := draft.object.classId
    shallowSize := draft.object.shallowSize
    references := draft.object.references.map (resolveRef index)
    rootKinds := .empty }

end HeapGraphBuilder

/-- Objects with their references resolved so far, and for each place who refers to it, once for every
reference. -/
structure Resolving where
  nodes : Array Node
  referrers : Array (Array Nat)

namespace Resolving

def blank (count : Nat) : Resolving := ⟨#[], Array.replicate count #[]⟩

/-- Notes where a reference of the object at `i` leads. -/
def noteReferrer (i : Nat) (table : Array (Array Nat)) (r : Reference) : Array (Array Nat) :=
  match r.resolved with
  | none => table
  | some target => table.modify target (·.push i)

/-- Resolves the references of one more object. -/
def next (index : Std.TreeMap ObjectId Nat) (s : Resolving) (draft : Draft) : Resolving :=
  let place := s.nodes.size
  let node := HeapGraphBuilder.resolve index draft
  ⟨s.nodes.push node, node.references.foldl (noteReferrer place) s.referrers⟩

/-- The graph before its roots are registered: the referrers of each place are sorted, and those that
refer there more than once are kept once. -/
def graph (index : Std.TreeMap ObjectId Nat) (s : Resolving) : HeapGraph :=
  let bare : HeapGraph := ⟨s.nodes, index, [], [], #[]⟩
  { bare with referrers := s.referrers.map fun places => (bare.sortById places.toList).eraseReps }

end Resolving

namespace HeapGraphBuilder

/-- Marks the object of a root record, or keeps the record as dangling. -/
def registerRoot (g : HeapGraph) (root : ObjectId × RootKind) : HeapGraph :=
  match g.index[root.1]? with
  | none => { g with danglingRoots := g.danglingRoots ++ [root] }
  | some i =>
    let known := (g.nodes[i]?).any Node.isRoot
    { g with
      nodes := g.nodes.modify i fun n => { n with rootKinds := n.rootKinds.insert root.2 }
      roots := if known then g.roots else g.roots ++ [i] }

/-- Resolves the references of all objects, then registers the roots. -/
def finish (b : HeapGraphBuilder) : Load HeapGraph := do
  Load.start "Resolving references" b.drafts.objects.size
  let resolved ← Load.each (fun s draft => .ok (s.next b.drafts.index draft))
    (Resolving.blank b.drafts.objects.size) b.drafts.objects.toList
  let graph := b.drafts.roots.toList.foldl registerRoot (resolved.graph b.drafts.index)
  Load.done
  pure graph

end HeapGraphBuilder

namespace HeapGraph

/-- Builds the graph of a stream of records whose length is announced as `expected`. -/
def build (expected : Nat) (records : List Record) : Load HeapGraph := do
  Load.start "Reading records" expected
  let builder ← Load.each HeapGraphBuilder.take .new records
  Load.done
  builder.finish

end HeapGraph

end Retention
