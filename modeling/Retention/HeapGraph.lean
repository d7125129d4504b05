import Retention.Record
import Retention.Graph.Digraph

namespace Retention

/-- A reference of an object in the graph. -/
structure Reference where
  label : RefLabel
  target : Option ObjectId
  strong : Bool
  /-- The place of the target, when an object of that id exists. -/
  resolved : Option Nat
  deriving DecidableEq

namespace Reference

def isNull (r : Reference) : Bool := r.target.isNone

/-- It names an object that no record defines. -/
def isDangling (r : Reference) : Bool := r.target.isSome && r.resolved.isNone

/-- The object that the reference keeps alive. -/
def retains (r : Reference) : Option Nat := if r.strong then r.resolved else none

end Reference

/-- An object of the heap. -/
structure Node where
  id : ObjectId
  shape : Shape
  classId : Option ObjectId
  shallowSize : UInt64
  references : List Reference
  rootKinds : RootKinds
  deriving DecidableEq

namespace Node

def isRoot (n : Node) : Bool := !n.rootKinds.isEmpty

/-- The objects it keeps alive, in the order of its references. -/
def successors (n : Node) : List Nat := n.references.filterMap Reference.retains

end Node

structure HeapGraph where
  nodes : Array Node
  /-- The place of each object. -/
  index : Std.TreeMap ObjectId Nat
  /-- The root objects, each at its first registration. -/
  roots : List Nat
  /-- Roots that name no object, in the order of their records. -/
  danglingRoots : List (ObjectId × RootKind)
  /-- The objects that refer to each object, strongly or not, by id. -/
  referrers : Array (List Nat)

namespace HeapGraph

def size (g : HeapGraph) : Nat := g.nodes.size

def lookup (g : HeapGraph) (id : ObjectId) : Option Nat := g.index[id]?

def node? (g : HeapGraph) (i : Nat) : Option Node := g.nodes[i]?

def get? (g : HeapGraph) (id : ObjectId) : Option Node := (g.lookup id).bind g.node?

/-- The id at a place; places outside the graph have none and read as zero. -/
def idOf (g : HeapGraph) (i : Nat) : ObjectId := (g.node? i).elim ⟨0⟩ Node.id

def shallowSizeOf (g : HeapGraph) (i : Nat) : UInt64 := (g.node? i).elim 0 Node.shallowSize

def referencesOf (g : HeapGraph) (i : Nat) : List Reference := (g.node? i).elim [] Node.references

/-- Places in ascending order of their ids. -/
def sortById (g : HeapGraph) (places : List Nat) : List Nat :=
  places.mergeSort (fun i j => decide (g.idOf i ≤ g.idOf j))

def referrersOf (g : HeapGraph) (i : Nat) : List Nat := g.referrers.getD i []

/-- The vertex that stands for the collector itself and refers to every root. -/
def superRoot (g : HeapGraph) : Nat := g.size

/-- Objects and the references that keep objects alive, entered from the super-root. -/
def strongGraph (g : HeapGraph) : Digraph := ⟨(g.nodes.map Node.successors).push g.roots⟩

end HeapGraph

end Retention
