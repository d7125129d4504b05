import Retention.Dominator.Estimate
import Retention.Graph.Buckets
import Retention.HeapGraph

namespace Retention

/-- What immediately dominates an object. -/
inductive Dominator where
  | superRoot
  | node (i : Nat)
  deriving DecidableEq

structure DominatorTree where
  /-- None for objects that strong references do not reach. -/
  idom : Array (Option Dominator)
  /-- The objects right below each object, by id. -/
  children : Array (List Nat)
  /-- The objects right below the super-root, by id. -/
  rooted : List Nat
  /-- The number of sweeps it took. -/
  passes : Nat
  deriving DecidableEq

namespace DominatorTree

def idomOf (t : DominatorTree) (i : Nat) : Option Dominator := (t.idom[i]?).join

def isReachable (t : DominatorTree) (i : Nat) : Bool := (t.idomOf i).isSome

def childrenOf (t : DominatorTree) (i : Nat) : List Nat := t.children.getD i []

def reachable (t : DominatorTree) : Nat := t.idom.countP Option.isSome

/-- The dominators above an object, nearest first, at most `fuel` of them. -/
def climbFrom (t : DominatorTree) : Nat → Nat → List Nat
  | 0, _ => []
  | fuel + 1, i =>
    match t.idomOf i with
    | some (.node d) => d :: t.climbFrom fuel d
    | _ => []

/-- The dominators above an object, nearest first; a chain is shorter than the table. -/
def chainOf (t : DominatorTree) (i : Nat) : List Nat := t.climbFrom t.idom.size i

/-- Adds the number of dominators above an object to a count, at most `fuel` of them. -/
def countFrom (t : DominatorTree) : Nat → Nat → Nat → Nat
  | 0, _, count => count
  | fuel + 1, i, count =>
    match t.idomOf i with
    | some (.node d) => t.countFrom fuel d (count + 1)
    | _ => count

theorem countFrom_eq (t : DominatorTree) (fuel i count : Nat) :
    t.countFrom fuel i count = count + (t.climbFrom fuel i).length := by
  induction fuel generalizing i count with
  | zero => rfl
  | succ fuel ih =>
    simp only [countFrom, climbFrom]
    split
    · rw [ih, List.length_cons]
      omega
    · rfl

/-- The number of dominators above an object. -/
def depthOf (t : DominatorTree) (i : Nat) : Nat := t.countFrom t.idom.size i 0

theorem depthOf_eq_length_chainOf (t : DominatorTree) (i : Nat) : t.depthOf i = (t.chainOf i).length := by
  rw [depthOf, chainOf, countFrom_eq, Nat.zero_add]

/-- The layers of the tree from one layer down, at most `fuel` of them. -/
def layersFrom (t : DominatorTree) : Nat → List Nat → List (List Nat)
  | 0, _ => []
  | _ + 1, [] => []
  | fuel + 1, layer => layer :: t.layersFrom fuel (layer.flatMap t.childrenOf)

/-- The layers of the tree, the objects right below the super-root first. -/
def layers (t : DominatorTree) : List (List Nat) := t.layersFrom t.idom.size t.rooted

/-- The tree as a graph whose last vertex is the super-root. -/
def graph (t : DominatorTree) : Digraph := ⟨t.children.push t.rooted⟩

/-- The objects of the tree, each after everything below it. -/
def bottomUp (t : DominatorTree) : List Nat :=
  (t.graph.reversePostorder t.children.size).tail.reverse

end DominatorTree

namespace HeapGraph

/-- The number of each vertex in an order, none where the order leaves it out. -/
def numbersOf (count : Nat) (order : List Nat) : Array (Option Nat) :=
  order.zipIdx.foldl (fun numbers (v, r) => numbers.setIfInBounds v (some r)) (Array.replicate count none)

/-- Edges of a graph in the numbers of an order, target first; loops are left out. -/
def numberedEdges (g : Digraph) (order : List Nat) : List (Nat × Nat) :=
  let numbers := numbersOf g.size order
  order.zipIdx.flatMap fun (v, r) =>
    (g.successors v).filterMap fun s =>
      match (numbers[s]?).join with
      | some target => if target = r then none else some (target, r)
      | none => none

/-- The predecessors of each numbered vertex, each once, in ascending order. -/
def predecessors (g : Digraph) (order : List Nat) : Array (List Nat) :=
  (buckets order.length (numberedEdges g order)).map List.eraseReps

/-- No more than this many objects are named when the estimates do not settle. -/
def reportedUnsettled : Nat := 16

def unsettledError (g : HeapGraph) (order : Array Nat) (passes : Nat) (numbers : List Nat) : LoadError :=
  .unsettled passes ((numbers.take reportedUnsettled).map fun r => g.idOf (order.getD r 0))

/-- Hangs each numbered object below the object its estimate names. -/
def treeOf (g : HeapGraph) (order : Array Nat) (estimates : Estimates) (passes : Nat) : DominatorTree :=
  let links : List (Nat × Dominator) := (List.range' 1 (order.size - 1)).map fun r =>
    let d := ((estimates[r]?).join).getD 0
    (order.getD r 0, if d = 0 then .superRoot else .node (order.getD d 0))
  let below : List (Nat × Nat) := links.filterMap fun (v, d) =>
    match d with
    | .node parent => some (parent, v)
    | .superRoot => none
  { idom := links.foldl (fun idom (v, d) => idom.setIfInBounds v (some d)) (Array.replicate g.size none)
    children := (buckets g.size below).map g.sortById
    rooted := g.sortById (links.filterMap fun (v, d) => if d = .superRoot then some v else none)
    passes := passes }

/-- Computes the dominator tree; without a limit the number of sweeps may exceed the number of
vertices by three. -/
def dominators (g : HeapGraph) (maxPasses : Option Nat) : Load DominatorTree := do
  let order := g.strongGraph.reversePostorder g.superRoot
  order.tail.forM fun _ => Load.poll
  let numbered := order.toArray
  let preds := predecessors g.strongGraph order
  let bound := maxPasses.getD (order.length + 3)
  Load.start "Computing dominators" g.size
  let (estimates, passes) ←
    Sweep.settle preds bound (g.unsettledError numbered) 0 (Estimates.initial order.length)
  let undefined := (List.range' 1 (order.length - 1)).filter fun r => !estimates.isDefined r
  if undefined.isEmpty then pure () else throw (g.unsettledError numbered passes undefined)
  let tree := g.treeOf numbered estimates passes
  Load.done
  pure tree

end HeapGraph

end Retention
