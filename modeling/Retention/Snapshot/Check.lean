import Std.Data.TreeSet
import Retention.Snapshot

namespace Retention

/-- What a check found wrong. -/
inductive CheckFault where
  | reachableCount (traced counted : Nat)
  | notTraced (id : ObjectId)
  | untracedRetains (id : ObjectId)
  | untracedDominated (id : ObjectId)
  | retainsTooLittle (id : ObjectId)
  | notTheSum (id : ObjectId)
  | endlessChain (id : ObjectId)
  | untracedDominator (id dominator : ObjectId)
  | total (retained shallow : UInt64)
  | dominance (id : ObjectId) (lost dominated : List ObjectId)
  | overflow
  | query (e : QueryError)
  deriving DecidableEq

namespace CheckFault

def idList (ids : List ObjectId) : String := "[" ++ ", ".intercalate (ids.map ObjectId.debugText) ++ "]"

def message : CheckFault → String
  | reachableCount traced counted =>
    s!"trace found {traced} reachable objects, dominator tree has {counted}"
  | notTraced id => id.text ++ " should be unreachable"
  | untracedRetains id => "unreachable " ++ id.text ++ " retains bytes"
  | untracedDominated id => "unreachable " ++ id.text ++ " has a dominator"
  | retainsTooLittle id => id.text ++ " retains less than its own size"
  | notTheSum id =>
    "retained size of " ++ id.text ++ " is not its shallow size plus its dominated children"
  | endlessChain id => "dominator chain of " ++ id.text ++ " does not terminate"
  | untracedDominator id dominator => id.text ++ " is dominated by unreachable " ++ dominator.text
  | total retained shallow =>
    s!"super-root retains {retained.toNat} bytes, reachable objects total {shallow.toNat}"
  | dominance id lost dominated =>
    "removing " ++ id.text ++ " disconnects " ++ idList lost ++ " but it dominates " ++ idList dominated
  | overflow => "attempt to add with overflow"
  | query e => e.message

end CheckFault

namespace HeapGraph

/-- The ids that the object at `i` refers to strongly, defined or not. -/
def strongTargets (g : HeapGraph) (i : Nat) : List ObjectId :=
  (g.referencesOf i).filterMap fun r => if r.strong then r.target else none

/-- Marks objects from a stack of ids; `pool` holds the strong targets of unmarked objects. -/
def mark (g : HeapGraph) (removed : Option ObjectId) (pool : Pool (List ObjectId)) (stack : List ObjectId)
    (marked : Std.TreeSet ObjectId) : Std.TreeSet ObjectId :=
  match stack with
  | [] => marked
  | id :: rest =>
    if removed = some id then g.mark removed pool rest marked
    else
      match g.lookup id with
      | none => g.mark removed pool rest marked
      | some i =>
        match _unmarked : pool.get? i with
        | none => g.mark removed pool rest marked
        | some targets => g.mark removed (pool.erase i) (targets ++ rest) (marked.insert id)
termination_by pool.weight (fun targets => targets.length + 1) + stack.length
decreasing_by
  · simp
  · simp
  · simp
  · have hw := Pool.weight_erase (fun targets : List ObjectId => targets.length + 1) pool _unmarked
    simp only [List.length_append, List.length_cons] at hw ⊢
    omega

/-- The objects that strong references reach from the roots when `removed` is not there. -/
def traced (g : HeapGraph) (removed : Option ObjectId) : Std.TreeSet ObjectId :=
  g.mark removed (Pool.ofArray ((Array.range g.size).map g.strongTargets)) (g.roots.map g.idOf) ∅

end HeapGraph

namespace Snapshot

def ensure (condition : Bool) (fault : CheckFault) : Except CheckFault Unit :=
  if condition then .ok () else .error fault

def askFor {α : Type} (answer : Except QueryError α) : Except CheckFault α :=
  match answer with
  | .ok a => .ok a
  | .error e => .error (.query e)

def sumOrFault (sum : Option UInt64) : Except CheckFault UInt64 :=
  match sum with
  | some size => .ok size
  | none => .error .overflow

/-- Checks one object and adds its shallow size to the sum so far. -/
def checkObject (s : Snapshot) (reached : Std.TreeSet ObjectId) (sum : UInt64) (id : ObjectId) :
    Except CheckFault UInt64 := do
  let view ← askFor (s.lookup id)
  if !reached.contains id then
    ensure (!view.isReachable) (.notTraced id)
    ensure (view.retainedSize == 0) (.untracedRetains id)
    ensure view.idom.isNone (.untracedDominated id)
    pure sum
  else
    let sum ← sumOrFault (Size.add? sum view.node.shallowSize)
    ensure (decide (view.node.shallowSize ≤ view.retainedSize)) (.retainsTooLittle id)
    let children ← askFor (s.children id)
    let sizes ← children.mapM fun c => (askFor (s.lookup c)).map ObjectView.retainedSize
    let below ← sumOrFault (Size.sum? sizes)
    let whole ← sumOrFault (Size.add? view.node.shallowSize below)
    ensure (view.retainedSize == whole) (.notTheSum id)
    let i ← askFor (s.reachablePlaceOf id)
    ensure (decide (s.tree.depthOf i < s.nodeCount)) (.endlessChain id)
    match view.idom with
    | some (.object d) => ensure (reached.contains d) (.untracedDominator id d)
    | _ => pure ()
    pure sum

/-- Compares the whole snapshot with a trace; gives the number of objects traced. -/
def sanityTrace (s : Snapshot) : Except CheckFault Nat := do
  let reached := s.graph.traced none
  ensure (reached.size == s.reachableCount) (.reachableCount reached.size s.reachableCount)
  let shallow ← s.nodes.foldlM (s.checkObject reached) 0
  ensure (s.totalRetained == shallow) (.total s.totalRetained shallow)
  pure reached.size

/-- Everything below an object in the dominator tree, by id. -/
def dominatedBy (s : Snapshot) (i : Nat) : List ObjectId :=
  s.idsOf (s.graph.sortById (s.tree.layersFrom s.tree.idom.size (s.tree.childrenOf i)).flatten)

/-- Without the object exactly what it dominates is lost; ids that the trace does not reach pass. -/
def verifyDominance (s : Snapshot) (id : ObjectId) : Except CheckFault Unit := do
  let before := s.graph.traced none
  if before.contains id then
    let after := s.graph.traced (some id)
    let lost := before.toList.filter fun o => o != id && !after.contains o
    let i ← askFor (s.placeOf id)
    ensure (lost == s.dominatedBy i) (.dominance id lost (s.dominatedBy i))
  else pure ()

end Snapshot

end Retention
