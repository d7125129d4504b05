import Retention.Dominator.Tree

namespace Retention

namespace Size

/-- Addition in a build that checks for overflow: a sum that needs more than 64 bits is none, and ends
the load. A build without these checks would go on with the sum modulo `2 ^ 64`. -/
def add? (a b : UInt64) : Option UInt64 := if a.toNat + b.toNat < UInt64.size then some (a + b) else none

/-- The sum from left to right. -/
def sum? (sizes : List UInt64) : Option UInt64 := sizes.foldlM add? 0

end Size

structure RetainedSizes where
  sizes : Array UInt64
  total : UInt64
  deriving DecidableEq

namespace RetainedSizes

def sizeOf (r : RetainedSizes) (i : Nat) : UInt64 := r.sizes.getD i 0

/-- The size retained by an object whose children are done. -/
def ofChildren (g : HeapGraph) (t : DominatorTree) (sizes : Array UInt64) (i : Nat) : Option UInt64 := do
  let below ← Size.sum? ((t.childrenOf i).map fun c => sizes.getD c 0)
  Size.add? (g.shallowSizeOf i) below

/-- Enters the retained size of one object and announces it. -/
def enter (g : HeapGraph) (t : DominatorTree) (sizes : Array UInt64) (i : Nat) : Load (Array UInt64) :=
  match ofChildren g t sizes i with
  | none => throw .overflow
  | some size => do
    Load.advance 1
    pure (sizes.setIfInBounds i size)

/-- Objects that are not in the tree retain nothing. -/
def compute (g : HeapGraph) (t : DominatorTree) : Load RetainedSizes := do
  Load.start "Computing retained sizes" t.reachable
  let sizes ← t.bottomUp.foldlM (enter g t) (Array.replicate g.size 0)
  match Size.sum? (t.rooted.map fun r => sizes.getD r 0) with
  | none => throw .overflow
  | some total =>
    Load.done
    pure ⟨sizes, total⟩

end RetainedSizes

end Retention
