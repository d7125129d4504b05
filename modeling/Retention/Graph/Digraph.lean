import Retention.Graph.Pool

namespace Retention

/-- The successors of each vertex, in order and possibly repeated. -/
structure Digraph where
  out : Array (List Nat)

namespace Digraph

def size (g : Digraph) : Nat := g.out.size

def successors (g : Digraph) (v : Nat) : List Nat := g.out.getD v []

/-- There is an edge from `u` to `v`. -/
def Edge (g : Digraph) (u v : Nat) : Prop := v ∈ g.successors u

/-- A walk from `u` to `v`, given by all the vertices it goes through, both ends included. -/
inductive Walk (g : Digraph) : Nat → Nat → List Nat → Prop where
  | single (v : Nat) : Walk g v v [v]
  | cons {u v w : Nat} {through : List Nat} :
      g.Edge u v → Walk g v w through → Walk g u w (u :: through)

/-- Some walk leads from `u` to `v`. -/
def Reaches (g : Digraph) (u v : Nat) : Prop := ∃ through, g.Walk u v through

/-- Every walk from the entry to `v` goes through `d`. -/
def Dominates (g : Digraph) (entry d v : Nat) : Prop := ∀ through, g.Walk entry v through → d ∈ through

/-- What is left to do with a stack of half-explored vertices. -/
def pending (stack : List (Nat × List Nat)) : Nat :=
  stack.foldr (fun frame rest => frame.2.length + 1 + rest) 0

/-- Depth-first search: `pool` holds the successors of the undiscovered vertices, each frame a
discovered vertex with the successors still to look at. A vertex that is left goes in front of the
vertices left before it. -/
def leave (pool : Pool (List Nat)) (stack : List (Nat × List Nat)) (left : List Nat) : List Nat :=
  match stack with
  | [] => left
  | (v, []) :: rest => leave pool rest (v :: left)
  | (v, w :: ws) :: rest =>
    match _taken : pool.get? w with
    | none => leave pool ((v, ws) :: rest) left
    | some next => leave (pool.erase w) ((w, next) :: (v, ws) :: rest) left
termination_by pool.weight (fun next => next.length + 1) + pending stack
decreasing_by
  · simp [pending]
  · simp [pending]
  · have hw := Pool.weight_erase (fun next : List Nat => next.length + 1) pool _taken
    simp only [pending, List.foldr_cons, List.length_cons] at hw ⊢
    omega

/-- The vertices reached from the entry, the last one left first. -/
def reversePostorder (g : Digraph) (entry : Nat) : List Nat :=
  leave ((Pool.ofArray g.out).erase entry) [(entry, g.successors entry)] []

end Digraph

end Retention
