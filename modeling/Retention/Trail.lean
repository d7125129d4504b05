import Retention.HeapGraph

namespace Retention

/-- A stop of a trail, with the position of the reference that leads to it from the stop before. -/
structure Stop where
  place : Nat
  via : Option Nat
  deriving DecidableEq

/-- The stops from an object back to a root. -/
abbrev Trail := List Stop

/-- A resolved reference of an object. -/
structure OutEdge where
  target : Nat
  via : Nat
  strong : Bool
  deriving DecidableEq

namespace HeapGraph

/-- The resolved references of the object at `i`, by the id of their targets and then by position. -/
def outEdges (g : HeapGraph) (i : Nat) : List OutEdge :=
  let edges := (g.referencesOf i).zipIdx.filterMap fun (r, via) =>
    r.resolved.map fun target => ⟨target, via, r.strong⟩
  edges.mergeSort fun a b => decide (g.idOf a.target ≤ g.idOf b.target)

end HeapGraph

/-- A search under way. -/
structure TrailSearch where
  /-- The edges of the objects not yet found. -/
  pool : Pool (List OutEdge)
  trails : Array (Option Trail)
  /-- Where the next wave goes. -/
  next : Array Trail
  /-- Trails that end in a weak reference met on the way. -/
  waiting : Array Trail

namespace TrailSearch

def extend (trail : Trail) (e : OutEdge) : Trail := ⟨e.target, some e.via⟩ :: trail

/-- Takes one trail of a wave: if it arrives first, the search goes on along the edges to follow. -/
def arrive (follow : OutEdge → Bool) (s : TrailSearch) (trail : Trail) : TrailSearch :=
  match trail with
  | [] => s
  | stop :: _ =>
    match s.pool.get? stop.place with
    | none => s
    | some edges =>
      { pool := s.pool.erase stop.place
        trails := s.trails.setIfInBounds stop.place (some trail)
        next := s.next ++ (edges.filter follow).map (extend trail)
        waiting := s.waiting ++ (edges.filter fun e => !follow e).map (extend trail) }

/-- The number of objects not yet found. -/
def unfound (s : TrailSearch) : Nat := s.pool.weight (fun _ => 1)

theorem unfound_arrive (follow : OutEdge → Bool) (s : TrailSearch) (trail : Trail) :
    (s.arrive follow trail).unfound < s.unfound ∨
      (s.arrive follow trail).unfound = s.unfound ∧ (s.arrive follow trail).next = s.next := by
  unfold arrive
  split
  · exact Or.inr ⟨rfl, rfl⟩
  · split
    · exact Or.inr ⟨rfl, rfl⟩
    · rename_i edges h
      have hw := Pool.weight_erase (fun _ => 1) s.pool h
      exact Or.inl (by simp only [unfound]; omega)

/-- A wave finds an object, or there is no next wave. -/
theorem unfound_foldl_arrive (follow : OutEdge → Bool) (wave : List Trail) (s : TrailSearch) :
    (wave.foldl (arrive follow) s).unfound < s.unfound ∨
      (wave.foldl (arrive follow) s).unfound = s.unfound ∧
        (wave.foldl (arrive follow) s).next = s.next := by
  induction wave generalizing s with
  | nil => exact Or.inr ⟨rfl, rfl⟩
  | cons trail rest ih =>
    simp only [List.foldl_cons]
    rcases ih (s.arrive follow trail) with h | h <;> rcases unfound_arrive follow s trail with h' | h'
    · exact Or.inl (by omega)
    · exact Or.inl (by omega)
    · exact Or.inl (by omega)
    · exact Or.inr ⟨h.1.trans h'.1, h.2.trans h'.2⟩

/-- Lets a whole wave arrive. -/
def wave (follow : OutEdge → Bool) (s : TrailSearch) (trails : List Trail) : TrailSearch :=
  trails.foldl (arrive follow) { s with next := #[] }

/-- What bounds the number of waves: objects to find, and whether a wave is under way. -/
def remaining (s : TrailSearch) (trails : List Trail) : Nat :=
  2 * s.unfound + if trails.isEmpty then 0 else 1

theorem remaining_wave (follow : OutEdge → Bool) (s : TrailSearch) (trail : Trail) (rest : List Trail) :
    (s.wave follow (trail :: rest)).remaining (s.wave follow (trail :: rest)).next.toList <
      s.remaining (trail :: rest) := by
  have h : (s.wave follow (trail :: rest)).unfound < s.unfound ∨
      (s.wave follow (trail :: rest)).unfound = s.unfound ∧
        (s.wave follow (trail :: rest)).next = #[] :=
    unfound_foldl_arrive follow (trail :: rest) { s with next := #[] }
  simp only [remaining, List.isEmpty_cons, Bool.false_eq_true, if_false]
  rcases h with h | h
  · split <;> omega
  · simp [h.1, h.2]

/-- Sends out waves until one is empty. -/
def spread (follow : OutEdge → Bool) (s : TrailSearch) (trails : List Trail) : TrailSearch :=
  match trails with
  | [] => s
  | trail :: rest =>
    let after := s.wave follow (trail :: rest)
    after.spread follow after.next.toList
termination_by s.remaining trails
decreasing_by exact remaining_wave follow s trail rest

end TrailSearch

namespace HeapGraph

/-- One trail to each object that references lead to: strong ones as far as they go, then all. -/
def trails (g : HeapGraph) : Array (Option Trail) :=
  let unseen : Pool (List OutEdge) := Pool.ofArray ((Array.range g.size).map g.outEdges)
  let blank : TrailSearch := ⟨unseen, Array.replicate g.size none, #[], #[]⟩
  let strong := blank.spread OutEdge.strong (g.roots.map fun r => [⟨r, none⟩])
  let all := { strong with waiting := #[] }.spread (fun _ => true) strong.waiting.toList
  all.trails

end HeapGraph

end Retention
