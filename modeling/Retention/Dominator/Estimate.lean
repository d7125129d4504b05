import Retention.Load

namespace Retention

/-- The current estimate of each numbered vertex, none where there is no estimate yet. -/
abbrev Estimates := Array (Option Nat)

namespace Estimates

def isDefined (e : Estimates) (r : Nat) : Bool := (e[r]?).join.isSome

/-- One step towards the entry; a vertex without a falling estimate goes there at once. -/
def climb (e : Estimates) (r : Nat) : Nat :=
  match (e[r]?).join with
  | some d => if d < r then d else 0
  | none => 0

theorem climb_lt (e : Estimates) {r : Nat} (h : 0 < r) : e.climb r < r := by
  unfold climb
  split
  · split <;> omega
  · exact h

/-- Both vertices climb, the larger one first, until they meet. -/
def meet (e : Estimates) (a b : Nat) : Nat :=
  if a = b then a
  else if b < a then e.meet (e.climb a) b
  else e.meet a (e.climb b)
termination_by a + b
decreasing_by
  · have := e.climb_lt (r := a) (by omega)
    omega
  · have := e.climb_lt (r := b) (by omega)
    omega

/-- Where the predecessors that have an estimate meet. -/
def meetAll (e : Estimates) (preds : List Nat) : Option Nat :=
  preds.foldl
    (fun found p =>
      if e.isDefined p then
        match found with
        | none => some p
        | some d => some (e.meet p d)
      else found)
    none

/-- Only the entry has an estimate, itself. -/
def initial (count : Nat) : Estimates := (Array.replicate count none).setIfInBounds 0 (some 0)

end Estimates

/-- Estimates within a sweep, and the vertices it has changed, the latest first. -/
structure Sweep where
  estimates : Estimates
  changed : List Nat

namespace Sweep

def visit (preds : Array (List Nat)) (s : Sweep) (r : Nat) : Sweep :=
  match s.estimates.meetAll (preds.getD r []) with
  | none => s
  | some d =>
    if (s.estimates[r]?).join = some d then s
    else ⟨s.estimates.setIfInBounds r (some d), r :: s.changed⟩

/-- One sweep over all vertices but the entry. -/
def pass (preds : Array (List Nat)) (e : Estimates) : Load Sweep :=
  Load.each (fun s r => .ok (s.visit preds r)) ⟨e, []⟩ (List.range' 1 (preds.size - 1))

/-- Sweeps until nothing changes, at most `bound` times; `passes` counts the sweeps made before. The
result holds the number of sweeps too. When the bound is used up, `failure` names what happened. -/
def settle (preds : Array (List Nat)) (bound : Nat) (failure : Nat → List Nat → LoadError) (passes : Nat)
    (e : Estimates) : Load (Estimates × Nat) := do
  let sweep ← pass preds e
  if sweep.changed.isEmpty then pure (sweep.estimates, passes + 1)
  else if bound ≤ passes + 1 then throw (failure (passes + 1) sweep.changed.reverse)
  else settle preds bound failure (passes + 1) sweep.estimates
termination_by bound - passes

end Sweep

end Retention
