import Retention.Proofs.SweepLimits

namespace Retention

namespace Estimates

/-- The chain of `v` comes to `u`, by estimates that are there. -/
inductive OnChain (e : Estimates) (u : Nat) : Nat → Prop where
  | self : OnChain e u u
  | up {d v : Nat} : e[v]? = some (some d) → OnChain e u d → OnChain e u v

/-- Two fingers come together at `m`: the one on the larger number follows the estimate that it finds
there, until both are on the same number. -/
inductive Fingers (e : Estimates) : Nat → Nat → Nat → Prop where
  | together (m : Nat) : Fingers e m m m
  | left {a b d m : Nat} : b < a → e[a]? = some (some d) → Fingers e d b m → Fingers e a b m
  | right {a b d m : Nat} : a < b → e[b]? = some (some d) → Fingers e a d m → Fingers e a b m

/-- Estimates lead down to the entry: each is a smaller number that has an estimate too. -/
structure Falling (e : Estimates) : Prop where
  entry : e[0]? = some (some 0)
  below : ∀ r, 0 < r → e.isDefined r = true → ∃ d, e[r]? = some (some d) ∧ d < r ∧ e.isDefined d = true

/-- While the predecessors are gone through, `p` is made to meet `d`, which was found among those before
it. -/
def Meets (e : Estimates) (preds : List Nat) (p d : Nat) : Prop :=
  ∃ before after, preds = before ++ p :: after ∧ e.isDefined p = true ∧ e.meetAll before = some d

/-- A meeting that goes well. -/
structure MeetsWell (e : Estimates) (a b : Nat) : Prop where
  left : e.isDefined a = true
  right : e.isDefined b = true
  falling : e.Falling
  /-- The fingers come together, and look only at estimates that are there. -/
  fingers : e.Fingers a b (e.meet a b)
  /-- They do so at the nearest number on both chains. -/
  nearest : ∀ u, e.OnChain u a ∧ e.OnChain u b ↔ e.OnChain u (e.meet a b)

variable {e : Estimates} {a b d m p r u v : Nat} {preds : List Nat}

namespace Falling

theorem getElem?_eq (h : e.Falling) (hv : 0 < v) (defined : e.isDefined v = true) :
    e[v]? = some (some (e.climb v)) := by
  obtain ⟨d, there, falls, -⟩ := h.below v hv defined
  simp [climb, there, falls]

theorem isDefined_climb (h : e.Falling) (hv : 0 < v) (defined : e.isDefined v = true) :
    e.isDefined (e.climb v) = true := by
  obtain ⟨d, there, falls, again⟩ := h.below v hv defined
  simpa [climb, there, falls] using again

/-- The chain of a number that has an estimate is all there. -/
theorem onChain_iff (h : e.Falling) (defined : e.isDefined v = true) : e.OnChain u v ↔ u ∈ e.chain v := by
  constructor
  · intro above
    induction above with
    | self => exact e.self_mem_chain u
    | @up d v there _ ih =>
      rcases Nat.eq_zero_or_pos v with rfl | hv
      · rw [h.entry] at there
        cases there
        exact ih defined
      · rw [h.getElem?_eq hv defined] at there
        cases there
        exact mem_chain_of_climb hv (ih (h.isDefined_climb hv defined))
  · intro above
    induction v using Nat.strongRecOn with
    | ind v ih =>
      rcases Nat.eq_zero_or_pos v with rfl | hv
      · rw [mem_chain_zero.mp above]
        exact .self
      · cases (mem_chain_of_pos hv).mp above with
        | inl same => exact same ▸ .self
        | inr above =>
          exact .up (h.getElem?_eq hv defined) (ih _ (e.climb_lt hv) (h.isDefined_climb hv defined) above)

theorem fingers_meet (h : e.Falling) (left : e.isDefined a = true) (right : e.isDefined b = true) :
    e.Fingers a b (e.meet a b) := by
  fun_induction meet e a b with
  | case1 b => exact .together b
  | case2 a b _ larger ih =>
    have ha : 0 < a := by omega
    exact .left larger (h.getElem?_eq ha left) (ih (h.isDefined_climb ha left) right)
  | case3 a b apart smaller ih =>
    have hb : 0 < b := by omega
    exact .right (by omega) (h.getElem?_eq hb right) (ih left (h.isDefined_climb hb right))

theorem isDefined_of_mem_chain (h : e.Falling) (defined : e.isDefined v = true) (hu : u ∈ e.chain v) :
    e.isDefined u = true := by
  induction v using Nat.strongRecOn with
  | ind v ih =>
    by_cases same : u = v
    · exact same ▸ defined
    · have hle := le_of_mem_chain hu
      have hv : 0 < v := by omega
      exact ih _ (e.climb_lt hv) (h.isDefined_climb hv defined) (mem_chain_climb hu same)

/-- What is found among predecessors lies on the chain of one that has an estimate. -/
theorem isDefined_meetAll (h : e.Falling) (found : e.meetAll preds = some d) : e.isDefined d = true := by
  have some : (preds.foldl e.meetNext none).isSome := by
    rw [← meetAll_eq_foldl, found]
    rfl
  obtain ⟨q, hq, defined⟩ := ((isSome_foldl_meetNext e preds none).mp some).resolve_left (by simp)
  exact h.isDefined_of_mem_chain defined ((mem_chain_meetAll found).mp (e.self_mem_chain d) q hq defined)

theorem isDefined_meet (h : e.Falling) (left : e.isDefined a = true) : e.isDefined (e.meet a b) = true :=
  h.isDefined_of_mem_chain left (mem_chain_meet.mp (e.self_mem_chain _)).1

/-- Where estimates fall, every meeting of numbers that have one goes well. -/
theorem meetsWell (h : e.Falling) (left : e.isDefined a = true) (right : e.isDefined b = true) :
    e.MeetsWell a b := by
  refine ⟨left, right, h, h.fingers_meet left right, ?_⟩
  intro u
  rw [h.onChain_iff left, h.onChain_iff right, h.onChain_iff (h.isDefined_meet left), mem_chain_meet]

end Falling

end Estimates

namespace Sweep

/-- Where sweeps under a bound can be: so many are made, and `next` is the vertex to be visited. -/
inductive Underway (preds : Array (List Nat)) (bound : Nat) : Nat → Nat → Sweep → Prop where
  | start : Underway preds bound 0 1 ⟨.initial preds.size, []⟩
  | visit {passes next : Nat} {s : Sweep} : Underway preds bound passes next s → next < preds.size →
      Underway preds bound passes (next + 1) (s.visit preds next)
  | again {passes : Nat} {s : Sweep} : Underway preds bound passes preds.size s → s.changed ≠ [] →
      passes + 1 < bound → Underway preds bound (passes + 1) 1 ⟨s.estimates, []⟩

namespace Underway

variable {preds : Array (List Nat)} {bound passes next : Nat} {s : Sweep} {e : Estimates}

/-- All that the sweeps rely on holds wherever they are, and the entry keeps its own estimate. -/
theorem sweeping (numbered : Numbered preds) (h : Underway preds bound passes next s) :
    (0 < next ∧ next ≤ preds.size) ∧ Sweeping preds s.estimates passes next ∧ s.estimates[0]? = some (some 0) := by
  have nonempty := numbered.nonempty
  induction h with
  | start => exact ⟨by omega, Sweeping.initial numbered, by simp [Estimates.initial, nonempty]⟩
  | @visit passes next s _ inside ih =>
    obtain ⟨⟨pos, -⟩, sweeping, entry⟩ := ih
    refine ⟨by omega, sweeping.visit numbered pos inside, ?_⟩
    obtain ⟨m, meets⟩ := sweeping.exists_meetsAt numbered pos inside
    rw [estimates_visit meets.found, Estimates.getElem?_assign_of_ne (Nat.ne_of_lt pos)]
    exact entry
  | again _ _ _ ih =>
    obtain ⟨-, sweeping, entry⟩ := ih
    exact ⟨by omega, sweeping.wrap, entry⟩

theorem falling (numbered : Numbered preds) (h : Underway preds bound passes next s) : s.estimates.Falling := by
  obtain ⟨-, sweeping, entry⟩ := h.sweeping numbered
  refine ⟨entry, ?_⟩
  intro r hr defined
  have falls := s.estimates.climb_lt hr
  have there := Option.join_eq_some_iff.mp (sweeping.falling r hr defined)
  exact ⟨_, there, falls, sweeping.defined_of_le defined (Nat.le_of_lt falls)⟩

/-- The first sweep is always made, and each other one has its place under the bound. -/
theorem passes_lt (h : Underway preds bound passes next s) : passes < bound ∨ passes = 0 := by
  induction h with
  | start => exact .inr rfl
  | visit _ _ ih => exact ih
  | again _ _ room _ => exact .inl room

theorem visits {count : Nat} (h : Underway preds bound passes next s) (inside : next + count ≤ preds.size) :
    Underway preds bound passes (next + count) ((List.range' next count).foldl (Sweep.visit preds) s) := by
  induction count generalizing next s with
  | zero => exact h
  | succ count ih =>
    rw [List.range'_succ, List.foldl_cons, Nat.add_comm count 1, ← Nat.add_assoc]
    exact ih (h.visit (by omega)) (by omega)

theorem swept (nonempty : 0 < preds.size) (h : Underway preds bound passes 1 ⟨e, []⟩) :
    Underway preds bound passes preds.size (swept preds e) := by
  have whole : 1 + (preds.size - 1) = preds.size := by omega
  have last := h.visits (Nat.le_of_eq whole)
  rwa [whole] at last

/-- Sweeps end after one that changes nothing, or after the last one that the bound allows for; and they
return what they have come to there. -/
theorem ends (nonempty : 0 < preds.size) (failure : Nat → List Nat → LoadError)
    (h : Underway preds bound passes 1 ⟨e, []⟩) :
    ∃ last s, Underway preds bound last preds.size s ∧ (s.changed = [] ∨ bound ≤ last + 1) ∧
      (settle preds bound failure passes e).Returns
        (if s.changed = [] then .ok (s.estimates, last + 1) else .error (failure (last + 1) s.changed.reverse)) := by
  -- Induction on the sweeps that the bound still allows for.
  induction left : bound - passes using Nat.strongRecOn generalizing passes e with
  | ind left ih =>
    have whole := h.swept nonempty
    by_cases still : (Sweep.swept preds e).changed = []
    · refine ⟨passes, _, whole, .inl still, ?_⟩
      rw [if_pos still, (stable_of_unchanged still).1]
      exact (settle_still still).returns
    · by_cases spent : bound ≤ passes + 1
      · refine ⟨passes, _, whole, .inr spent, ?_⟩
        rw [if_neg still]
        exact (settle_spent still spent).returns
      · have more := Nat.lt_of_not_le spent
        obtain ⟨last, s, there, finished, returns⟩ := ih (bound - (passes + 1)) (by omega) (whole.again still more) rfl
        exact ⟨last, s, there, finished, settle_more still more returns⟩

end Underway

theorem Settles.unique {preds : Array (List Nat)} {e final other : Estimates} {j k : Nat}
    (h : Settles preds e k final) (also : Settles preds e j other) : k = j ∧ final = other := by
  induction h generalizing j with
  | still unchanged =>
    cases also with
    | still _ => exact ⟨rfl, rfl⟩
    | sweep changed _ => exact absurd unchanged changed
  | sweep changed _ ih =>
    cases also with
    | still unchanged => exact absurd unchanged changed
    | sweep _ later =>
      obtain ⟨rfl, rfl⟩ := ih later
      exact ⟨rfl, rfl⟩

end Sweep

namespace HeapGraph

variable {g : HeapGraph}

/-- The number of sweeps under a limit; without one it grows with the vertices. -/
abbrev sweepBound (g : HeapGraph) (limit : Option Nat) : Nat := limit.getD (g.numbering.length + 3)

/-- The sweeps over a heap come to an end, and the tree or the failure is that of their end. -/
theorem WellFormed.dominators_ends (wf : g.WellFormed) (limit : Option Nat) :
    ∃ last s, Sweep.Underway g.sources (g.sweepBound limit) last g.numbering.length s ∧
      (s.changed = [] ∨ g.sweepBound limit ≤ last + 1) ∧
      (g.dominators limit).outcome.1 =
        if s.changed = [] then .ok (g.treeOf g.numbering.toArray s.estimates (last + 1))
        else .error (g.unsettledError g.numbering.toArray (last + 1) s.changed.reverse) := by
  have nonempty : 0 < g.sources.size := (wf.numbering.numbered wf.closed).nonempty
  obtain ⟨last, s, there, finished, returns⟩ := Sweep.Underway.start.ends nonempty (g.unsettledError g.numbering.toArray)
  rw [size_sources] at there returns
  refine ⟨last, s, there, finished, ?_⟩
  by_cases still : s.changed = []
  · rw [if_pos still] at returns ⊢
    obtain ⟨k, e, settles⟩ := wf.exists_settlesOn
    obtain ⟨j, same, again⟩ := Sweep.settles_of_returns returns
    obtain rfl := Nat.succ.inj same
    obtain ⟨rfl, rfl⟩ := settles.settles.unique again
    exact (settles.returns limit there.passes_lt).outcome_eq
  · rw [if_neg still] at returns ⊢
    exact (dominators_cut_off returns).outcome_eq

/-- Under every limit the sweeps over a heap come to their end, which decides the result; and wherever
they are before it, each meeting of two numbers goes well. -/
theorem dominators_meetsWell {expected : Nat} {records : List Record} {g : HeapGraph}
    (built : (build expected records).outcome.1 = .ok g) (limit : Option Nat) :
    (∃ last s, Sweep.Underway g.sources (g.sweepBound limit) last g.numbering.length s ∧
      (s.changed = [] ∨ g.sweepBound limit ≤ last + 1) ∧
      (g.dominators limit).outcome.1 =
        if s.changed = [] then .ok (g.treeOf g.numbering.toArray s.estimates (last + 1))
        else .error (g.unsettledError g.numbering.toArray (last + 1) s.changed.reverse)) ∧
    ∀ passes next s, Sweep.Underway g.sources (g.sweepBound limit) passes next s →
      ∀ p d, s.estimates.Meets (g.sources.getD next []) p d → s.estimates.MeetsWell p d := by
  have wf := WellFormed.of_build built
  refine ⟨wf.dominators_ends limit, ?_⟩
  intro passes next s underway p d meets
  have falling := underway.falling (wf.numbering.numbered wf.closed)
  obtain ⟨before, after, -, defined, found⟩ := meets
  exact falling.meetsWell defined (falling.isDefined_meetAll found)

/-- In the second sweep over the loop with two entries, its first vertex has a predecessor that comes
after it. -/
theorem dominators_meetsWell_twoEntryLoop :
    ∃ g, (build 6 twoEntryLoop).outcome.1 = .ok g ∧ ∃ s, Sweep.Underway g.sources (g.sweepBound none) 1 2 s ∧
      s.estimates.Meets (g.sources.getD 2 []) 3 1 ∧ s.estimates.MeetsWell 3 1 := by
  have checked : (build 6 twoEntryLoop).outcome.1.map (fun g =>
      let first := Sweep.swept g.sources (.initial g.sources.size)
      let second := Sweep.visit g.sources ⟨first.estimates, []⟩ 1
      decide (g.sources.size = 4 ∧ g.numbering.length = 4 ∧ first.changed ≠ [] ∧
        g.sources.getD 2 [] = [1, 3] ∧ second.estimates.isDefined 3 = true ∧
        second.estimates.meetAll [1] = some 1)) = .ok true := by decide +kernel
  obtain ⟨g, built, size, length, changed, preds, defined, found⟩ := Except.exists_of_test checked
  have first : Sweep.Underway g.sources (g.sweepBound none) 0 g.sources.size _ :=
    Sweep.Underway.start.swept (by omega)
  have second := (first.again changed (by simp [length])).visit (by omega)
  have meets : Estimates.Meets _ (g.sources.getD 2 []) 3 1 := ⟨[1], [], preds, defined, found⟩
  exact ⟨g, built, _, second, meets, (dominators_meetsWell built none).2 _ _ _ second 3 1 meets⟩

end HeapGraph

end Retention
