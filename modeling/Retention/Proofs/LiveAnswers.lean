import Retention.Proofs.LiveParts
import Retention.Proofs.LoadedSnapshots
import Retention.Proofs.Traces
import Retention.Table

namespace Retention

/-- The ids of the objects that the object at `i` refers to strongly. -/
def HeapGraph.heldIds (g : HeapGraph) (i : Nat) : List ObjectId :=
  (g.strongTargets i).filter fun id => (g.lookup id).isSome

theorem HeapGraph.WellFormed.mem_heldIds {g : HeapGraph} (wf : g.WellFormed) {i : Nat} {id : ObjectId} :
    id ∈ g.heldIds i ↔ ∃ k, g.Holds i k ∧ g.idOf k = id := by
  unfold heldIds
  rw [List.mem_filter]
  constructor
  · intro held
    obtain ⟨k, found⟩ := Option.isSome_iff_exists.mp held.2
    exact ⟨k, wf.holds_iff_target.mpr ⟨id, held.1, found⟩, wf.idOf_of_lookup found⟩
  · intro held
    obtain ⟨k, hold, rfl⟩ := held
    have found := wf.lookup_idOf (wf.target_lt hold)
    obtain ⟨id, target, there⟩ := wf.holds_iff_target.mp hold
    have same : g.idOf k = id := wf.idOf_of_lookup there
    rw [found]
    exact ⟨same ▸ target, rfl⟩

namespace Snapshot

/-- Strong references reach an object of this id. -/
def Live (s : Snapshot) (id : ObjectId) : Prop :=
  ∃ i, s.graph.lookup id = some i ∧ s.graph.StronglyReachable i

/-- Two snapshots agree on what is live and on all that they say about its retention. -/
structure SameRetention (s s' : Snapshot) : Prop where
  live : ∀ id, s.Live id ↔ s'.Live id
  dominator : ∀ id, s.Live id → s.dominator id = s'.dominator id
  retainedSize : ∀ id, s.Live id → s.retainedSize id = s'.retainedSize id
  children : ∀ id, s.Live id → s.children id = s'.children id
  dominatorsOf : ∀ id, s.Live id → s.dominatorsOf id = s'.dominatorsOf id
  rooted : s.rooted = s'.rooted
  reachableCount : s.reachableCount = s'.reachableCount
  totalRetained : s.totalRetained = s'.totalRetained
  dominatorDepths : s.dominatorDepths = s'.dominatorDepths
  csv : s.csv = s'.csv

variable {s s' : Snapshot} {id : ObjectId} {i : Nat}

theorem idsOf_map {f : Nat → Nat} {places : List Nat}
    (same : ∀ i ∈ places, s'.graph.idOf (f i) = s.graph.idOf i) : s'.idsOf (places.map f) = s.idsOf places := by
  unfold idsOf
  rw [List.map_map]
  exact List.map_congr_left same

/-- The id of what immediately dominates an object, where that is an object. -/
def idomIdAt (s : Snapshot) (i : Nat) : Option ObjectId :=
  match s.tree.idomOf i with
  | some (.node d) => some (s.graph.idOf d)
  | _ => none

theorem retentionRows_eq (s : Snapshot) : s.retentionRows = (s.graph.sortById s.reachablePlaces).map fun i =>
    ⟨s.graph.idOf i, s.idomIdAt i, s.graph.shallowSizeOf i, s.retained.sizeOf i⟩ := rfl

namespace Loaded

theorem mem_reachablePlaces (l : s.Loaded) : i ∈ s.reachablePlaces ↔ s.graph.StronglyReachable i := by
  unfold reachablePlaces
  rw [List.mem_filter, List.mem_range, l.tree.isReachable_iff]
  constructor
  · exact fun h => h.2
  · exact fun h => ⟨l.wf.stronglyReachable_lt h, h⟩

theorem ascending_reachablePlaces (l : s.Loaded) :
    (s.graph.sortById s.reachablePlaces).Pairwise fun a b => s.graph.idOf a < s.graph.idOf b := by
  apply l.wf.sortById_strict
  · intro i hi
    exact l.wf.stronglyReachable_lt (l.mem_reachablePlaces.mp hi)
  · exact List.nodup_range.filter _

theorem dominator_eq_ok (l : s.Loaded) (found : s.graph.lookup id = some i)
    (reached : s.graph.StronglyReachable i) : s.dominator id = .ok (s.idomIdAt i) := by
  unfold Snapshot.dominator idomIdAt
  rw [l.reachablePlaceOf_eq_ok found reached]
  change (match s.tree.idomOf i with
    | some (.node d) => pure (some (s.graph.idOf d))
    | _ => pure none) = _
  split <;> rfl

theorem dominatorsOf_eq_ok (l : s.Loaded) (found : s.graph.lookup id = some i)
    (reached : s.graph.StronglyReachable i) : s.dominatorsOf id = .ok (s.idsOf (s.tree.chainOf i)) := by
  rw [Snapshot.dominatorsOf, l.reachablePlaceOf_eq_ok found reached]
  rfl

section Twins

variable (l : s.Loaded) (l' : s'.Loaded) (w : s.graph.SameLive s'.graph)

include l l' w

theorem idomIdAt_twin (reached : s.graph.StronglyReachable i) :
    s'.idomIdAt (s.graph.twin s'.graph i) = s.idomIdAt i := by
  unfold idomIdAt
  rw [w.idomOf_twin l.tree l'.tree reached]
  cases hd : s.tree.idomOf i with
  | none => rfl
  | some dominator =>
    cases dominator with
    | superRoot => rfl
    | node d =>
      obtain ⟨-, -, every, -⟩ := (l.tree.below i d).mp hd
      exact congrArg some (w.idOf_twin (every.reachable reached))

theorem sizeOf_twin (reached : s.graph.StronglyReachable i) :
    s'.retained.sizeOf (s.graph.twin s'.graph i) = s.retained.sizeOf i := by
  apply UInt64.toNat_inj.mp
  rw [l.sizes.sizeOf_reached i reached, l'.sizes.sizeOf_reached _ (w.reached_twin reached),
    w.bytesOf_keeps_twin reached]

theorem reachablePlaces_twin : s'.graph.sortById s'.reachablePlaces =
    (s.graph.sortById s.reachablePlaces).map (s.graph.twin s'.graph) := by
  have mem : ∀ i, i ∈ s.graph.sortById s.reachablePlaces ↔ s.graph.StronglyReachable i := by
    intro i
    rw [HeapGraph.mem_sortById, l.mem_reachablePlaces]
  have mem' : ∀ j, j ∈ s'.graph.sortById s'.reachablePlaces ↔ s'.graph.StronglyReachable j := by
    intro j
    rw [HeapGraph.mem_sortById, l'.mem_reachablePlaces]
  apply w.eq_map_twin (fun i hi => (mem i).mp hi) (fun j hj => (mem' j).mp hj) l.ascending_reachablePlaces
    l'.ascending_reachablePlaces
  intro i hi
  rw [mem, mem']
  simp [hi, w.reached_twin hi]

theorem retentionRows_twin : s'.retentionRows = s.retentionRows := by
  rw [retentionRows_eq, retentionRows_eq, reachablePlaces_twin l l' w, List.map_map]
  apply List.map_congr_left
  intro i hi
  have reached := l.mem_reachablePlaces.mp (HeapGraph.mem_sortById.mp hi)
  simp only [Function.comp, w.idOf_twin reached, w.shallowSizeOf_twin reached, sizeOf_twin l l' w reached,
    idomIdAt_twin l l' w reached]

/-- Live parts that agree make all answers about retention agree. -/
theorem sameRetention : s.SameRetention s' := by
  constructor
  case live =>
    intro id
    constructor
    · intro live
      obtain ⟨i, found, reached⟩ := live
      have there := w.lookup_twin reached
      rw [l.wf.idOf_of_lookup found] at there
      exact ⟨_, there, w.reached_twin reached⟩
    · intro live
      obtain ⟨j, found, reached⟩ := live
      have there := w.symm.lookup_twin reached
      rw [l'.wf.idOf_of_lookup found] at there
      exact ⟨_, there, w.symm.reached_twin reached⟩
  case rooted =>
    change s.idsOf s.tree.rooted = s'.idsOf s'.tree.rooted
    rw [w.rooted_twin l.tree l'.tree, idsOf_map fun r hr => w.idOf_twin (l.rooted_reached hr)]
  case reachableCount =>
    change s.tree.reachable = s'.tree.reachable
    have perm := w.members_twin l.tree l'.tree
    rw [DominatorTree.reachable_eq_length, DominatorTree.reachable_eq_length, perm.length_eq, List.length_map]
  case totalRetained =>
    apply UInt64.toNat_inj.mp
    change s.retained.total.toNat = s'.retained.total.toNat
    rw [l.sizes.total_eq, l'.sizes.total_eq, w.bytesOf_stronglyReachable_twin]
  case dominatorDepths =>
    unfold Snapshot.dominatorDepths
    rw [w.layers_twin l.tree l'.tree, List.zipIdx_map, List.map_map]
    simp [Function.comp_def]
  case csv =>
    unfold Snapshot.csv
    rw [retentionRows_twin l l' w]
  all_goals
    intro id live
    obtain ⟨i, found, reached⟩ := live
    have there := w.lookup_twin reached
    have reached' := w.reached_twin reached
    rw [l.wf.idOf_of_lookup found] at there
  case dominator =>
    rw [l.dominator_eq_ok found reached, l'.dominator_eq_ok there reached', idomIdAt_twin l l' w reached]
  case retainedSize =>
    rw [l.retainedSize_eq_ok found reached, l'.retainedSize_eq_ok there reached', sizeOf_twin l l' w reached]
  case children =>
    rw [children_eq_ok found, children_eq_ok there, w.childrenOf_twin l.tree l'.tree reached]
    exact congrArg _ (idsOf_map fun c hc => w.idOf_twin (l.tree.child_below hc).1).symm
  case dominatorsOf =>
    rw [l.dominatorsOf_eq_ok found reached, l'.dominatorsOf_eq_ok there reached',
      w.chainOf_twin l.tree l'.tree reached]
    apply congrArg
    refine (idsOf_map fun d hd => w.idOf_twin ?_).symm
    exact ((l.tree.climbFrom_above _ reached).2 d hd).2.reachable reached

end Twins

end Loaded

/-- Of two streams that load, let the root objects be the same, and let every object that is live in the
first be defined in the second with the same size and strong references to the same defined objects.
Then the same objects are live in both, and all answers about retention agree. -/
theorem retention_of_live {plan plan' : CancelPlan} {expected expected' : Nat} {records records' : List Record}
    (loaded : (plan.run (loadExpecting expected records)).1 = .ok s)
    (loaded' : (plan'.run (loadExpecting expected' records')).1 = .ok s')
    (roots : ∀ id, id ∈ s.roots ↔ id ∈ s'.roots)
    (live : ∀ id i, s.graph.lookup id = some i → s.graph.StronglyReachable i →
      ∃ j, s'.graph.lookup id = some j ∧ s'.graph.shallowSizeOf j = s.graph.shallowSizeOf i ∧
        ∀ target, target ∈ s.graph.heldIds i ↔ target ∈ s'.graph.heldIds j) :
    s.SameRetention s' := by
  obtain ⟨-, l⟩ := loaded_of_load (outcome_of_run loaded)
  obtain ⟨-, l'⟩ := loaded_of_load (outcome_of_run loaded')
  apply l.sameRetention l'
  refine ⟨l.wf, l'.wf, roots, ?_⟩
  intro i reached
  obtain ⟨j, found, size, targets⟩ := live (s.graph.idOf i) i (l.lookup_idOf_reached reached) reached
  refine ⟨j, found, size, ?_⟩
  intro id
  rw [← l.wf.mem_heldIds, ← l'.wf.mem_heldIds, targets id]

/-- The live part of `twoEntryLoop` in another order and with other garbage: an object that is not
reached refers into it, repeated, weak and null references are gone, a reference that dangles is new,
and the root has two other kinds. -/
def prunedLoop : List Record :=
  [.object .instanceObject ⟨⟨5⟩, none, 100, [⟨.field "in", some ⟨2⟩, true⟩]⟩,
    .object .instanceObject ⟨⟨2⟩, none, 11, [⟨.field "on", some ⟨3⟩, true⟩]⟩,
    .object .primitiveArray ⟨⟨4⟩, none, 13, []⟩,
    .root ⟨1⟩ .javaFrame, .root ⟨1⟩ .debugger,
    .object .instanceObject ⟨⟨1⟩, none, 7, [⟨.field "b", some ⟨3⟩, true⟩, ⟨.field "a", some ⟨2⟩, true⟩]⟩,
    .object .instanceObject ⟨⟨3⟩, none, 5, [⟨.field "gone", some ⟨6⟩, true⟩, ⟨.field "back", some ⟨2⟩, true⟩]⟩]

theorem exists_load_prunedLoop : ∃ s, (loadExpecting 7 prunedLoop).outcome.1 = .ok s :=
  exists_load_of_small rfl (by decide +kernel)

/-- Each object of the loop has its twin in the pruned loop. -/
theorem build_prunedLoop {g h : HeapGraph} (built : (HeapGraph.build 6 HeapGraph.twoEntryLoop).outcome.1 = .ok g)
    (built' : (HeapGraph.build 7 prunedLoop).outcome.1 = .ok h) :
    g.roots.map g.idOf = h.roots.map h.idOf ∧ ∀ i ∈ List.range g.size, ∃ j ∈ List.range h.size,
      h.lookup (g.idOf i) = some j ∧ h.shallowSizeOf j = g.shallowSizeOf i ∧
        g.heldIds i ⊆ h.heldIds j ∧ h.heldIds j ⊆ g.heldIds i := by
  have known : (HeapGraph.build 6 HeapGraph.twoEntryLoop).outcome.1.bind (fun g =>
      (HeapGraph.build 7 prunedLoop).outcome.1.map fun h =>
        decide (g.roots.map g.idOf = h.roots.map h.idOf ∧ ∀ i ∈ List.range g.size, ∃ j ∈ List.range h.size,
          h.lookup (g.idOf i) = some j ∧ h.shallowSizeOf j = g.shallowSizeOf i ∧
            g.heldIds i ⊆ h.heldIds j ∧ h.heldIds j ⊆ g.heldIds i)) = .ok true := rfl
  rw [built, built'] at known
  exact of_decide_eq_true (Except.ok.inj known)

theorem retention_of_live_prunedLoop : ∃ s s',
    (CancelPlan.never.run (loadExpecting 6 HeapGraph.twoEntryLoop)).1 = .ok s ∧
    (CancelPlan.never.run (loadExpecting 7 prunedLoop)).1 = .ok s' ∧
    s.Live ⟨1⟩ ∧ s.SameRetention s' := by
  obtain ⟨s, loaded⟩ := exists_load_twoEntryLoop
  obtain ⟨s', loaded'⟩ := exists_load_prunedLoop
  obtain ⟨built, l⟩ := loaded_of_load loaded
  obtain ⟨built', -⟩ := loaded_of_load loaded'
  obtain ⟨roots, -, first, -, -⟩ := build_twoEntryLoop built
  obtain ⟨sameRoots, twins⟩ := build_prunedLoop built built'
  rw [← CancelPlan.run_never] at loaded loaded'
  refine ⟨s, s', loaded, loaded', ⟨1, first, [1], .root (roots ▸ List.mem_singleton_self 1)⟩, ?_⟩
  apply retention_of_live loaded loaded'
  · intro id
    change id ∈ s.graph.roots.map s.graph.idOf ↔ id ∈ s'.graph.roots.map s'.graph.idOf
    rw [sameRoots]
  · intro id i found reached
    obtain ⟨j, -, there, shallow, sub, sup⟩ := twins i (List.mem_range.mpr (l.wf.lookup_lt found))
    rw [l.wf.idOf_of_lookup found] at there
    exact ⟨j, there, shallow, fun target => ⟨fun h => sub h, fun h => sup h⟩⟩

end Snapshot

end Retention
