import Retention.Proofs.RetainedBytes
import Retention.Proofs.TrailSearches
import Retention.Snapshot

namespace Retention

namespace Snapshot

/-- What is known of a snapshot once it is loaded. -/
structure Loaded (s : Snapshot) : Prop where
  wf : s.graph.WellFormed
  tree : s.graph.IsDominatorTree s.tree
  sizes : s.retained.Right s.graph

variable {s : Snapshot} {id : ObjectId} {i : Nat}

/-- A heap that was built is always analysed; only its retained sizes can fail. -/
theorem ofGraph_returns {g : HeapGraph} (wf : g.WellFormed) :
    ∃ t, g.IsDominatorTree t ∧ (ofGraph g).Returns
      (RetainedSizes.computed g t >>= fun retained => .ok ⟨g, t, retained, g.trails⟩) := by
  obtain ⟨t, tree, few, returns⟩ := wf.exists_dominators
  have found := returns none (by change t.passes ≤ t.reachable + 4; omega)
  have sized := (RetainedSizes.compute_runsUnpolled g t).returns.bind_result fun retained =>
    Load.runsBy_pure (⟨g, t, retained, g.trails⟩ : Snapshot)
  exact ⟨t, tree, found.bind sized⟩

/-- The announced length of a stream does not matter. -/
theorem build_returns_outcome (announced expected : Nat) (records : List Record) :
    (HeapGraph.build announced records).Returns (HeapGraph.build expected records).outcome.1 := by
  rw [(HeapGraph.build_returns expected records).outcome_eq]
  exact HeapGraph.build_returns announced records

theorem load_returns {expected : Nat} {records : List Record} {g : HeapGraph}
    (built : (HeapGraph.build expected records).outcome.1 = .ok g) :
    ∃ t, g.IsDominatorTree t ∧ ∀ announced, (loadExpecting announced records).Returns
      (RetainedSizes.computed g t >>= fun retained => .ok ⟨g, t, retained, g.trails⟩) := by
  obtain ⟨t, tree, analysed⟩ := ofGraph_returns (HeapGraph.WellFormed.of_build built)
  refine ⟨t, tree, fun announced => ?_⟩
  have graph := build_returns_outcome announced expected records
  rw [built] at graph
  exact graph.bind analysed

theorem load_of_refused {expected : Nat} {records : List Record} {error : LoadError}
    (refused : (HeapGraph.build expected records).outcome.1 = .error error) :
    (loadExpecting expected records).outcome.1 = .error error := by
  have graph := build_returns_outcome expected expected records
  rw [refused] at graph
  exact (graph.bind_error _).outcome_eq

theorem exists_result (expected : Nat) (records : List Record) :
    ∃ result, (loadExpecting expected records).Returns result := by
  have graph := build_returns_outcome expected expected records
  cases built : (HeapGraph.build expected records).outcome.1 with
  | error error =>
    rw [built] at graph
    exact ⟨_, graph.bind_error _⟩
  | ok g =>
    obtain ⟨t, -, returns⟩ := load_returns built
    exact ⟨_, returns expected⟩

theorem outcome_of_run {plan : CancelPlan} {expected : Nat} {records : List Record}
    (h : (plan.run (loadExpecting expected records)).1 = .ok s) :
    (loadExpecting expected records).outcome.1 = .ok s := by
  obtain ⟨result, returns⟩ := exists_result expected records
  exact CancelPlan.outcome_of_run returns h

/-- What a loaded snapshot consists of. -/
theorem analysis_of_load {expected : Nat} {records : List Record}
    (h : (loadExpecting expected records).outcome.1 = .ok s) :
    (HeapGraph.build expected records).outcome.1 = .ok s.graph ∧ s.graph.IsDominatorTree s.tree ∧
      RetainedSizes.computed s.graph s.tree = .ok s.retained ∧ s.trails = s.graph.trails := by
  cases built : (HeapGraph.build expected records).outcome.1 with
  | error error =>
    rw [load_of_refused built] at h
    cases h
  | ok g =>
    obtain ⟨t, tree, returns⟩ := load_returns built
    rw [(returns expected).outcome_eq] at h
    obtain ⟨retained, sized, same⟩ := Except.bind_eq_ok.mp h
    obtain rfl := Except.ok.inj same
    exact ⟨rfl, tree, sized, rfl⟩

theorem loaded_of_load {expected : Nat} {records : List Record}
    (h : (loadExpecting expected records).outcome.1 = .ok s) :
    (HeapGraph.build expected records).outcome.1 = .ok s.graph ∧ s.Loaded := by
  obtain ⟨built, tree, sized, -⟩ := analysis_of_load h
  have wf := HeapGraph.WellFormed.of_build built
  exact ⟨built, wf, tree, RetainedSizes.right_of_computed tree wf sized⟩

theorem trailOf_of_load {expected : Nat} {records : List Record}
    (h : (loadExpecting expected records).outcome.1 = .ok s) (i : Nat) :
    s.trailOf i = s.graph.fullSearch.trailOf i := by
  obtain ⟨-, -, -, trails⟩ := analysis_of_load h
  rw [trailOf, trails, HeapGraph.trails_eq]
  rfl

theorem load_of_loadExpecting {expected : Nat} {records : List Record}
    (h : (loadExpecting expected records).outcome.1 = .ok s) : (load records).outcome.1 = .ok s := by
  obtain ⟨built, -⟩ := analysis_of_load h
  obtain ⟨t, -, returns⟩ := load_returns built
  rw [load, (returns records.length).outcome_eq, ← (returns expected).outcome_eq, h]

/-- A heap that was built gives a snapshot, or the size of all that is reached does not fit. -/
theorem load_cases {expected : Nat} {records : List Record} {g : HeapGraph}
    (built : (HeapGraph.build expected records).outcome.1 = .ok g) :
    (∃ s, (loadExpecting expected records).outcome.1 = .ok s) ∧ g.bytesOf g.StronglyReachable < UInt64.size ∨
      (loadExpecting expected records).outcome.1 = .error .overflow ∧
        ¬ g.bytesOf g.StronglyReachable < UInt64.size := by
  obtain ⟨t, tree, returns⟩ := load_returns built
  have fits := RetainedSizes.exists_computed_iff tree (HeapGraph.WellFormed.of_build built)
  rw [(returns expected).outcome_eq, ← fits]
  cases sized : RetainedSizes.computed g t with
  | ok retained => exact .inl ⟨⟨_, rfl⟩, retained, rfl⟩
  | error error =>
    obtain rfl := RetainedSizes.eq_overflow sized
    refine .inr ⟨rfl, fun other => ?_⟩
    obtain ⟨_, h⟩ := other
    cases h

theorem exists_load {expected : Nat} {records : List Record} {g : HeapGraph}
    (built : (HeapGraph.build expected records).outcome.1 = .ok g)
    (fits : g.bytesOf g.StronglyReachable < UInt64.size) :
    ∃ s, (loadExpecting expected records).outcome.1 = .ok s := by
  obtain ⟨t, tree, returns⟩ := load_returns built
  obtain ⟨retained, sized⟩ :=
    (RetainedSizes.exists_computed_iff tree (HeapGraph.WellFormed.of_build built)).mpr fits
  exact ⟨_, (returns expected).outcome_eq.trans (Except.bind_eq_ok.mpr ⟨retained, sized, rfl⟩)⟩

/-- It is enough that all objects together fit. -/
theorem exists_load_of_small {expected : Nat} {records : List Record} {g : HeapGraph}
    (built : (HeapGraph.build expected records).outcome.1 = .ok g)
    (small : ∑ i ∈ Finset.range g.size, (g.shallowSizeOf i).toNat < UInt64.size) :
    ∃ s, (loadExpecting expected records).outcome.1 = .ok s :=
  exists_load built (Nat.lt_of_le_of_lt (HeapGraph.bytesOf_le_all _ _) small)

theorem placeOf_eq_ok (found : s.graph.lookup id = some i) : s.placeOf id = .ok i := by
  rw [placeOf, found]

theorem children_eq_ok (found : s.graph.lookup id = some i) :
    s.children id = .ok (s.idsOf (s.tree.childrenOf i)) := by
  rw [Snapshot.children, placeOf_eq_ok found]
  rfl

theorem path_eq_ok (found : s.graph.lookup id = some i) {trail : Trail} (ht : s.trailOf i = some trail) :
    s.path id = .ok (s.steps (some i) trail).reverse := by
  unfold path
  refine Except.bind_eq_ok.mpr ⟨i, placeOf_eq_ok found, ?_⟩
  rw [ht]
  rfl

/-- The place of what immediately dominates an object, where that is an object. -/
def idomPlaceAt (s : Snapshot) (i : Nat) : Option Nat :=
  match s.tree.idomOf i with
  | some (.node d) => some d
  | _ => none

theorem steps_cons (s : Snapshot) (awaited : Option Nat) (stop : Stop) (before : Trail) :
    s.steps awaited (stop :: before) =
      ⟨s.graph.idOf stop.place, s.labelOf stop.via before, awaited == some stop.place⟩ ::
        s.steps (if awaited == some stop.place then s.idomPlaceAt stop.place else awaited) before := rfl

namespace Loaded

theorem reachablePlaceOf_eq_ok (l : s.Loaded) (found : s.graph.lookup id = some i)
    (reached : s.graph.StronglyReachable i) : s.reachablePlaceOf id = .ok i := by
  unfold reachablePlaceOf
  refine Except.bind_eq_ok.mpr ⟨i, placeOf_eq_ok found, ?_⟩
  rw [if_pos (l.tree.isReachable_iff.mpr reached)]
  rfl

theorem retainedSize_eq_ok (l : s.Loaded) (found : s.graph.lookup id = some i)
    (reached : s.graph.StronglyReachable i) : s.retainedSize id = .ok (s.retained.sizeOf i) := by
  rw [retainedSize, l.reachablePlaceOf_eq_ok found reached]
  rfl

theorem ofChildren_eq_some (l : s.Loaded) (reached : s.graph.StronglyReachable i) :
    RetainedSizes.ofChildren s.graph s.tree s.retained.sizes i = some (s.retained.sizeOf i) := by
  rw [RetainedSizes.ofChildren_eq_some_iff, l.sizes.sizeOf_reached i reached,
    l.tree.bytesOf_keeps l.wf reached]
  congr 2
  refine List.map_congr_left fun c hc => ?_
  exact (l.sizes.sizeOf_reached c (l.tree.child_below hc).1).symm

theorem lookup_eq_ok (l : s.Loaded) (found : s.graph.lookup id = some i) :
    ∃ n, s.graph.node? i = some n ∧
      s.lookup id = .ok ⟨n, s.retained.sizeOf i, s.idomAt i, s.reachabilityAt i⟩ := by
  obtain ⟨n, hn, -⟩ := (l.wf.lookup_iff id i).mp found
  refine ⟨n, hn, ?_⟩
  unfold Snapshot.lookup
  refine Except.bind_eq_ok.mpr ⟨i, placeOf_eq_ok found, ?_⟩
  rw [hn]
  rfl

theorem rooted_reached (l : s.Loaded) {r : Nat} (hr : r ∈ s.tree.rooted) : s.graph.StronglyReachable r :=
  l.tree.stronglyReachable_of_idom ((l.tree.mem_rooted r).mp hr)

theorem lookup_idOf_reached (l : s.Loaded) (reached : s.graph.StronglyReachable i) :
    s.graph.lookup (s.graph.idOf i) = some i :=
  l.wf.lookup_idOf (l.wf.stronglyReachable_lt reached)

theorem nodup_rooted (l : s.Loaded) : s.rooted.Nodup := by
  refine List.Nodup.map_on ?_ l.tree.nodup_rooted
  intro a ha b hb same
  exact l.wf.idOf_inj (l.wf.stronglyReachable_lt (l.rooted_reached ha))
    (l.wf.stronglyReachable_lt (l.rooted_reached hb)) same

/-- The retained sizes of the objects right below the super-root. -/
theorem mapM_retainedSize_rooted (l : s.Loaded) :
    s.rooted.mapM s.retainedSize = .ok (s.tree.rooted.map s.retained.sizeOf) := by
  refine mapM_eq_ok ?_
  intro r hr
  have reached := l.rooted_reached hr
  exact l.retainedSize_eq_ok (l.lookup_idOf_reached reached) reached

theorem sum_rooted (l : s.Loaded) :
    ((s.tree.rooted.map s.retained.sizeOf).map UInt64.toNat).sum = s.totalRetained.toNat := by
  change _ = s.retained.total.toNat
  rw [l.sizes.total_eq, l.tree.bytesOf_stronglyReachable, List.map_map]
  congr 1
  exact List.map_congr_left fun r hr => l.sizes.sizeOf_reached r (l.rooted_reached hr)

/-- Every object that is reached is kept by exactly one object right below the super-root. -/
theorem existsUnique_rooted (l : s.Loaded) (reached : s.graph.StronglyReachable i) :
    ∃! r, r ∈ s.tree.rooted ∧ s.graph.Keeps r i := by
  obtain ⟨r, hr, keeps⟩ := l.tree.stronglyReachable_iff_rooted.mp reached
  refine ⟨r, ⟨hr, keeps⟩, ?_⟩
  rintro other ⟨ho, also⟩
  exact l.tree.apart_rooted other ho r hr i also keeps

end Loaded

/-- An object retains itself and what is lost without it, objects that are not reached retain nothing,
and the objects right below the super-root together retain all that is reached, each object once. -/
theorem retainedSize_lost {plan : CancelPlan} {expected : Nat} {records : List Record}
    (h : (plan.run (loadExpecting expected records)).1 = .ok s) :
    (HeapGraph.build expected records).outcome.1 = .ok s.graph ∧
    (∀ id i, s.graph.lookup id = some i → s.graph.StronglyReachable i →
      ∃ size, s.retainedSize id = .ok size ∧ size.toNat = s.graph.bytesOf fun j =>
        s.graph.StronglyReachable j ∧ (j = i ∨ ¬ (s.graph.delete i).StronglyReachable j)) ∧
    (∀ id i, s.graph.lookup id = some i → ¬ s.graph.StronglyReachable i →
      ∃ view, s.lookup id = .ok view ∧ view.retainedSize = 0) ∧
    s.totalRetained.toNat = s.graph.bytesOf s.graph.StronglyReachable ∧
    (∃ sizes, s.rooted.mapM s.retainedSize = .ok sizes ∧
      s.totalRetained.toNat = (sizes.map UInt64.toNat).sum) ∧
    s.rooted.Nodup ∧
    ∀ j, s.graph.StronglyReachable j → ∃! r, r ∈ s.tree.rooted ∧
      s.graph.StronglyReachable j ∧ (j = r ∨ ¬ (s.graph.delete r).StronglyReachable j) := by
  obtain ⟨built, l⟩ := loaded_of_load (outcome_of_run h)
  refine ⟨built, ?_, ?_, l.sizes.total_eq, ⟨_, l.mapM_retainedSize_rooted, l.sum_rooted.symm⟩,
    l.nodup_rooted, ?_⟩
  · intro id i found reached
    refine ⟨_, l.retainedSize_eq_ok found reached, ?_⟩
    rw [l.sizes.sizeOf_reached i reached]
    exact HeapGraph.bytesOf_congr fun j => HeapGraph.keeps_iff_delete
  · intro id i found unreached
    obtain ⟨n, -, answer⟩ := l.lookup_eq_ok found
    exact ⟨_, answer, l.sizes.sizeOf_unreached i unreached⟩
  · intro j reached
    have one := l.existsUnique_rooted reached
    simpa only [HeapGraph.keeps_iff_delete] using one

theorem exists_load_twoEntryLoop : ∃ s, (loadExpecting 6 HeapGraph.twoEntryLoop).outcome.1 = .ok s :=
  exists_load_of_small rfl (by decide +kernel)

theorem build_twoEntryLoop {g : HeapGraph}
    (built : (HeapGraph.build 6 HeapGraph.twoEntryLoop).outcome.1 = .ok g) :
    g.roots = [1] ∧ g.size = 4 ∧ g.lookup ⟨1⟩ = some 1 ∧ g.lookup ⟨4⟩ = some 3 ∧
      ∀ u ∈ List.range 4, 3 ∉ (g.node? u).elim [] Node.successors := by
  have known : (HeapGraph.build 6 HeapGraph.twoEntryLoop).outcome.1.map (fun g =>
      decide (g.roots = [1] ∧ g.size = 4 ∧ g.lookup ⟨1⟩ = some 1 ∧ g.lookup ⟨4⟩ = some 3 ∧
        ∀ u ∈ List.range 4, 3 ∉ (g.node? u).elim [] Node.successors)) = .ok true := rfl
  rw [built] at known
  exact of_decide_eq_true (Except.ok.inj known)

theorem retainedSize_lost_twoEntryLoop : ∃ s,
    (CancelPlan.never.run (loadExpecting 6 HeapGraph.twoEntryLoop)).1 = .ok s ∧
    (s.graph.lookup ⟨1⟩ = some 1 ∧ s.graph.StronglyReachable 1 ∧
      ∃ size, s.retainedSize ⟨1⟩ = .ok size ∧ size.toNat = s.graph.bytesOf fun j =>
        s.graph.StronglyReachable j ∧ (j = 1 ∨ ¬ (s.graph.delete 1).StronglyReachable j)) ∧
    (s.graph.lookup ⟨4⟩ = some 3 ∧ ¬ s.graph.StronglyReachable 3 ∧
      ∃ view, s.lookup ⟨4⟩ = .ok view ∧ view.retainedSize = 0) ∧
    s.totalRetained.toNat = s.graph.bytesOf s.graph.StronglyReachable := by
  obtain ⟨s, loaded⟩ := exists_load_twoEntryLoop
  rw [← CancelPlan.run_never] at loaded
  obtain ⟨built, kept, unkept, total, -⟩ := retainedSize_lost loaded
  obtain ⟨roots, size, first, fourth, edges⟩ := build_twoEntryLoop built
  have reached : s.graph.StronglyReachable 1 := ⟨[1], .root (roots ▸ List.mem_singleton_self 1)⟩
  have unreached : ¬ s.graph.StronglyReachable 3 := by
    rintro ⟨path, hp⟩
    cases hp with
    | root hr =>
      rw [roots] at hr
      exact absurd hr (by decide)
    | step _ hold =>
      have inside := HeapGraph.holds_lt hold
      rw [size] at inside
      exact edges _ (List.mem_range.mpr inside) (HeapGraph.holds_iff.mp hold)
  exact ⟨s, loaded, ⟨first, reached, kept _ 1 first reached⟩, ⟨fourth, unreached, unkept _ 3 fourth unreached⟩, total⟩

end Snapshot

end Retention
