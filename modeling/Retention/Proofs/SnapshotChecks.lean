import Retention.CommandLine.Run
import Retention.Proofs.LoadedSnapshots
import Retention.Proofs.Traces
import Retention.Proofs.TreeLayers

namespace Retention

/-- Ids in ascending order are told by their members. -/
theorem ObjectId.eq_of_ascending {ids others : List ObjectId} (h : ids.Pairwise fun a b => compare a b = .lt)
    (k : others.Pairwise fun a b => compare a b = .lt) (same : ∀ id, id ∈ ids ↔ id ∈ others) : ids = others := by
  have distinct : ∀ {ids : List ObjectId}, (ids.Pairwise fun a b => compare a b = .lt) → ids.Nodup := by
    intro ids sorted
    refine sorted.imp ?_
    intro a b hlt equal
    rw [compare_eq_iff.mpr equal] at hlt
    cases hlt
  have perm := (List.perm_ext_iff_of_nodup (distinct h) (distinct k)).mpr same
  refine perm.eq_of_pairwise ?_ h k
  intro a b _ _ hab hba
  rw [Std.OrientedOrd.eq_swap, hba] at hab
  cases hab

namespace HeapGraph

theorem bytesOf_eq_sum (g : HeapGraph) {p : Nat → Prop} {holds : Nat → Bool} (h : ∀ i, holds i = true ↔ p i) :
    g.bytesOf p = ((List.range g.size).map fun i => if holds i then (g.shallowSizeOf i).toNat else 0).sum := by
  classical
  unfold bytesOf
  rw [Finset.sum_filter]
  exact Finset.sum_congr rfl fun i _ => if_congr (h i).symm rfl rfl

end HeapGraph

namespace Snapshot

variable {s : Snapshot} {id : ObjectId} {i : Nat}

theorem askFor_eq_ok {α : Type} {answer : Except QueryError α} {a : α} (h : answer = .ok a) :
    askFor answer = .ok a := by
  rw [h, askFor]

theorem ensure_eq_ok {condition : Bool} {fault : CheckFault} (h : condition = true) :
    ensure condition fault = .ok () := by
  rw [ensure, if_pos h]

theorem sumOrFault_eq_ok {sum : Option UInt64} {size : UInt64} (h : sum = some size) :
    sumOrFault sum = .ok size := by
  rw [h, sumOrFault]

/-- The shallow size of an object where it is reached, and otherwise nothing. -/
def countedBytes (s : Snapshot) (i : Nat) : Nat :=
  if s.tree.isReachable i then (s.graph.shallowSizeOf i).toNat else 0

namespace Loaded

theorem mem_traced (l : s.Loaded) :
    id ∈ s.graph.traced none ↔ ∃ i, s.graph.lookup id = some i ∧ s.graph.StronglyReachable i := by
  simp only [l.wf.mem_traced, HeapGraph.tracedTo_none]

theorem idOf_mem_traced (l : s.Loaded) (hi : i < s.graph.size) :
    s.graph.idOf i ∈ s.graph.traced none ↔ s.graph.StronglyReachable i := by
  rw [l.mem_traced, l.wf.lookup_idOf hi]
  simp

/-- Everything in the tree is traced, once. -/
theorem size_traced (l : s.Loaded) : (s.graph.traced none).size = s.reachableCount := by
  have inside : ∀ i ∈ s.tree.members, s.graph.StronglyReachable i := by
    intro i hi
    rw [DominatorTree.mem_members] at hi
    exact l.tree.isReachable_iff.mp hi
  have nodup : (s.tree.members.map s.graph.idOf).Nodup := by
    refine List.Nodup.map_on ?_ s.tree.nodup_members
    intro a ha b hb same
    exact l.wf.idOf_inj (l.wf.stronglyReachable_lt (inside a ha)) (l.wf.stronglyReachable_lt (inside b hb)) same
  have distinct : (s.graph.traced none).toList.Nodup :=
    Std.TreeSet.distinct_toList.imp fun hne same => hne (ObjectId.compare_eq_iff.mpr same)
  have perm : (s.graph.traced none).toList.Perm (s.tree.members.map s.graph.idOf) := by
    rw [List.perm_ext_iff_of_nodup distinct nodup]
    intro id
    rw [Std.TreeSet.mem_toList, l.mem_traced, List.mem_map]
    constructor
    · rintro ⟨i, found, reached⟩
      exact ⟨i, DominatorTree.mem_members.mpr (l.tree.isReachable_iff.mpr reached), l.wf.idOf_of_lookup found⟩
    · rintro ⟨i, hi, rfl⟩
      exact ⟨i, l.lookup_idOf_reached (inside i hi), inside i hi⟩
  rw [← Std.TreeSet.length_toList, perm.length_eq, List.length_map, reachableCount,
    DominatorTree.reachable_eq_length]

theorem mapM_children (l : s.Loaded) (i : Nat) :
    (s.idsOf (s.tree.childrenOf i)).mapM (fun c => (askFor (s.lookup c)).map ObjectView.retainedSize) =
      .ok ((s.tree.childrenOf i).map s.retained.sizeOf) := by
  refine mapM_eq_ok ?_
  intro c hc
  obtain ⟨m, -, answer⟩ := l.lookup_eq_ok (l.lookup_idOf_reached (l.tree.child_below hc).1)
  rw [askFor_eq_ok answer]
  rfl

/-- What the tree names as an immediate dominator is traced. -/
theorem idomAt_traced (l : s.Loaded) {d : ObjectId} (h : s.idomAt i = some (.object d)) :
    (s.graph.traced none).contains d = true := by
  unfold idomAt at h
  obtain ⟨dominator, hd, named⟩ := Option.map_eq_some_iff.mp h
  cases dominator with
  | superRoot => cases named
  | node j =>
    obtain rfl := Idom.object.inj named
    obtain ⟨reached, -, every, -⟩ := (l.tree.below i j).mp hd
    have above := every.reachable reached
    exact Std.TreeSet.contains_iff_mem.mpr ((l.idOf_mem_traced (l.wf.stronglyReachable_lt above)).mpr above)

theorem checkObject_reached (l : s.Loaded) (reached : s.graph.StronglyReachable i) {sum next : UInt64}
    (added : next.toNat = sum.toNat + (s.graph.shallowSizeOf i).toNat) :
    s.checkObject (s.graph.traced none) sum (s.graph.idOf i) = .ok next := by
  have hi := l.wf.stronglyReachable_lt reached
  have found := l.wf.lookup_idOf hi
  have marked := Std.TreeSet.contains_iff_mem.mpr ((l.idOf_mem_traced hi).mpr reached)
  obtain ⟨n, hn, view⟩ := l.lookup_eq_ok found
  have shallow : s.graph.shallowSizeOf i = n.shallowSize := by rw [HeapGraph.shallowSizeOf, hn]; rfl
  obtain ⟨below, summed, whole⟩ := Option.bind_eq_some_iff.mp (l.ofChildren_eq_some reached)
  rw [shallow] at added whole
  have own : n.shallowSize ≤ s.retained.sizeOf i := by
    rw [UInt64.le_iff_toNat_le, Size.add?_eq_some_iff.mp whole]
    exact Nat.le_add_right _ _
  unfold checkObject
  refine Except.bind_eq_ok.mpr ⟨_, askFor_eq_ok view, ?_⟩
  rw [if_neg (by simp [marked])]
  refine Except.bind_eq_ok.mpr ⟨next, sumOrFault_eq_ok (Size.add?_eq_some_iff.mpr added), ?_⟩
  refine Except.bind_eq_ok.mpr ⟨(), ensure_eq_ok (decide_eq_true own), ?_⟩
  refine Except.bind_eq_ok.mpr ⟨_, askFor_eq_ok (children_eq_ok found), ?_⟩
  refine Except.bind_eq_ok.mpr ⟨_, l.mapM_children i, ?_⟩
  refine Except.bind_eq_ok.mpr ⟨below, sumOrFault_eq_ok summed, ?_⟩
  refine Except.bind_eq_ok.mpr ⟨_, sumOrFault_eq_ok whole, ?_⟩
  refine Except.bind_eq_ok.mpr ⟨(), ensure_eq_ok (beq_self_eq_true _), ?_⟩
  refine Except.bind_eq_ok.mpr ⟨i, askFor_eq_ok (l.reachablePlaceOf_eq_ok found reached), ?_⟩
  refine Except.bind_eq_ok.mpr ⟨(), ensure_eq_ok (decide_eq_true (l.tree.depthOf_lt l.wf reached)), ?_⟩
  split
  · rename_i d h
    exact Except.bind_eq_ok.mpr ⟨(), ensure_eq_ok (l.idomAt_traced h), rfl⟩
  · rfl

theorem checkObject_unreached (l : s.Loaded) (hi : i < s.graph.size) (unreached : ¬ s.graph.StronglyReachable i)
    (sum : UInt64) : s.checkObject (s.graph.traced none) sum (s.graph.idOf i) = .ok sum := by
  have unmarked : (s.graph.traced none).contains (s.graph.idOf i) = false := by
    rw [← Bool.not_eq_true, Std.TreeSet.contains_iff_mem, l.idOf_mem_traced hi]
    exact unreached
  have none : s.idomAt i = none := by rw [idomAt, (l.tree.unreached i).mpr unreached]; rfl
  obtain ⟨n, -, view⟩ := l.lookup_eq_ok (l.wf.lookup_idOf hi)
  rw [none, l.sizes.sizeOf_unreached i unreached] at view
  unfold checkObject
  refine Except.bind_eq_ok.mpr ⟨_, askFor_eq_ok view, ?_⟩
  rw [if_pos (by simp [unmarked])]
  rfl

/-- Going through objects in any order adds up what is reached of them. -/
theorem foldlM_checkObject (l : s.Loaded) (places : List Nat) (sum : UInt64)
    (inside : ∀ i ∈ places, i < s.graph.size) (fits : sum.toNat + (places.map s.countedBytes).sum < UInt64.size) :
    ∃ last, (s.idsOf places).foldlM (s.checkObject (s.graph.traced none)) sum = .ok last ∧
      last.toNat = sum.toNat + (places.map s.countedBytes).sum := by
  induction places generalizing sum with
  | nil => exact ⟨sum, rfl, rfl⟩
  | cons i rest ih =>
    rw [List.map_cons, List.sum_cons] at fits
    have hi := inside i List.mem_cons_self
    obtain ⟨next, checked, added⟩ : ∃ next : UInt64,
        s.checkObject (s.graph.traced none) sum (s.graph.idOf i) = .ok next ∧
          next.toNat = sum.toNat + s.countedBytes i := by
      by_cases reached : s.graph.StronglyReachable i
      · have counted : s.countedBytes i = (s.graph.shallowSizeOf i).toNat := by
          rw [countedBytes, if_pos (l.tree.isReachable_iff.mpr reached)]
        have added := Size.toNat_add_of_fits (a := sum) (b := s.graph.shallowSizeOf i) (by omega)
        exact ⟨_, l.checkObject_reached reached added, counted ▸ added⟩
      · have counted : s.countedBytes i = 0 := by
          rw [countedBytes, if_neg fun h => reached (l.tree.isReachable_iff.mp h)]
        exact ⟨sum, l.checkObject_unreached hi reached sum, by omega⟩
    obtain ⟨last, run, total⟩ := ih next (fun j hj => inside j (List.mem_cons_of_mem _ hj)) (by omega)
    refine ⟨last, ?_, ?_⟩
    · change List.foldlM _ sum (s.graph.idOf i :: s.idsOf rest) = _
      rw [List.foldlM_cons]
      exact Except.bind_eq_ok.mpr ⟨next, checked, run⟩
    · rw [List.map_cons, List.sum_cons]
      omega

theorem sanityTrace_eq_ok (l : s.Loaded) : s.sanityTrace = .ok s.reachableCount := by
  have whole : ((s.graph.sortById (List.range s.graph.size)).map s.countedBytes).sum =
      s.totalRetained.toNat := by
    rw [((s.graph.perm_sortById _).map _).sum_eq]
    exact (s.graph.bytesOf_eq_sum fun i => l.tree.isReachable_iff).symm.trans l.sizes.total_eq.symm
  obtain ⟨last, run, total⟩ := l.foldlM_checkObject (s.graph.sortById (List.range s.graph.size)) 0
    (fun i hi => List.mem_range.mp (HeapGraph.mem_sortById.mp hi))
    (by rw [whole, UInt64.toNat_zero, Nat.zero_add]; exact s.totalRetained.toNat_lt_size)
  have same : s.totalRetained = last := by
    rw [← UInt64.toNat_inj, total, whole, UInt64.toNat_zero, Nat.zero_add]
  unfold sanityTrace
  refine Except.bind_eq_ok.mpr ⟨(), ensure_eq_ok (beq_iff_eq.mpr l.size_traced), ?_⟩
  refine Except.bind_eq_ok.mpr ⟨last, run, ?_⟩
  refine Except.bind_eq_ok.mpr ⟨(), ensure_eq_ok (beq_iff_eq.mpr same), ?_⟩
  rw [l.size_traced]
  rfl

/-- The objects below an object are the others that it keeps. -/
theorem mem_layers_below (l : s.Loaded) (reached : s.graph.StronglyReachable i) :
    (s.tree.layersFrom s.tree.idom.size (s.tree.childrenOf i)).flatten.Nodup ∧
      ∀ v, v ∈ (s.tree.layersFrom s.tree.idom.size (s.tree.childrenOf i)).flatten ↔
        v ≠ i ∧ s.graph.Keeps i v := by
  have room : ∀ v, (∃ c ∈ s.tree.childrenOf i, s.graph.Keeps c v) → v ∈ List.range s.graph.size := by
    rintro v ⟨c, -, keeps⟩
    exact List.mem_range.mpr (l.wf.stronglyReachable_lt keeps.1)
  have enough : (List.range s.graph.size).length ≤ s.tree.idom.size := by
    rw [List.length_range, l.tree.size_idom]
  obtain ⟨nodup, mem⟩ := (HeapGraph.IsLayer.of_childrenOf l.tree i).layersFrom l.tree room enough
  refine ⟨nodup, fun v => ?_⟩
  rw [mem v, l.tree.keeps_iff reached]
  constructor
  · rintro ⟨c, hc, keeps⟩
    refine ⟨?_, .inr ⟨c, hc, keeps⟩⟩
    rintro rfl
    exact l.tree.not_keeps_parent hc keeps
  · rintro ⟨hne, keeps⟩
    exact keeps.resolve_left hne

theorem mem_dominatedBy (l : s.Loaded) (reached : s.graph.StronglyReachable i) :
    id ∈ s.dominatedBy i ↔ ∃ v, s.graph.lookup id = some v ∧ v ≠ i ∧ s.graph.Keeps i v := by
  unfold dominatedBy idsOf
  rw [List.mem_map]
  simp only [HeapGraph.mem_sortById, (l.mem_layers_below reached).2]
  constructor
  · rintro ⟨v, ⟨hne, keeps⟩, rfl⟩
    exact ⟨v, l.lookup_idOf_reached keeps.1, hne, keeps⟩
  · rintro ⟨v, place, below⟩
    exact ⟨v, below, l.wf.idOf_of_lookup place⟩

theorem ascending_dominatedBy (l : s.Loaded) (reached : s.graph.StronglyReachable i) :
    (s.dominatedBy i).Pairwise fun a b => compare a b = .lt := by
  obtain ⟨nodup, mem⟩ := l.mem_layers_below reached
  have inside : ∀ v ∈ (s.tree.layersFrom s.tree.idom.size (s.tree.childrenOf i)).flatten,
      v < s.graph.size := fun v hv => l.wf.stronglyReachable_lt ((mem v).mp hv).2.1
  refine List.pairwise_map.mpr ((l.wf.sortById_strict inside nodup).imp ?_)
  intro a b hlt
  exact ObjectId.compare_lt_iff.mpr hlt

theorem mem_lost (l : s.Loaded) (found : s.graph.lookup id = some i) {o : ObjectId} :
    (o ∈ (s.graph.traced none).toList.filter fun o =>
        o != id && !(s.graph.traced (some id)).contains o) ↔
      ∃ v, s.graph.lookup o = some v ∧ v ≠ i ∧ s.graph.Keeps i v := by
  rw [List.mem_filter, Std.TreeSet.mem_toList, Bool.and_eq_true, bne_iff_ne, Bool.not_eq_true',
    ← Bool.not_eq_true, Std.TreeSet.contains_iff_mem, l.mem_traced, l.wf.mem_traced]
  constructor
  · rintro ⟨⟨v, place, hv⟩, hne, cut⟩
    refine ⟨v, place, ?_, hv, ?_⟩
    · rintro rfl
      exact hne ((l.wf.idOf_of_lookup place).symm.trans (l.wf.idOf_of_lookup found))
    · by_contra escapes
      exact cut ⟨v, place, (l.wf.tracedTo_some found).mpr escapes⟩
  · rintro ⟨v, place, hne, keeps⟩
    refine ⟨⟨v, place, keeps.1⟩, ?_, ?_⟩
    · rintro rfl
      exact hne (Option.some.inj (place.symm.trans found))
    · rintro ⟨w, there, escapes⟩
      obtain rfl := Option.some.inj (place.symm.trans there)
      exact (l.wf.tracedTo_some found).mp escapes keeps.2

/-- What the trace loses without an object is what lies below it, in the same order. -/
theorem lost_eq_dominatedBy (l : s.Loaded) (found : s.graph.lookup id = some i)
    (reached : s.graph.StronglyReachable i) :
    ((s.graph.traced none).toList.filter fun o => o != id && !(s.graph.traced (some id)).contains o) =
      s.dominatedBy i := by
  refine ObjectId.eq_of_ascending (Std.TreeSet.ordered_toList.filter _) (l.ascending_dominatedBy reached) ?_
  intro o
  rw [l.mem_lost found, l.mem_dominatedBy reached]

theorem verifyDominance_eq_ok (l : s.Loaded) (id : ObjectId) : s.verifyDominance id = .ok () := by
  unfold verifyDominance
  by_cases marked : (s.graph.traced none).contains id = true
  · rw [if_pos marked]
    obtain ⟨i, found, reached⟩ := l.mem_traced.mp (Std.TreeSet.contains_iff_mem.mp marked)
    refine Except.bind_eq_ok.mpr ⟨i, askFor_eq_ok (placeOf_eq_ok found), ?_⟩
    exact ensure_eq_ok (beq_iff_eq.mpr (l.lost_eq_dominatedBy found reached))
  · rw [if_neg marked]
    rfl

end Loaded

/-- A snapshot that was loaded passes every check, and so does every run that loads one. -/
theorem checks_pass {plan : CancelPlan} {expected : Nat} {records : List Record}
    (h : (plan.run (loadExpecting expected records)).1 = .ok s) :
    s.sanityTrace = .ok s.reachableCount ∧
    (∀ id, s.verifyDominance id = .ok ()) ∧
    ∀ storage path, CommandLine.readRecords storage path = .ok records →
      CommandLine.loadFile storage path = .ok s := by
  have outcome := outcome_of_run h
  obtain ⟨-, l⟩ := loaded_of_load outcome
  refine ⟨l.sanityTrace_eq_ok, l.verifyDominance_eq_ok, ?_⟩
  intro storage path read
  unfold CommandLine.loadFile
  refine Except.bind_eq_ok.mpr ⟨records, read, ?_⟩
  refine Except.bind_eq_ok.mpr ⟨s, by rw [load_of_loadExpecting outcome]; rfl, ?_⟩
  exact Except.bind_eq_ok.mpr ⟨s.reachableCount, by rw [l.sanityTrace_eq_ok]; rfl, rfl⟩

theorem checks_pass_twoEntryLoop :
    (∃ s, (CancelPlan.never.run (loadExpecting 6 HeapGraph.twoEntryLoop)).1 = .ok s ∧
      s.sanityTrace = .ok s.reachableCount ∧ ∀ id, s.verifyDominance id = .ok ()) ∧
    ∃ s, CommandLine.loadFile ⟨fun _ => .ok [], fun _ => .ok ()⟩ "heap" = .ok s := by
  constructor
  · obtain ⟨s, loaded⟩ := exists_load_twoEntryLoop
    rw [← CancelPlan.run_never] at loaded
    obtain ⟨sane, dominance, -⟩ := checks_pass loaded
    exact ⟨s, loaded, sane, dominance⟩
  · have empty : CommandLine.readRecords ⟨fun _ => .ok [], fun _ => .ok ()⟩ "heap" = .ok [] := by cbv
    obtain ⟨s, loaded⟩ := @exists_load 0 [] _ rfl
      (Nat.lt_of_le_of_lt (HeapGraph.bytesOf_le_all _ _) (by decide +kernel))
    rw [← CancelPlan.run_never] at loaded
    exact ⟨s, (checks_pass loaded).2.2 _ _ empty⟩

end Snapshot

end Retention
