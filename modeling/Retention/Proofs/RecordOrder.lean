import Retention.Proofs.LiveAnswers
import Retention.Proofs.SameHeaps

namespace Retention

/-- What is told of an object, but for the places of the targets that its references have. -/
def ObjectView.unplaced (v : ObjectView) : ObjectView := { v with node := v.node.relocate fun _ => 0 }

theorem Node.relocate_relocate (f k : Nat → Nat) (n : Node) : (n.relocate f).relocate k = n.relocate (k ∘ f) := by
  simp only [Node.relocate, List.map_map, Node.mk.injEq, true_and, and_true]
  apply List.map_congr_left
  intro r _
  simp [Reference.relocate]

/-- Sorting by a linear order does not depend on the order before. -/
theorem mergeSort_eq_of_perm {α : Type} {le : α → α → Bool} {items others : List α}
    (trans : ∀ a b c, le a b = true → le b c = true → le a c = true)
    (total : ∀ a b, (le a b || le b a) = true)
    (antisymm : ∀ a b, le a b = true → le b a = true → a = b) (perm : items.Perm others) :
    items.mergeSort le = others.mergeSort le := by
  have sorted := ((List.mergeSort_perm items le).trans perm).trans (List.mergeSort_perm others le).symm
  apply sorted.eq_of_pairwise _ (List.pairwise_mergeSort trans total items)
    (List.pairwise_mergeSort trans total others)
  exact fun a b _ _ => antisymm a b

namespace Snapshot

/-- Two snapshots give the same answers by object id to all questions but those that are about the
order of roots. -/
structure SameAnswers (s s' : Snapshot) : Prop where
  lookup : ∀ id, (s.lookup id).map ObjectView.unplaced = (s'.lookup id).map ObjectView.unplaced
  dominator : ∀ id, s.dominator id = s'.dominator id
  retainedSize : ∀ id, s.retainedSize id = s'.retainedSize id
  children : ∀ id, s.children id = s'.children id
  dominatorsOf : ∀ id, s.dominatorsOf id = s'.dominatorsOf id
  rooted : s.rooted = s'.rooted
  referrers : ∀ id, s.referrers id = s'.referrers id
  instancesOf : ∀ id, s.instancesOf id = s'.instancesOf id
  className : ∀ id, s.className id = s'.className id
  reachability : ∀ id, s.reachability id = s'.reachability id
  nodes : s.nodes = s'.nodes
  topRetainers : ∀ n, s.topRetainers n = s'.topRetainers n
  dominatorDepths : s.dominatorDepths = s'.dominatorDepths
  totalRetained : s.totalRetained = s'.totalRetained
  reachableCount : s.reachableCount = s'.reachableCount
  csv : s.csv = s'.csv

variable {s s' : Snapshot} {id : ObjectId} {i : Nat}

/-- Questions about an object are answered alike if they are at twins. -/
theorem bind_placeOf_twin {α : Type} (w : s.graph.SameHeap s'.graph) {ask ask' : Nat → Except QueryError α}
    (same : ∀ i, s.graph.lookup id = some i → ask' (s.graph.twin s'.graph i) = ask i) :
    s.placeOf id >>= ask = s'.placeOf id >>= ask' := by
  have there := w.lookup id
  unfold placeOf
  cases found : s.graph.lookup id with
  | none =>
    rw [there, found]
    rfl
  | some i =>
    rw [there, found]
    exact (same i found).symm

theorem referrers_twin (w : s.graph.SameHeap s'.graph) (id : ObjectId) : s.referrers id = s'.referrers id := by
  apply bind_placeOf_twin w
  intro i found
  have hi := w.left.lookup_lt found
  rw [w.referrersOf_twin hi, idsOf_map]
  intro u hu
  exact w.idOf_twin (w.left.lt_of_mem_referrersOf hu)

theorem nodes_twin (w : s.graph.SameHeap s'.graph) : s.nodes = s'.nodes := by
  have whole := w.sortById_twin (p := fun _ => true) (q := fun _ => true) fun _ _ => rfl
  simp only [List.filter_true] at whole
  unfold Snapshot.nodes
  rw [whole, idsOf_map]
  intro u hu
  exact w.idOf_twin (List.mem_range.mp (HeapGraph.mem_sortById.mp hu))

theorem instancesOf_twin (w : s.graph.SameHeap s'.graph) (id : ObjectId) : s.instancesOf id = s'.instancesOf id := by
  apply bind_placeOf_twin w
  intro i _
  have chosen := w.sortById_twin (p := fun i => (s.graph.node? i).any fun n => n.classId == some id)
    (q := fun j => (s'.graph.node? j).any fun n => n.classId == some id) ?_
  · simp only [chosen]
    rw [idsOf_map]
    intro u hu
    have member := HeapGraph.mem_sortById.mp hu
    exact w.idOf_twin (List.mem_range.mp (List.mem_of_mem_filter member))
  · intro u hu
    rw [w.node_twin hu, Option.any_map]
    rfl

theorem className_twin (w : s.graph.SameHeap s'.graph) (id : ObjectId) : s.className id = s'.className id := by
  apply bind_placeOf_twin w
  intro i found
  have named : ∀ id, (s'.graph.get? id).bind (fun n => n.shape.className?) =
      (s.graph.get? id).bind fun n => n.shape.className? := by
    intro id
    unfold HeapGraph.get?
    rw [w.lookup]
    cases other : s.graph.lookup id with
    | none => rfl
    | some k =>
      simp only [Option.map_some, Option.bind_some]
      rw [w.node_twin (w.left.lookup_lt other)]
      cases s.graph.node? k <;> rfl
  rw [w.node_twin (w.left.lookup_lt found)]
  cases s.graph.node? i with
  | none => rfl
  | some n =>
    have classes : (n.classId.bind s'.graph.get?).bind (fun n => n.shape.className?) =
        (n.classId.bind s.graph.get?).bind fun n => n.shape.className? := by
      rw [Option.bind_assoc, Option.bind_assoc]
      simp only [named]
    simp only [Option.map_some, Node.relocate, classes]

/-- The order of the largest retainers, in numbers. -/
theorem ahead_iff {a b : ObjectId × UInt64} : decide (b.2 < a.2 ∨ a.2 = b.2 ∧ a.1 ≤ b.1) = true ↔
    b.2.toNat < a.2.toNat ∨ a.2.toNat = b.2.toNat ∧ a.1.value.toNat ≤ b.1.value.toNat := by
  rw [decide_eq_true_eq, UInt64.lt_iff_toNat_lt, UInt64.toNat_inj]
  rfl

theorem Loaded.idomPlaceAt_lt (l : s.Loaded) {d : Nat} (hd : s.idomPlaceAt i = some d) : d < s.graph.size := by
  unfold idomPlaceAt at hd
  split at hd
  · rename_i found
    obtain rfl := Option.some.inj hd
    obtain ⟨reached, -, every, -⟩ := (l.tree.below i _).mp found
    exact l.wf.stronglyReachable_lt (every.reachable reached)
  · cases hd

section Loaded

variable (l : s.Loaded) (l' : s'.Loaded) (w : s.graph.SameHeap s'.graph)

include w

theorem labelOf_twin (via : Option Nat) {before : Trail} (inside : ∀ stop ∈ before, stop.place < s.graph.size) :
    s'.labelOf via (Trail.relocate (s.graph.twin s'.graph) before) = s.labelOf via before := by
  cases via with
  | none => cases before <;> rfl
  | some position =>
    cases before with
    | nil => rfl
    | cons stop earlier =>
      change ((s'.graph.referencesOf (s.graph.twin s'.graph stop.place))[position]?).map Reference.label = _
      rw [w.referencesOf_twin (inside stop List.mem_cons_self), List.getElem?_map, Option.map_map]
      rfl

theorem reached_twin_iff (hi : i < s.graph.size) :
    s'.graph.StronglyReachable (s.graph.twin s'.graph i) ↔ s.graph.StronglyReachable i := by
  constructor
  · intro reached
    obtain ⟨k, hk, same⟩ := w.sameLive.exists_twin reached
    exact w.twin_inj (w.left.stronglyReachable_lt hk) hi same ▸ hk
  · exact w.sameLive.reached_twin

include l l'

theorem isReachable_twin (hi : i < s.graph.size) :
    s'.tree.isReachable (s.graph.twin s'.graph i) = s.tree.isReachable i := by
  rw [Bool.eq_iff_iff, l.tree.isReachable_iff, l'.tree.isReachable_iff, reached_twin_iff w hi]

theorem idomOf_twin (hi : i < s.graph.size) : s'.tree.idomOf (s.graph.twin s'.graph i) =
    (s.tree.idomOf i).map fun
      | .superRoot => .superRoot
      | .node d => .node (s.graph.twin s'.graph d) := by
  by_cases reached : s.graph.StronglyReachable i
  · exact w.sameLive.idomOf_twin l.tree l'.tree reached
  · have unreached := mt (reached_twin_iff w hi).mp reached
    rw [(l.tree.unreached i).mpr reached, (l'.tree.unreached _).mpr unreached]
    rfl

theorem idomAt_twin (hi : i < s.graph.size) : s'.idomAt (s.graph.twin s'.graph i) = s.idomAt i := by
  unfold idomAt
  rw [idomOf_twin l l' w hi]
  cases hd : s.tree.idomOf i with
  | none => rfl
  | some dominator =>
    cases dominator with
    | superRoot => rfl
    | node d =>
      obtain ⟨reached, -, every, -⟩ := (l.tree.below i d).mp hd
      have hd := l.wf.stronglyReachable_lt (every.reachable reached)
      simp [w.idOf_twin hd]

theorem retained_twin (hi : i < s.graph.size) :
    s'.retained.sizeOf (s.graph.twin s'.graph i) = s.retained.sizeOf i := by
  by_cases reached : s.graph.StronglyReachable i
  · exact l.sizeOf_twin l' w.sameLive reached
  · have unreached := mt (reached_twin_iff w hi).mp reached
    rw [l.sizes.sizeOf_unreached i reached, l'.sizes.sizeOf_unreached _ unreached]

/-- A question that only live objects answer is answered alike if it is for them. -/
theorem bind_reachablePlaceOf_twin {α : Type} {ask ask' : Nat → Except QueryError α}
    (same : s.Live id → s.reachablePlaceOf id >>= ask = s'.reachablePlaceOf id >>= ask') :
    s.reachablePlaceOf id >>= ask = s'.reachablePlaceOf id >>= ask' := by
  by_cases live : s.Live id
  · exact same live
  · unfold reachablePlaceOf
    rw [bind_assoc, bind_assoc]
    apply bind_placeOf_twin w
    intro i found
    have hi := w.left.lookup_lt found
    have unreached : ¬ s.graph.StronglyReachable i := fun reached => live ⟨i, found, reached⟩
    have dead : s.tree.isReachable i = false := by
      rw [Bool.eq_false_iff, Ne, l.tree.isReachable_iff]
      exact unreached
    rw [isReachable_twin l l' w hi, dead]
    rfl

theorem children_twin (r : s.SameRetention s') (id : ObjectId) : s.children id = s'.children id := by
  by_cases live : s.Live id
  · exact r.children id live
  · apply bind_placeOf_twin w
    intro i found
    have hi := w.left.lookup_lt found
    have unreached : ¬ s.graph.StronglyReachable i := fun reached => live ⟨i, found, reached⟩
    have unreached' := mt (reached_twin_iff w hi).mp unreached
    rw [l.tree.childrenOf_unreached unreached, l'.tree.childrenOf_unreached unreached']
    rfl

/-- Live objects come with the same sizes, in the orders of their places. -/
theorem perm_sized : (s.reachablePlaces.map fun i => (s.graph.idOf i, s.retained.sizeOf i)).Perm
    (s'.reachablePlaces.map fun j => (s'.graph.idOf j, s'.retained.sizeOf j)) := by
  have sorted := (s.graph.perm_sortById s.reachablePlaces).map fun i => (s.graph.idOf i, s.retained.sizeOf i)
  have sorted' := (s'.graph.perm_sortById s'.reachablePlaces).map fun j => (s'.graph.idOf j, s'.retained.sizeOf j)
  rw [l.reachablePlaces_twin l' w.sameLive, List.map_map] at sorted'
  refine sorted.symm.trans (List.Perm.trans ?_ sorted')
  apply List.Perm.of_eq
  apply List.map_congr_left
  intro i hi
  have inside := l.wf.stronglyReachable_lt (l.mem_reachablePlaces.mp (HeapGraph.mem_sortById.mp hi))
  simp [w.idOf_twin inside, retained_twin l l' w inside]

theorem topRetainers_twin (n : Nat) : s.topRetainers n = s'.topRetainers n := by
  unfold topRetainers
  refine congrArg (List.take n) (mergeSort_eq_of_perm ?_ ?_ ?_ (perm_sized l l' w))
  · intro a b c hab hbc
    rw [ahead_iff] at hab hbc ⊢
    omega
  · intro a b
    rw [Bool.or_eq_true, ahead_iff, ahead_iff]
    omega
  · intro a b hab hba
    rw [ahead_iff] at hab hba
    refine Prod.ext (ObjectId.eq_of_value (UInt64.toNat_inj.mp ?_)) (UInt64.toNat_inj.mp ?_) <;> omega

section Trails

variable (trail : ∀ i, s.trailOf i = s.graph.fullSearch.trailOf i)
  (trail' : ∀ i, s'.trailOf i = s'.graph.fullSearch.trailOf i)

include trail trail'

theorem reachabilityAt_twin (hi : i < s.graph.size) :
    s'.reachabilityAt (s.graph.twin s'.graph i) = s.reachabilityAt i := by
  have found : (s'.trailOf (s.graph.twin s'.graph i)).isSome = (s.trailOf i).isSome := by
    rw [Bool.eq_iff_iff, Option.isSome_iff_exists, Option.isSome_iff_exists, trail, trail',
      w.left.exists_trail_iff, w.right.exists_trail_iff, w.reachable_iff hi]
  unfold reachabilityAt
  rw [isReachable_twin l l' w hi, found]

theorem lookup_twin (id : ObjectId) :
    (s.lookup id).map ObjectView.unplaced = (s'.lookup id).map ObjectView.unplaced := by
  have there := w.lookup id
  cases found : s.graph.lookup id with
  | none =>
    rw [found] at there
    unfold Snapshot.lookup placeOf
    rw [found, there]
    rfl
  | some i =>
    have hi := w.left.lookup_lt found
    rw [found, Option.map_some] at there
    obtain ⟨n, hn, answer⟩ := l.lookup_eq_ok found
    obtain ⟨n', hn', answer'⟩ := l'.lookup_eq_ok there
    rw [w.node i n hn] at hn'
    rw [answer, answer', ← Option.some.inj hn', retained_twin l l' w hi, idomAt_twin l l' w hi,
      reachabilityAt_twin l l' w trail trail' hi]
    simp only [Except.map, ObjectView.unplaced, Node.relocate_relocate]
    rfl

/-- Graphs of the same heap give the same answers by id. -/
theorem sameAnswers : s.SameAnswers s' := by
  have r := l.sameRetention l' w.sameLive
  constructor
  case lookup => exact lookup_twin l l' w trail trail'
  case dominator => exact fun id => bind_reachablePlaceOf_twin l l' w (r.dominator id)
  case retainedSize => exact fun id => bind_reachablePlaceOf_twin l l' w (r.retainedSize id)
  case children => exact children_twin l l' w r
  case dominatorsOf => exact fun id => bind_reachablePlaceOf_twin l l' w (r.dominatorsOf id)
  case rooted => exact r.rooted
  case referrers => exact referrers_twin w
  case instancesOf => exact instancesOf_twin w
  case className => exact className_twin w
  case reachability =>
    intro id
    apply bind_placeOf_twin w
    intro i found
    rw [reachabilityAt_twin l l' w trail trail' (w.left.lookup_lt found)]
  case nodes => exact nodes_twin w
  case topRetainers => exact topRetainers_twin l l' w
  case dominatorDepths => exact r.dominatorDepths
  case totalRetained => exact r.totalRetained
  case reachableCount => exact r.reachableCount
  case csv => exact r.csv

end Trails

theorem idomPlaceAt_twin (hi : i < s.graph.size) :
    s'.idomPlaceAt (s.graph.twin s'.graph i) = (s.idomPlaceAt i).map (s.graph.twin s'.graph) := by
  unfold idomPlaceAt
  rw [idomOf_twin l l' w hi]
  cases s.tree.idomOf i with
  | none => rfl
  | some dominator => cases dominator <;> rfl

/-- Trails through twins are told in the same steps. -/
theorem steps_twin (t : Trail) (awaited : Option Nat) (waits : ∀ a, awaited = some a → a < s.graph.size)
    (inside : ∀ stop ∈ t, stop.place < s.graph.size) :
    s'.steps (awaited.map (s.graph.twin s'.graph)) (Trail.relocate (s.graph.twin s'.graph) t) = s.steps awaited t := by
  induction t generalizing awaited with
  | nil => rfl
  | cons stop before ih =>
    -- The awaited dominators are twins as well, so they are met at the same stops.
    have hi := inside stop List.mem_cons_self
    have earlier : ∀ stop ∈ before, stop.place < s.graph.size := fun stop hs => inside stop (List.mem_cons_of_mem _ hs)
    have met : (awaited.map (s.graph.twin s'.graph) == some (s.graph.twin s'.graph stop.place)) =
        (awaited == some stop.place) := by
      rw [Bool.eq_iff_iff, beq_iff_eq, beq_iff_eq]
      constructor
      · intro twins
        obtain ⟨a, ha, same⟩ := Option.map_eq_some_iff.mp twins
        rw [ha, w.twin_inj (waits a ha) hi same]
      · intro same
        rw [same, Option.map_some]
    have next : (if awaited == some stop.place then s'.idomPlaceAt (s.graph.twin s'.graph stop.place)
        else awaited.map (s.graph.twin s'.graph)) =
        (if awaited == some stop.place then s.idomPlaceAt stop.place else awaited).map (s.graph.twin s'.graph) := by
      split
      · exact idomPlaceAt_twin l l' w hi
      · rfl
    have later := ih (if awaited == some stop.place then s.idomPlaceAt stop.place else awaited) (by
      intro a ha
      split at ha
      · exact l.idomPlaceAt_lt ha
      · exact waits a ha) earlier
    change s'.steps _ (⟨s.graph.twin s'.graph stop.place, stop.via⟩ :: Trail.relocate _ before) = _
    rw [steps_cons, steps_cons, met, next, later, w.idOf_twin hi, labelOf_twin w stop.via earlier]

/-- If the roots come in the same order too, the paths are the same. -/
theorem path_twin (trail : ∀ i, s.trailOf i = s.graph.fullSearch.trailOf i)
    (trail' : ∀ i, s'.trailOf i = s'.graph.fullSearch.trailOf i)
    (roots : s'.graph.roots = s.graph.roots.map (s.graph.twin s'.graph)) (id : ObjectId) : s.path id = s'.path id := by
  apply bind_placeOf_twin w
  intro i found
  have hi := w.left.lookup_lt found
  rw [trail', w.trailOf_twin roots hi, ← trail]
  cases ht : s.trailOf i with
  | none => rfl
  | some t =>
    have inside := w.left.trail_lt ((trail i).symm.trans ht)
    have same := steps_twin l l' w t (some i) (fun a ha => Option.some.inj ha ▸ hi) inside
    simp only [Option.map_some] at same ⊢
    rw [same]

end Loaded

/-- Graphs of the same heap both give a snapshot, or both have sizes that do not fit. -/
theorem load_of_sameHeap {expected expected' : Nat} {records records' : List Record} {g g' : HeapGraph}
    (built : (HeapGraph.build expected records).outcome.1 = .ok g)
    (built' : (HeapGraph.build expected' records').outcome.1 = .ok g') (w : g.SameHeap g') :
    (∃ s s', (loadExpecting expected records).outcome.1 = .ok s ∧
      (loadExpecting expected' records').outcome.1 = .ok s' ∧ s.graph = g ∧ s'.graph = g' ∧ s.Loaded ∧ s'.Loaded) ∨
    ((loadExpecting expected records).outcome.1 = .error .overflow ∧
      (loadExpecting expected' records').outcome.1 = .error .overflow) := by
  have bytes := w.sameLive.bytesOf_stronglyReachable_twin
  cases load_cases built with
  | inr overflow =>
    cases load_cases built' with
    | inr overflow' => exact .inr ⟨overflow.1, overflow'.1⟩
    | inl fits' => exact absurd (bytes ▸ fits'.2) overflow.2
  | inl fits =>
    cases load_cases built' with
    | inr overflow' => exact absurd (bytes.symm ▸ fits.2) overflow'.2
    | inl fits' =>
      obtain ⟨⟨s, loaded⟩, -⟩ := fits
      obtain ⟨⟨s', loaded'⟩, -⟩ := fits'
      obtain ⟨also, l⟩ := loaded_of_load loaded
      obtain ⟨also', l'⟩ := loaded_of_load loaded'
      have same := Except.ok.inj (also.symm.trans built)
      have same' := Except.ok.inj (also'.symm.trans built')
      exact .inl ⟨s, s', loaded, loaded', same, same', l, l'⟩

/-- Two streams of the same records load alike. Either both give a snapshot, and the two answer alike by
id, or both are refused as malformed, or both have sizes that do not fit. If the root records come in the
same order as well, the roots, the roots that dangle and all paths are the same. -/
theorem answers_of_perm (expected expected' : Nat) {records records' : List Record} (perm : records.Perm records') :
    (∃ s s', (CancelPlan.never.run (loadExpecting expected records)).1 = .ok s ∧
      (CancelPlan.never.run (loadExpecting expected' records')).1 = .ok s' ∧ s.SameAnswers s' ∧
      (records.filterMap Record.root? = records'.filterMap Record.root? →
        s.roots = s'.roots ∧ s.danglingRoots = s'.danglingRoots ∧ ∀ id, s.path id = s'.path id)) ∨
    (∃ refused refused', (CancelPlan.never.run (loadExpecting expected records)).1 = .error (.malformed refused) ∧
      (CancelPlan.never.run (loadExpecting expected' records')).1 = .error (.malformed refused')) ∨
    ((CancelPlan.never.run (loadExpecting expected records)).1 = .error .overflow ∧
      (CancelPlan.never.run (loadExpecting expected' records')).1 = .error .overflow) := by
  simp only [CancelPlan.run_never]
  cases HeapGraph.build_of_perm expected expected' perm with
  | inr failed =>
    obtain ⟨refused, refused', hr, hr'⟩ := failed
    exact .inr (.inl ⟨refused, refused', load_of_refused hr, load_of_refused hr'⟩)
  | inl done =>
    obtain ⟨g, g', d, d', built, built', image, image', w⟩ := done
    cases load_of_sameHeap built built' w with
    | inr overflow => exact .inr (.inr overflow)
    | inl fits =>
      obtain ⟨s, s', loaded, loaded', rfl, rfl, l, l'⟩ := fits
      have trail := trailOf_of_load loaded
      have trail' := trailOf_of_load loaded'
      refine .inl ⟨s, s', loaded, loaded', sameAnswers l l' w trail trail', fun order => ?_⟩
      obtain ⟨roots, dangling⟩ := w.roots_twin image image' order
      have ids : s.roots = s'.roots := by
        unfold Snapshot.roots
        rw [roots, idsOf_map fun r hr => w.idOf_twin (l.wf.roots_lt r hr)]
      exact ⟨ids, dangling.symm, path_twin l l' w trail trail' roots⟩

/-- The records of `twoEntryLoop` with every reference before its target and the root records apart. -/
def shuffledLoop : List Record :=
  [.object .instanceObject ⟨⟨1⟩, none, 7, [⟨.field "a", some ⟨2⟩, true⟩, ⟨.field "b", some ⟨3⟩, true⟩]⟩,
    .root ⟨1⟩ .thread,
    .object .instanceObject ⟨⟨2⟩, none, 11, [⟨.field "on", some ⟨3⟩, true⟩, ⟨.field "again", some ⟨3⟩, true⟩]⟩,
    .object .instanceObject ⟨⟨3⟩, none, 5, [⟨.field "back", some ⟨2⟩, true⟩, ⟨.field "weak", some ⟨4⟩, false⟩]⟩,
    .object .instanceObject ⟨⟨4⟩, none, 13, [⟨.field "null", none, true⟩, ⟨.field "gone", some ⟨8⟩, true⟩]⟩,
    .root ⟨9⟩ .monitor]

theorem answers_of_perm_shuffledLoop : HeapGraph.twoEntryLoop.Perm shuffledLoop ∧
    ∃ s s', (CancelPlan.never.run (loadExpecting 6 HeapGraph.twoEntryLoop)).1 = .ok s ∧
      (CancelPlan.never.run (loadExpecting 0 shuffledLoop)).1 = .ok s' ∧ s.SameAnswers s' ∧
      s.roots = s'.roots ∧ s.danglingRoots = s'.danglingRoots ∧ ∀ id, s.path id = s'.path id := by
  have perm : HeapGraph.twoEntryLoop.Perm shuffledLoop := by decide
  refine ⟨perm, ?_⟩
  obtain ⟨known, loads⟩ := exists_load_twoEntryLoop
  rw [← CancelPlan.run_never] at loads
  rcases answers_of_perm 6 0 perm with ok | malformed | overflow
  · obtain ⟨s, s', loaded, loaded', answers, ordered⟩ := ok
    exact ⟨s, s', loaded, loaded', answers, ordered rfl⟩
  · obtain ⟨refused, -, failed, -⟩ := malformed
    rw [loads] at failed
    cases failed
  · rw [loads] at overflow
    cases overflow.1

end Snapshot

end Retention
