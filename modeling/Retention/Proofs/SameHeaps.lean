import Retention.Proofs.AcceptedRecords
import Retention.Proofs.LiveParts
import Retention.Proofs.TrailSearches

namespace Retention

/-- The reference with its place in another graph. -/
def Reference.relocate (f : Nat → Nat) (r : Reference) : Reference := { r with resolved := r.resolved.map f }

/-- The object with the places of its targets in another graph. -/
def Node.relocate (f : Nat → Nat) (n : Node) : Node := { n with references := n.references.map (Reference.relocate f) }

def OutEdge.relocate (f : Nat → Nat) (e : OutEdge) : OutEdge := { e with target := f e.target }

def Trail.relocate (f : Nat → Nat) (t : Trail) : Trail := t.map fun stop => { stop with place := f stop.place }

theorem TrailSearch.extend_relocate (f : Nat → Nat) (t : Trail) (e : OutEdge) :
    extend (Trail.relocate f t) (e.relocate f) = Trail.relocate f (extend t e) := rfl

theorem HeapGraphBuilder.resolveRef_relocate {index index' : Std.TreeMap ObjectId Nat} {f : Nat → Nat}
    (moved : ∀ id : ObjectId, index'[id]? = (index[id]?).map f) (r : RecordRef) :
    resolveRef index' r = (resolveRef index r).relocate f := by
  unfold resolveRef Reference.relocate
  cases r.target with
  | none => rfl
  | some id => simp [moved]

namespace HeapGraph

/-- The two graphs have the same objects and roots, at different places. -/
structure SameHeap (g h : HeapGraph) : Prop where
  left : g.WellFormed
  right : h.WellFormed
  lookup : ∀ id, h.lookup id = (g.lookup id).map (g.twin h)
  node : ∀ i n, g.node? i = some n → h.node? (g.twin h i) = some (n.relocate (g.twin h))
  roots : ∀ j, j ∈ h.roots ↔ ∃ i ∈ g.roots, g.twin h i = j

theorem WellFormed.lookup_twin {g h : HeapGraph} (wf : g.WellFormed)
    (same : ∀ id, (g.lookup id).isSome = (h.lookup id).isSome) (id : ObjectId) :
    h.lookup id = (g.lookup id).map (g.twin h) := by
  have defined := same id
  cases found : g.lookup id with
  | none =>
    rw [found] at defined
    simpa using defined.symm
  | some i =>
    rw [found] at defined
    obtain ⟨j, hj⟩ := Option.isSome_iff_exists.mp defined.symm
    rw [Option.map_some, twin, wf.idOf_of_lookup found, hj, Option.getD_some]

theorem ImageOf.index_twin {g h : HeapGraph} {records records' : List Record} {d d' : Drafts}
    (image : g.ImageOf records d) (image' : h.ImageOf records' d')
    (lookup : ∀ id, h.lookup id = (g.lookup id).map (g.twin h)) (id : ObjectId) :
    d'.index[id]? = (d.index[id]?).map (g.twin h) := by
  rw [← image'.lookup_eq, lookup, image.lookup_eq]

/-- Streams of the same records give graphs of the same heap. -/
theorem sameHeap_of_perm {g h : HeapGraph} {records records' : List Record} {d d' : Drafts}
    (wf : g.WellFormed) (wf' : h.WellFormed) (image : g.ImageOf records d) (image' : h.ImageOf records' d')
    (perm : records.Perm records') : g.SameHeap h := by
  have objects := perm.filterMap Record.draft?
  have roots := perm.filterMap Record.root?
  have defined : ∀ id, (g.lookup id).isSome = (h.lookup id).isSome := by
    intro id
    rw [Bool.eq_iff_iff, image.isSome_lookup, image'.isSome_lookup]
    simp only [objects.mem_iff]
  have lookup := wf.lookup_twin defined
  refine ⟨wf, wf', lookup, ?_, ?_⟩
  · intro i n hn
    rw [image.registered.node] at hn
    obtain ⟨draft, hd, rfl⟩ := Option.map_eq_some_iff.mp hn
    obtain ⟨j, hj⟩ := image'.mem_objects.mpr (objects.mem_iff.mp (image.mem_objects.mp ⟨i, hd⟩))
    have here : g.lookup draft.object.id = some i := by
      rw [image.lookup_eq]
      exact (image.indexed _ i).mpr ⟨draft, hd, rfl⟩
    have there : h.lookup draft.object.id = some j := by
      rw [image'.lookup_eq]
      exact (image'.indexed _ j).mpr ⟨draft, hj, rfl⟩
    rw [lookup, here, Option.map_some] at there
    rw [Option.some.inj there, image'.registered.node, hj, Option.map_some,
      RootKinds.naming_perm roots draft.object.id]
    -- What is left are the references, which the two indices resolve to twins.
    have moved := image.index_twin image' lookup
    have references := draft.object.references.map_congr_left fun r _ =>
      HeapGraphBuilder.resolveRef_relocate moved r
    simp only [Node.relocate, HeapGraphBuilder.resolve, List.map_map, references, Function.comp_def]
  · intro j
    simp only [image'.mem_roots, image.mem_roots, lookup, ← roots.mem_iff, Option.map_eq_some_iff]
    constructor
    · intro named
      obtain ⟨root, hr, i, hi, same⟩ := named
      exact ⟨i, ⟨root, hr, hi⟩, same⟩
    · intro placed
      obtain ⟨i, ⟨root, hr, hi⟩, same⟩ := placed
      exact ⟨root, hr, i, hi, same⟩

/-- Streams of the same records are both accepted or both refused. -/
theorem build_of_perm (expected expected' : Nat) {records records' : List Record} (perm : records.Perm records') :
    (∃ g h d d', (build expected records).outcome.1 = .ok g ∧ (build expected' records').outcome.1 = .ok h ∧
      g.ImageOf records d ∧ h.ImageOf records' d' ∧ g.SameHeap h) ∨
    ∃ refused refused', (build expected records).outcome.1 = .error (.malformed refused) ∧
      (build expected' records').outcome.1 = .error (.malformed refused') := by
  cases build_cases expected records with
  | inr failed =>
    obtain ⟨⟨refused, hr⟩, unacceptable⟩ := failed
    cases build_cases expected' records' with
    | inr failed' =>
      obtain ⟨⟨refused', hr'⟩, -⟩ := failed'
      exact .inr ⟨refused, refused', hr, hr'⟩
    | inl done' =>
      obtain ⟨h, d', -, image'⟩ := done'
      exact absurd (image'.acceptable.perm perm.symm) unacceptable
  | inl done =>
    obtain ⟨g, d, built, image⟩ := done
    cases build_cases expected' records' with
    | inr failed' => exact absurd (image.acceptable.perm perm) failed'.2
    | inl done' =>
      obtain ⟨h, d', built', image'⟩ := done'
      have w := sameHeap_of_perm (.of_build built) (.of_build built') image image' perm
      exact .inl ⟨g, h, d, d', built, built', image, image', w⟩

namespace SameHeap

variable {g h : HeapGraph} {i j : Nat}

theorem lookup_twin (w : g.SameHeap h) (hi : i < g.size) : h.lookup (g.idOf i) = some (g.twin h i) := by
  rw [w.lookup, w.left.lookup_idOf hi, Option.map_some]

theorem idOf_twin (w : g.SameHeap h) (hi : i < g.size) : h.idOf (g.twin h i) = g.idOf i :=
  w.right.idOf_of_lookup (w.lookup_twin hi)

theorem twin_lt (w : g.SameHeap h) (hi : i < g.size) : g.twin h i < h.size :=
  w.right.lookup_lt (w.lookup_twin hi)

theorem twin_inj (w : g.SameHeap h) (hi : i < g.size) (hj : j < g.size) (same : g.twin h i = g.twin h j) : i = j := by
  apply w.left.idOf_inj hi hj
  rw [← w.idOf_twin hi, same, w.idOf_twin hj]

/-- If the root records come in the same order as well, so do the roots and the roots that dangle. -/
theorem roots_twin (w : g.SameHeap h) {records records' : List Record} {d d' : Drafts}
    (image : g.ImageOf records d) (image' : h.ImageOf records' d')
    (order : records.filterMap Record.root? = records'.filterMap Record.root?) :
    h.roots = g.roots.map (g.twin h) ∧ h.danglingRoots = g.danglingRoots := by
  have moved := image.index_twin image' w.lookup
  rw [image.registered.roots_eq, image'.registered.roots_eq, image.registered.dangling_eq,
    image'.registered.dangling_eq, ← order]
  constructor
  · simp only [moved]
    rw [← eraseDups_map, List.map_filterMap]
    intro a ha b hb same
    have inside : ∀ i ∈ (records.filterMap Record.root?).filterMap (fun root => d.index[root.1]?), i < g.size := by
      intro i hi
      obtain ⟨root, -, found⟩ := List.mem_filterMap.mp hi
      rw [← image.lookup_eq] at found
      exact w.left.lookup_lt found
    exact w.twin_inj (inside a ha) (inside b hb) same
  · simp only [moved, Option.isNone_map]

theorem exists_twin (w : g.SameHeap h) (hj : j < h.size) : ∃ i, i < g.size ∧ g.twin h i = j := by
  have found := w.right.lookup_idOf hj
  rw [w.lookup] at found
  obtain ⟨i, hi, same⟩ := Option.map_eq_some_iff.mp found
  exact ⟨i, w.left.lookup_lt hi, same⟩

theorem node_twin (w : g.SameHeap h) (hi : i < g.size) :
    h.node? (g.twin h i) = (g.node? i).map (Node.relocate (g.twin h)) := by
  obtain ⟨n, hn, -⟩ := exists_node hi
  rw [w.node i n hn, hn, Option.map_some]

theorem referencesOf_twin (w : g.SameHeap h) (hi : i < g.size) :
    h.referencesOf (g.twin h i) = (g.referencesOf i).map (Reference.relocate (g.twin h)) := by
  obtain ⟨n, hn, -⟩ := exists_node hi
  rw [referencesOf, w.node i n hn, referencesOf, hn]
  rfl

theorem shallowSizeOf_twin (w : g.SameHeap h) (hi : i < g.size) :
    h.shallowSizeOf (g.twin h i) = g.shallowSizeOf i := by
  obtain ⟨n, hn, -⟩ := exists_node hi
  rw [shallowSizeOf, w.node i n hn, shallowSizeOf, hn]
  rfl

theorem mem_referencesOf_twin (w : g.SameHeap h) (hi : i < g.size) {r : Reference} :
    r ∈ h.referencesOf (g.twin h i) ↔ ∃ r₀ ∈ g.referencesOf i, r₀.relocate (g.twin h) = r := by
  rw [w.referencesOf_twin hi, List.mem_map]

/-- What is live in one graph of a heap is live in another. -/
theorem sameLive (w : g.SameHeap h) : g.SameLive h where
  left := w.left
  right := w.right
  roots := by
    intro id
    simp only [List.mem_map, w.roots]
    constructor
    · intro named
      obtain ⟨i, hi, rfl⟩ := named
      exact ⟨_, ⟨i, hi, rfl⟩, w.idOf_twin (w.left.roots_lt i hi)⟩
    · intro named
      obtain ⟨j, ⟨i, hi, rfl⟩, rfl⟩ := named
      exact ⟨i, hi, (w.idOf_twin (w.left.roots_lt i hi)).symm⟩
  live := by
    intro i reached
    have hi := w.left.stronglyReachable_lt reached
    refine ⟨_, w.lookup_twin hi, w.shallowSizeOf_twin hi, fun id => ?_⟩
    unfold Holds
    simp only [w.mem_referencesOf_twin hi]
    constructor
    · intro held
      obtain ⟨k, ⟨r, hr, strong, resolved⟩, rfl⟩ := held
      refine ⟨g.twin h k, ⟨_, ⟨r, hr, rfl⟩, strong, ?_⟩, w.idOf_twin (w.left.resolved_lt hr resolved)⟩
      simp [Reference.relocate, resolved]
    · intro held
      obtain ⟨_, ⟨_, ⟨r, hr, rfl⟩, strong, resolved⟩, rfl⟩ := held
      obtain ⟨k, hk, rfl⟩ := Option.map_eq_some_iff.mp resolved
      exact ⟨k, ⟨r, hr, strong, hk⟩, (w.idOf_twin (w.left.resolved_lt hr hk)).symm⟩

theorem reachable_twin (w : g.SameHeap h) (reached : g.Reachable i) : i < g.size ∧ h.Reachable (g.twin h i) := by
  induction reached with
  | root hi => exact ⟨w.left.roots_lt _ hi, .root ((w.roots _).mpr ⟨_, hi, rfl⟩)⟩
  | @step u v r before hr resolved ih =>
    refine ⟨w.left.resolved_lt hr resolved, .step ih.2 ((w.mem_referencesOf_twin ih.1).mpr ⟨r, hr, rfl⟩) ?_⟩
    simp [Reference.relocate, resolved]

theorem exists_reachable (w : g.SameHeap h) (reached : h.Reachable j) :
    ∃ i, i < g.size ∧ g.Reachable i ∧ g.twin h i = j := by
  induction reached with
  | root hj =>
    obtain ⟨i, hi, same⟩ := (w.roots _).mp hj
    exact ⟨i, w.left.roots_lt i hi, .root hi, same⟩
  | step before hr resolved ih =>
    obtain ⟨u, hu, reached, rfl⟩ := ih
    obtain ⟨r, here, rfl⟩ := (w.mem_referencesOf_twin hu).mp hr
    obtain ⟨k, hk, same⟩ := Option.map_eq_some_iff.mp resolved
    exact ⟨k, w.left.resolved_lt here hk, .step reached here hk, same⟩

theorem reachable_iff (w : g.SameHeap h) (hi : i < g.size) : h.Reachable (g.twin h i) ↔ g.Reachable i := by
  constructor
  · intro reached
    obtain ⟨k, hk, reached, same⟩ := w.exists_reachable reached
    exact w.twin_inj hk hi same ▸ reached
  · exact fun reached => (w.reachable_twin reached).2

/-- Objects chosen by what twins have in common and sorted by their ids are twins, one by one. -/
theorem sortById_twin (w : g.SameHeap h) {p q : Nat → Bool} (same : ∀ i, i < g.size → q (g.twin h i) = p i) :
    h.sortById ((List.range h.size).filter q) =
      (g.sortById ((List.range g.size).filter p)).map (g.twin h) := by
  have inside : ∀ i ∈ (List.range g.size).filter p, i < g.size := by
    intro i hi
    exact List.mem_range.mp (List.mem_of_mem_filter hi)
  have inside' : ∀ j ∈ (List.range h.size).filter q, j < h.size := by
    intro j hj
    exact List.mem_range.mp (List.mem_of_mem_filter hj)
  apply ascending_ext (w.right.sortById_strict inside' (List.nodup_range.filter q))
  · apply ascending_map (w.left.sortById_strict inside (List.nodup_range.filter p))
    intro i hi
    exact w.idOf_twin (inside i (mem_sortById.mp hi))
  · intro j
    simp only [mem_sortById, List.mem_map, List.mem_filter, List.mem_range]
    constructor
    · intro hj
      obtain ⟨i, hi, rfl⟩ := w.exists_twin hj.1
      exact ⟨i, ⟨hi, same i hi ▸ hj.2⟩, rfl⟩
    · intro hj
      obtain ⟨i, hi, rfl⟩ := hj
      exact ⟨w.twin_lt hi.1, same i hi.1 ▸ hi.2⟩

theorem referrersOf_twin (w : g.SameHeap h) (hi : i < g.size) :
    h.referrersOf (g.twin h i) = (g.referrersOf i).map (g.twin h) := by
  apply ascending_ext (w.right.referrersOf_ascending _)
  · apply ascending_map (w.left.referrersOf_ascending i)
    exact fun u hu => w.idOf_twin (w.left.lt_of_mem_referrersOf hu)
  · intro j
    simp only [List.mem_map, w.left.mem_referrersOf, w.right.mem_referrersOf]
    constructor
    · intro refers
      obtain ⟨r, hr, resolved⟩ := refers
      obtain ⟨u, hu, rfl⟩ := w.exists_twin (lt_of_mem_referencesOf hr)
      obtain ⟨r, here, rfl⟩ := (w.mem_referencesOf_twin hu).mp hr
      obtain ⟨k, hk, same⟩ := Option.map_eq_some_iff.mp resolved
      exact ⟨u, ⟨r, here, w.twin_inj (w.left.resolved_lt here hk) hi same ▸ hk⟩, rfl⟩
    · intro refers
      obtain ⟨u, ⟨r, hr, resolved⟩, rfl⟩ := refers
      refine ⟨_, (w.mem_referencesOf_twin (lt_of_mem_referencesOf hr)).mpr ⟨r, hr, rfl⟩, ?_⟩
      simp [Reference.relocate, resolved]

theorem resolvedEdges_twin (w : g.SameHeap h) (hi : i < g.size) :
    h.resolvedEdges (g.twin h i) = (g.resolvedEdges i).map (OutEdge.relocate (g.twin h)) := by
  unfold resolvedEdges
  rw [w.referencesOf_twin hi, List.zipIdx_map, List.filterMap_map, List.map_filterMap]
  apply List.filterMap_congr
  intro entry _
  simp [Reference.relocate, OutEdge.relocate, Function.comp_def]

theorem outEdges_twin (w : g.SameHeap h) (hi : i < g.size) :
    h.outEdges (g.twin h i) = (g.outEdges i).map (OutEdge.relocate (g.twin h)) := by
  rw [outEdges_eq, outEdges_eq, w.resolvedEdges_twin hi]
  refine (List.map_mergeSort ?_).symm
  intro a ha b hb
  have inside : ∀ e ∈ g.resolvedEdges i, e.target < g.size := by
    intro e he
    have edge : e ∈ g.outEdges i := List.mem_mergeSort.mpr he
    exact w.left.outEdge_lt edge
  simp only [OutEdge.relocate, w.idOf_twin (inside a ha), w.idOf_twin (inside b hb)]

end SameHeap

end HeapGraph

namespace TrailSearch

open HeapGraph

variable {g h : HeapGraph} {follow : OutEdge → Bool} {s s' : TrailSearch} {t : Trail} {rest : List Trail}

/-- Two searches in step: what one has found and is going to look at, the other has at twins. -/
structure Mirrors (g h : HeapGraph) (s s' : TrailSearch) : Prop where
  tracks : s'.Tracks h
  trailOf_twin : ∀ i, i < g.size → s'.trailOf (g.twin h i) = (s.trailOf i).map (Trail.relocate (g.twin h))
  next_eq : s'.next.toList = s.next.toList.map (Trail.relocate (g.twin h))
  waiting_eq : s'.waiting.toList = s.waiting.toList.map (Trail.relocate (g.twin h))

theorem map_extend_twin (w : g.SameHeap h) {i : Nat} (hi : i < g.size)
    (same : ∀ e : OutEdge, follow (e.relocate (g.twin h)) = follow e) :
    ((h.outEdges (g.twin h i)).filter follow).map (extend (Trail.relocate (g.twin h) t)) =
      (((g.outEdges i).filter follow).map (extend t)).map (Trail.relocate (g.twin h)) := by
  rw [w.outEdges_twin hi, List.filter_map, List.map_map, List.map_map]
  simp only [Function.comp_def, same, extend_relocate]

theorem Mirrors.arrive (w : g.SameHeap h) (same : ∀ e : OutEdge, follow (e.relocate (g.twin h)) = follow e)
    (grow : Growing g follow s (t :: rest)) (m : Mirrors g h s s') :
    Mirrors g h (s.arrive follow t) (s'.arrive follow (Trail.relocate (g.twin h) t)) := by
  obtain ⟨stop, before, rfl, hi, left⟩ := grow.arrival w.left
  have there := m.trailOf_twin stop.place hi
  have hi' : (⟨g.twin h stop.place, stop.via⟩ : Stop).place < h.size := w.twin_lt hi
  have right := m.tracks.arrive follow hi' (Trail.relocate (g.twin h) before)
  -- An object was found in one search exactly if its twin was found in the other.
  cases left with
  | inl skip =>
    obtain ⟨known, hk, stays⟩ := skip
    rw [hk] at there
    cases right with
    | inl skip' =>
      obtain ⟨-, -, stays'⟩ := skip'
      rw [stays]
      exact stays'.symm ▸ m
    | inr find' =>
      rw [find'.unfound] at there
      cases there
  | inr find =>
    rw [find.unfound] at there
    cases right with
    | inl skip' =>
      obtain ⟨known, hk, -⟩ := skip'
      rw [hk] at there
      cases there
    | inr find' =>
      refine ⟨find'.tracks, ?_, ?_, ?_⟩
      · intro k hk
        refine (find'.trailOf_eq _).trans ?_
        rw [find.trailOf_eq]
        by_cases here : k = stop.place
        · rw [if_pos here, if_pos (congrArg _ here)]
          rfl
        · rw [if_neg here, if_neg fun twins => here (w.twin_inj hk hi twins), m.trailOf_twin k hk]
      · refine find'.next_eq.trans ?_
        rw [find.next_eq, List.map_append, m.next_eq, ← map_extend_twin w hi same]
        rfl
      · refine find'.waiting_eq.trans ?_
        rw [find.waiting_eq, List.map_append, m.waiting_eq,
          ← map_extend_twin w hi fun e => congrArg (!·) (same e)]
        rfl

theorem Mirrors.wave (w : g.SameHeap h) (same : ∀ e : OutEdge, follow (e.relocate (g.twin h)) = follow e)
    (trails : List Trail) (grow : Growing g follow s trails) (m : Mirrors g h s s') :
    Growing g follow (trails.foldl (TrailSearch.arrive follow) s) [] ∧
      Mirrors g h (trails.foldl (TrailSearch.arrive follow) s)
        ((trails.map (Trail.relocate (g.twin h))).foldl (TrailSearch.arrive follow) s') := by
  induction trails generalizing s s' with
  | nil => exact ⟨grow, m⟩
  | cons t rest ih => exact ih (grow.arrive w.left) (m.arrive w same grow)

theorem Mirrors.rewind (m : Mirrors g h s s') : Mirrors g h { s with next := #[] } { s' with next := #[] } :=
  ⟨⟨m.tracks.size_eq, m.tracks.fresh⟩, m.trailOf_twin, rfl, m.waiting_eq⟩

/-- Searches that start in step stay in step. -/
theorem Mirrors.spread (w : g.SameHeap h) (same : ∀ e : OutEdge, follow (e.relocate (g.twin h)) = follow e)
    {trails : List Trail} (grow : Growing g follow { s with next := #[] } trails) (m : Mirrors g h s s') :
    Mirrors g h (s.spread follow trails) (s'.spread follow (trails.map (Trail.relocate (g.twin h)))) := by
  fun_induction TrailSearch.spread follow s trails generalizing s' with
  | case1 s =>
    rw [List.map_nil, TrailSearch.spread]
    exact m
  | case2 s t rest after =>
    rename_i ih
    have whole : Growing g follow after [] ∧
        Mirrors g h after (s'.wave follow ((t :: rest).map (Trail.relocate (g.twin h)))) :=
      Mirrors.wave w same (t :: rest) grow m.rewind
    have later := ih whole.1.turn whole.2
    rw [← whole.2.next_eq] at later
    rw [List.map_cons, TrailSearch.spread]
    exact later

end TrailSearch

namespace HeapGraph.SameHeap

open TrailSearch

variable {g h : HeapGraph}

theorem mirrors_blankSearch (g h : HeapGraph) : Mirrors g h g.blankSearch h.blankSearch where
  tracks := (h.growing_blankSearch OutEdge.strong).tracks
  trailOf_twin := by
    intro i _
    rw [trailOf_blankSearch, trailOf_blankSearch]
    rfl
  next_eq := rfl
  waiting_eq := rfl

theorem mirrors_strongSearch (w : g.SameHeap h) (roots : h.roots = g.roots.map (g.twin h)) :
    Mirrors g h g.strongSearch h.strongSearch := by
  have start : (h.roots.map fun r => [(⟨r, none⟩ : Stop)]) =
      (g.roots.map fun r => [(⟨r, none⟩ : Stop)]).map (Trail.relocate (g.twin h)) := by
    rw [roots, List.map_map, List.map_map]
    rfl
  unfold strongSearch
  rw [start]
  exact Mirrors.spread w (fun _ => rfl) (g.growing_blankSearch _) (mirrors_blankSearch g h)

/-- Trails to twins go through twins. -/
theorem trailOf_twin (w : g.SameHeap h) (roots : h.roots = g.roots.map (g.twin h)) {i : Nat} (hi : i < g.size) :
    h.fullSearch.trailOf (g.twin h i) = (g.fullSearch.trailOf i).map (Trail.relocate (g.twin h)) := by
  have m := w.mirrors_strongSearch roots
  have start : Mirrors g h { g.strongSearch with waiting := #[] } { h.strongSearch with waiting := #[] } :=
    ⟨⟨m.tracks.size_eq, m.tracks.fresh⟩, m.trailOf_twin, m.next_eq, rfl⟩
  obtain ⟨grow, -, -⟩ := w.left.strongSearch_ends
  have whole := start.spread w (fun _ => rfl) grow.widen
  rw [← m.waiting_eq] at whole
  exact whole.trailOf_twin i hi

end HeapGraph.SameHeap

end Retention
