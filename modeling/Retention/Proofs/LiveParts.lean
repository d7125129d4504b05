import Retention.Proofs.RetainedBytes
import Retention.Proofs.TreeLayers

namespace Retention.HeapGraph

/-- The place in `h` of the object that has the id of the one at `i` in `g`. -/
def twin (g h : HeapGraph) (i : Nat) : Nat := (h.lookup (g.idOf i)).getD 0

/-- What is live in `g` stands in `h` as well, with the same roots, sizes and strong references. -/
structure SameLive (g h : HeapGraph) : Prop where
  left : g.WellFormed
  right : h.WellFormed
  roots : ∀ id, id ∈ g.roots.map g.idOf ↔ id ∈ h.roots.map h.idOf
  live : ∀ i, g.StronglyReachable i → ∃ j, h.lookup (g.idOf i) = some j ∧
    h.shallowSizeOf j = g.shallowSizeOf i ∧
    ∀ id, (∃ k, g.Holds i k ∧ g.idOf k = id) ↔ ∃ k, h.Holds j k ∧ h.idOf k = id

theorem WellFormed.twin_eq {g h : HeapGraph} {i j : Nat} (wf : h.WellFormed) (hj : j < h.size)
    (same : h.idOf j = g.idOf i) : g.twin h i = j := by
  rw [twin, ← same, wf.lookup_idOf hj, Option.getD_some]

theorem ascending_map {g h : HeapGraph} {f : Nat → Nat} {places : List Nat}
    (ascending : places.Pairwise fun a b => g.idOf a < g.idOf b)
    (id : ∀ i ∈ places, h.idOf (f i) = g.idOf i) :
    (places.map f).Pairwise fun a b => h.idOf a < h.idOf b := by
  apply List.pairwise_map.mpr
  apply ascending.imp_of_mem
  intro a b ha hb hlt
  rwa [id a ha, id b hb]

namespace SameLive

variable {g h : HeapGraph} {d i j v : Nat} {path : List Nat}

theorem lookup_twin (w : g.SameLive h) (hi : g.StronglyReachable i) :
    h.lookup (g.idOf i) = some (g.twin h i) := by
  obtain ⟨j, found, -⟩ := w.live i hi
  rw [twin, found, Option.getD_some]

theorem idOf_twin (w : g.SameLive h) (hi : g.StronglyReachable i) : h.idOf (g.twin h i) = g.idOf i :=
  w.right.idOf_of_lookup (w.lookup_twin hi)

theorem shallowSizeOf_twin (w : g.SameLive h) (hi : g.StronglyReachable i) :
    h.shallowSizeOf (g.twin h i) = g.shallowSizeOf i := by
  obtain ⟨j, found, size, -⟩ := w.live i hi
  rwa [twin, found, Option.getD_some]

theorem root_twin (w : g.SameLive h) (hi : i ∈ g.roots) : g.twin h i ∈ h.roots := by
  have named := (w.roots (g.idOf i)).mp (List.mem_map_of_mem hi)
  obtain ⟨j, hj, same⟩ := List.mem_map.mp named
  rwa [w.right.twin_eq (w.right.roots_lt j hj) same]

theorem holds_twin (w : g.SameLive h) (hi : g.StronglyReachable i) (hold : g.Holds i j) :
    h.Holds (g.twin h i) (g.twin h j) := by
  obtain ⟨i', found, -, targets⟩ := w.live i hi
  obtain ⟨k, hk, same⟩ := (targets (g.idOf j)).mp ⟨j, hold, rfl⟩
  have here : g.twin h i = i' := by rw [twin, found, Option.getD_some]
  have there : g.twin h j = k := w.right.twin_eq (w.right.target_lt hk) same
  rwa [here, there]

theorem rootPath_twin (w : g.SameLive h) (hp : g.RootPath i path) :
    h.RootPath (g.twin h i) (path.map (g.twin h)) := by
  induction hp with
  | root hi => exact .root (w.root_twin hi)
  | step before hold ih =>
    rw [List.map_append]
    exact .step ih (w.holds_twin ⟨_, before⟩ hold)

theorem reached_twin (w : g.SameLive h) (hi : g.StronglyReachable i) : h.StronglyReachable (g.twin h i) := by
  obtain ⟨path, hp⟩ := hi
  exact ⟨_, w.rootPath_twin hp⟩

/-- What is reached in the other heap is the twin of something live. -/
theorem exists_twin (w : g.SameLive h) (hj : h.StronglyReachable j) :
    ∃ i, g.StronglyReachable i ∧ g.twin h i = j := by
  obtain ⟨path, hp⟩ := hj
  induction hp with
  | @root j hj =>
    have named := (w.roots (h.idOf j)).mpr (List.mem_map_of_mem hj)
    obtain ⟨i, hi, same⟩ := List.mem_map.mp named
    exact ⟨i, ⟨[i], .root hi⟩, w.right.twin_eq (w.right.roots_lt j hj) same.symm⟩
  | @step u v path before hold ih =>
    obtain ⟨i, hi, rfl⟩ := ih
    obtain ⟨u, found, -, targets⟩ := w.live i hi
    have here : g.twin h i = u := by rw [twin, found, Option.getD_some]
    obtain ⟨k, hk, same⟩ := (targets (h.idOf v)).mpr ⟨v, here ▸ hold, rfl⟩
    obtain ⟨front, hf⟩ := hi
    exact ⟨k, ⟨_, .step hf hk⟩, w.right.twin_eq (w.right.target_lt hold) same.symm⟩

theorem twin_twin (w : g.SameLive h) (hi : g.StronglyReachable i) : h.twin g (g.twin h i) = i :=
  w.left.twin_eq (w.left.stronglyReachable_lt hi) (w.idOf_twin hi).symm

theorem twin_inj (w : g.SameLive h) (hi : g.StronglyReachable i) (hj : g.StronglyReachable j)
    (same : g.twin h i = g.twin h j) : i = j := by
  rw [← w.twin_twin hi, same, w.twin_twin hj]

theorem symm (w : g.SameLive h) : h.SameLive g where
  left := w.right
  right := w.left
  roots := fun id => (w.roots id).symm
  live := by
    intro j hj
    obtain ⟨i, hi, rfl⟩ := w.exists_twin hj
    obtain ⟨u, found, size, targets⟩ := w.live i hi
    have here : g.twin h i = u := by rw [twin, found, Option.getD_some]
    have back := w.left.lookup_idOf (w.left.stronglyReachable_lt hi)
    rw [← w.idOf_twin hi] at back
    exact ⟨i, back, by rw [here, size], fun id => by rw [here, targets id]⟩

theorem onEveryPath_twin (w : g.SameLive h) (hi : g.StronglyReachable i) (every : g.OnEveryPath d i) :
    h.OnEveryPath (g.twin h d) (g.twin h i) := by
  intro path hp
  have back := w.symm.rootPath_twin hp
  rw [w.twin_twin hi] at back
  obtain ⟨x, hx, rfl⟩ := List.mem_map.mp (every _ back)
  obtain ⟨front, hf, -⟩ := hp.cut hx
  rwa [w.symm.twin_twin ⟨front, hf⟩]

theorem onEveryPath_iff (w : g.SameLive h) (hd : g.StronglyReachable d) (hi : g.StronglyReachable i) :
    h.OnEveryPath (g.twin h d) (g.twin h i) ↔ g.OnEveryPath d i := by
  constructor
  · intro every
    have back := w.symm.onEveryPath_twin (w.reached_twin hi) every
    rwa [w.twin_twin hd, w.twin_twin hi] at back
  · exact w.onEveryPath_twin hi

/-- Every object on every path to a twin is a twin itself. -/
theorem exists_twin_of_onEveryPath (w : g.SameLive h) (hi : g.StronglyReachable i)
    (every : h.OnEveryPath v (g.twin h i)) : ∃ u, g.OnEveryPath u i ∧ g.StronglyReachable u ∧ g.twin h u = v := by
  obtain ⟨u, hu, rfl⟩ := w.exists_twin (every.reachable (w.reached_twin hi))
  exact ⟨u, (w.onEveryPath_iff hu hi).mp every, hu, rfl⟩

/-- Two lists in the order of ids go over into each other when their members do. -/
theorem eq_map_twin (w : g.SameLive h) {places others : List Nat}
    (reached : ∀ i ∈ places, g.StronglyReachable i) (reached' : ∀ j ∈ others, h.StronglyReachable j)
    (ascending : places.Pairwise fun a b => g.idOf a < g.idOf b)
    (ascending' : others.Pairwise fun a b => h.idOf a < h.idOf b)
    (mem : ∀ i, g.StronglyReachable i → (g.twin h i ∈ others ↔ i ∈ places)) :
    others = places.map (g.twin h) := by
  apply ascending_ext ascending' (ascending_map ascending fun i hi => w.idOf_twin (reached i hi))
  intro j
  rw [List.mem_map]
  constructor
  · intro hj
    obtain ⟨i, hi, rfl⟩ := w.exists_twin (reached' j hj)
    exact ⟨i, (mem i hi).mp hj, rfl⟩
  · intro hj
    obtain ⟨i, hi, rfl⟩ := hj
    exact (mem i (reached i hi)).mpr hi

/-- Sums of sizes over live objects go over from twin to twin. -/
theorem bytesOf_twin (w : g.SameLive h) {p q : Nat → Prop} (live : ∀ i, p i → g.StronglyReachable i)
    (live' : ∀ j, q j → h.StronglyReachable j) (same : ∀ i, g.StronglyReachable i → (q (g.twin h i) ↔ p i)) :
    h.bytesOf q = g.bytesOf p := by
  classical
  unfold bytesOf
  apply Finset.sum_nbij' (h.twin g) (g.twin h)
  · intro j hj
    have hq := (Finset.mem_filter.mp hj).2
    have reached := w.symm.reached_twin (live' j hq)
    have back := w.symm.twin_twin (live' j hq)
    refine Finset.mem_filter.mpr ⟨Finset.mem_range.mpr (w.left.stronglyReachable_lt reached), ?_⟩
    exact (same _ reached).mp (back.symm ▸ hq)
  · intro i hi
    have hp := (Finset.mem_filter.mp hi).2
    have reached := w.reached_twin (live i hp)
    refine Finset.mem_filter.mpr ⟨Finset.mem_range.mpr (w.right.stronglyReachable_lt reached), ?_⟩
    exact (same i (live i hp)).mpr hp
  · intro j hj
    exact w.symm.twin_twin (live' j (Finset.mem_filter.mp hj).2)
  · intro i hi
    exact w.twin_twin (live i (Finset.mem_filter.mp hi).2)
  · intro j hj
    rw [w.symm.shallowSizeOf_twin (live' j (Finset.mem_filter.mp hj).2)]

theorem bytesOf_keeps_twin (w : g.SameLive h) (hd : g.StronglyReachable d) :
    h.bytesOf (h.Keeps (g.twin h d)) = g.bytesOf (g.Keeps d) := by
  apply w.bytesOf_twin (fun i hi => hi.1) (fun j hj => hj.1)
  intro i hi
  unfold Keeps
  rw [w.onEveryPath_iff hd hi]
  simp [hi, w.reached_twin hi]

theorem bytesOf_stronglyReachable_twin (w : g.SameLive h) :
    h.bytesOf h.StronglyReachable = g.bytesOf g.StronglyReachable := by
  apply w.bytesOf_twin (fun i hi => hi) (fun j hj => hj)
  intro i hi
  simp [hi, w.reached_twin hi]

section Trees

variable {t t' : DominatorTree} (w : g.SameLive h) (tree : g.IsDominatorTree t) (tree' : h.IsDominatorTree t')

include w tree tree'

theorem idomOf_superRoot (hv : t.idomOf v = some .superRoot) : t'.idomOf (g.twin h v) = some .superRoot := by
  obtain ⟨reached, alone⟩ := (tree.shared v).mp hv
  refine (tree'.shared _).mpr ⟨w.reached_twin reached, ?_⟩
  intro x every
  obtain ⟨u, hu, -, rfl⟩ := w.exists_twin_of_onEveryPath reached every
  rw [alone u hu]

theorem idomOf_node (hv : t.idomOf v = some (.node d)) :
    t'.idomOf (g.twin h v) = some (.node (g.twin h d)) := by
  obtain ⟨reached, hne, every, nearest⟩ := (tree.below v d).mp hv
  have above := every.reachable reached
  refine (tree'.below _ _).mpr ⟨w.reached_twin reached, ?_, w.onEveryPath_twin reached every, ?_⟩
  · intro same
    exact hne (w.twin_inj above reached same)
  · intro x hx also
    obtain ⟨u, hu, -, rfl⟩ := w.exists_twin_of_onEveryPath reached also
    have huv : u ≠ v := by
      intro same
      exact hx (by rw [same])
    exact w.onEveryPath_twin above (nearest u huv hu)

/-- Twins hang at twins. -/
theorem idomOf_twin (hv : g.StronglyReachable v) : t'.idomOf (g.twin h v) =
    (t.idomOf v).map fun
      | .superRoot => .superRoot
      | .node d => .node (g.twin h d) := by
  cases hd : t.idomOf v with
  | none => exact absurd hv ((tree.unreached v).mp hd)
  | some dominator =>
    cases dominator with
    | superRoot => exact w.idomOf_superRoot tree tree' hd
    | node d => exact w.idomOf_node tree tree' hd

theorem idomOf_node_iff {c p : Nat} (hc : g.StronglyReachable c) (hp : g.StronglyReachable p) :
    t'.idomOf (g.twin h c) = some (.node (g.twin h p)) ↔ t.idomOf c = some (.node p) := by
  constructor
  · intro hd
    have back := w.symm.idomOf_node tree' tree hd
    rwa [w.twin_twin hc, w.twin_twin hp] at back
  · exact w.idomOf_node tree tree'

theorem idomOf_superRoot_iff {c : Nat} (hc : g.StronglyReachable c) :
    t'.idomOf (g.twin h c) = some .superRoot ↔ t.idomOf c = some .superRoot := by
  constructor
  · intro hd
    have back := w.symm.idomOf_superRoot tree' tree hd
    rwa [w.twin_twin hc] at back
  · exact w.idomOf_superRoot tree tree'

theorem childrenOf_twin {p : Nat} (hp : g.StronglyReachable p) :
    t'.childrenOf (g.twin h p) = (t.childrenOf p).map (g.twin h) := by
  apply w.eq_map_twin (fun c hc => (tree.child_below hc).1) (fun c hc => (tree'.child_below hc).1)
    (tree.childrenOf_ascending p) (tree'.childrenOf_ascending _)
  intro c hc
  rw [tree'.mem_childrenOf, tree.mem_childrenOf, w.idomOf_node_iff tree tree' hc hp]

theorem rooted_twin : t'.rooted = t.rooted.map (g.twin h) := by
  apply w.eq_map_twin (fun r hr => tree.stronglyReachable_of_idom ((tree.mem_rooted r).mp hr))
    (fun r hr => tree'.stronglyReachable_of_idom ((tree'.mem_rooted r).mp hr)) tree.rooted_ascending
    tree'.rooted_ascending
  intro c hc
  rw [tree'.mem_rooted, tree.mem_rooted, w.idomOf_superRoot_iff tree tree' hc]

theorem climbFrom_twin (fuel : Nat) (hi : g.StronglyReachable i) :
    t'.climbFrom fuel (g.twin h i) = (t.climbFrom fuel i).map (g.twin h) := by
  induction fuel generalizing i with
  | zero => rfl
  | succ fuel ih =>
    unfold DominatorTree.climbFrom
    rw [w.idomOf_twin tree tree' hi]
    cases hd : t.idomOf i with
    | none => rfl
    | some dominator =>
      cases dominator with
      | superRoot => rfl
      | node d =>
        obtain ⟨-, -, every, -⟩ := (tree.below i d).mp hd
        simp [ih (every.reachable hi)]

/-- The chains above twins are twins, though each heap has its own fuel for them. -/
theorem chainOf_twin (hi : g.StronglyReachable i) :
    t'.chainOf (g.twin h i) = (t.chainOf i).map (g.twin h) := by
  have left := tree.climbFrom_eq_chainOf w.left hi t'.idom.size
  have right := tree'.climbFrom_eq_chainOf w.right (w.reached_twin hi) t.idom.size
  rw [← left, ← right, Nat.add_comm, w.climbFrom_twin tree tree' _ hi]

theorem layersFrom_twin (fuel : Nat) {layer : List Nat} (reached : ∀ i ∈ layer, g.StronglyReachable i) :
    t'.layersFrom fuel (layer.map (g.twin h)) = (t.layersFrom fuel layer).map (List.map (g.twin h)) := by
  induction fuel generalizing layer with
  | zero => rfl
  | succ fuel ih =>
    cases layer with
    | nil => rfl
    | cons b rest =>
      have below : ((b :: rest).map (g.twin h)).flatMap t'.childrenOf =
          ((b :: rest).flatMap t.childrenOf).map (g.twin h) := by
        rw [List.flatMap_map, List.map_flatMap]
        apply List.flatMap_congr
        intro i hi
        exact w.childrenOf_twin tree tree' (reached i hi)
      have next : ∀ i ∈ (b :: rest).flatMap t.childrenOf, g.StronglyReachable i := by
        intro i hi
        obtain ⟨p, -, hc⟩ := List.mem_flatMap.mp hi
        exact (tree.child_below hc).1
      have later := ih next
      rw [← below] at later
      rw [List.map_cons, DominatorTree.layersFrom, DominatorTree.layersFrom, ← List.map_cons, later]
      · rfl
      · simp
      · simp

theorem layers_twin : t'.layers = t.layers.map (List.map (g.twin h)) := by
  have left := tree.layersFrom_eq_layers w.left t'.idom.size
  have right := tree'.layersFrom_eq_layers w.right t.idom.size
  have reached : ∀ r ∈ t.rooted, g.StronglyReachable r :=
    fun r hr => tree.stronglyReachable_of_idom ((tree.mem_rooted r).mp hr)
  rw [← left, ← right, Nat.add_comm, w.rooted_twin tree tree', w.layersFrom_twin tree tree' _ reached]

theorem members_twin : t'.members.Perm (t.members.map (g.twin h)) := by
  have reached : ∀ i, i ∈ t.members ↔ g.StronglyReachable i := by
    intro i
    rw [DominatorTree.mem_members, ← tree.isReachable_iff, DominatorTree.isReachable]
  have reached' : ∀ j, j ∈ t'.members ↔ h.StronglyReachable j := by
    intro j
    rw [DominatorTree.mem_members, ← tree'.isReachable_iff, DominatorTree.isReachable]
  have distinct : (t.members.map (g.twin h)).Nodup := by
    apply List.Nodup.map_on _ t.nodup_members
    intro a ha b hb same
    exact w.twin_inj ((reached a).mp ha) ((reached b).mp hb) same
  rw [List.perm_ext_iff_of_nodup t'.nodup_members distinct]
  intro j
  rw [reached', List.mem_map]
  constructor
  · intro hj
    obtain ⟨i, hi, same⟩ := w.exists_twin hj
    exact ⟨i, (reached i).mpr hi, same⟩
  · intro hj
    obtain ⟨i, hi, rfl⟩ := hj
    exact w.reached_twin ((reached i).mp hi)

end Trees

end SameLive

end Retention.HeapGraph
