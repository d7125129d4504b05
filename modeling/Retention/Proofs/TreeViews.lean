import Mathlib.Data.Set.Card
import Retention.Proofs.PathDominators
import Retention.Proofs.TreeLayers

namespace Retention

namespace HeapGraph.IsDominatorTree

variable {g : HeapGraph} {t : DominatorTree} {c p r v d k fuel : Nat} {layer : List Nat}

theorem chainOf_child (tree : g.IsDominatorTree t) (wf : g.WellFormed) (hc : c ∈ t.childrenOf p) :
    t.chainOf c = p :: t.chainOf p := by
  rw [tree.chainOf_eq wf (tree.child_below hc).1, (tree.mem_childrenOf p c).mp hc]

theorem chainOf_rooted (tree : g.IsDominatorTree t) (wf : g.WellFormed) (hr : r ∈ t.rooted) : t.chainOf r = [] := by
  have top := (tree.mem_rooted r).mp hr
  rw [tree.chainOf_eq wf (tree.stronglyReachable_of_idom top), top]

/-- An object that is reached is right below the super-root or a child of another. -/
theorem rooted_or_child (tree : g.IsDominatorTree t) (hv : g.StronglyReachable v) :
    v ∈ t.rooted ∨ ∃ p, v ∈ t.childrenOf p := by
  cases idom : t.idomOf v with
  | none => exact absurd hv ((tree.unreached v).mp idom)
  | some dominator =>
    cases dominator with
    | superRoot => exact .inl ((tree.mem_rooted v).mpr idom)
    | node p => exact .inr ⟨p, (tree.mem_childrenOf p v).mpr idom⟩

/-- All objects with this number of dominators above them. -/
def AtDepth (g : HeapGraph) (t : DominatorTree) (d : Nat) (layer : List Nat) : Prop :=
  ∀ v, v ∈ layer ↔ g.StronglyReachable v ∧ (t.chainOf v).length = d

theorem atDepth_rooted (tree : g.IsDominatorTree t) (wf : g.WellFormed) : AtDepth g t 0 t.rooted := by
  intro v
  constructor
  · intro hv
    exact ⟨tree.stronglyReachable_of_idom ((tree.mem_rooted v).mp hv), by rw [tree.chainOf_rooted wf hv]; rfl⟩
  · intro h
    refine (tree.rooted_or_child h.1).resolve_right ?_
    intro child
    obtain ⟨p, hp⟩ := child
    have deep := h.2
    rw [tree.chainOf_child wf hp] at deep
    cases deep

theorem atDepth_next (tree : g.IsDominatorTree t) (wf : g.WellFormed) (h : AtDepth g t d layer) :
    AtDepth g t (d + 1) (layer.flatMap t.childrenOf) := by
  intro v
  rw [List.mem_flatMap]
  constructor
  · intro below
    obtain ⟨p, hp, hv⟩ := below
    refine ⟨(tree.child_below hv).1, ?_⟩
    rw [tree.chainOf_child wf hv, List.length_cons, ((h p).mp hp).2]
  · intro deep
    cases tree.rooted_or_child deep.1 with
    | inl top =>
      have none := deep.2
      rw [tree.chainOf_rooted wf top] at none
      cases none
    | inr child =>
      obtain ⟨p, hv⟩ := child
      have reached : g.StronglyReachable p := (tree.child_below hv).2.2.reachable deep.1
      have above := deep.2
      rw [tree.chainOf_child wf hv, List.length_cons, Nat.add_right_cancel_iff] at above
      exact ⟨p, (h p).mpr ⟨reached, above⟩, hv⟩

/-- The layers from one layer down are not empty and lie one deeper each. -/
theorem atDepth_layersFrom (tree : g.IsDominatorTree t) (wf : g.WellFormed) (h : AtDepth g t d layer)
    {found : List Nat} (hk : (t.layersFrom fuel layer)[k]? = some found) :
    found ≠ [] ∧ AtDepth g t (d + k) found := by
  induction fuel generalizing layer d k with
  | zero => simp [DominatorTree.layersFrom] at hk
  | succ fuel ih =>
    cases layer with
    | nil => simp [DominatorTree.layersFrom] at hk
    | cons a rest =>
      rw [DominatorTree.layersFrom] at hk
      · cases k with
        | zero =>
          obtain rfl : a :: rest = found := Option.some.inj hk
          exact ⟨List.cons_ne_nil a rest, h⟩
        | succ k =>
          rw [List.getElem?_cons_succ] at hk
          have later := ih (tree.atDepth_next wf h) hk
          rwa [Nat.add_assoc, Nat.add_comm 1 k] at later
      · intro same
        cases same

theorem atDepth_layers (tree : g.IsDominatorTree t) (wf : g.WellFormed) {found : List Nat}
    (hk : t.layers[k]? = some found) : found ≠ [] ∧ AtDepth g t k found := by
  have deep := tree.atDepth_layersFrom wf (tree.atDepth_rooted wf) hk
  rwa [Nat.zero_add] at deep

/-- The layers hold each object that is reached once. -/
theorem flatten_layers (tree : g.IsDominatorTree t) (wf : g.WellFormed) :
    t.layers.flatten.Nodup ∧ ∀ v, v ∈ t.layers.flatten ↔ g.StronglyReachable v := by
  have room : ∀ v, (∃ r ∈ t.rooted, g.Keeps r v) → v ∈ List.range g.size := by
    intro v kept
    exact List.mem_range.mpr (wf.stronglyReachable_lt (tree.stronglyReachable_iff_rooted.mpr kept))
  have enough : (List.range g.size).length ≤ t.idom.size := by simp [tree.size_idom]
  obtain ⟨nodup, mem⟩ := (IsLayer.of_rooted tree).layersFrom tree room enough
  refine ⟨nodup, fun v => ?_⟩
  rw [tree.stronglyReachable_iff_rooted]
  exact mem v

/-- There are no objects below the last layer. -/
theorem length_chainOf_lt (tree : g.IsDominatorTree t) (wf : g.WellFormed) (hv : g.StronglyReachable v) :
    (t.chainOf v).length < t.layers.length := by
  obtain ⟨found, there, hf⟩ := List.mem_flatten.mp (((tree.flatten_layers wf).2 v).mpr hv)
  obtain ⟨k, hk⟩ := List.getElem?_of_mem there
  rw [(((tree.atDepth_layers wf hk).2 v).mp hf).2]
  exact (List.getElem?_eq_some_iff.mp hk).1

theorem mem_layer_iff (tree : g.IsDominatorTree t) (wf : g.WellFormed) (k v : Nat) :
    v ∈ (t.layers[k]?).getD [] ↔ g.StronglyReachable v ∧ (t.chainOf v).length = k := by
  cases there : t.layers[k]? with
  | some layer => exact (tree.atDepth_layers wf there).2 v
  | none =>
    constructor
    · exact fun h => absurd h List.not_mem_nil
    · intro h
      have inside := tree.length_chainOf_lt wf h.1
      rw [h.2] at inside
      exact absurd inside (Nat.not_lt_of_le (List.getElem?_eq_none_iff.mp there))

theorem nodup_layer (tree : g.IsDominatorTree t) (wf : g.WellFormed) (k : Nat) : ((t.layers[k]?).getD []).Nodup := by
  cases there : t.layers[k]? with
  | some layer => exact (List.nodup_flatten.mp (tree.flatten_layers wf).1).1 layer (List.mem_of_getElem? there)
  | none => exact List.nodup_nil

theorem sum_length_layers (tree : g.IsDominatorTree t) (wf : g.WellFormed) :
    (t.layers.map List.length).sum = t.reachable := by
  obtain ⟨nodup, mem⟩ := tree.flatten_layers wf
  have same : t.layers.flatten.Perm t.members := by
    rw [List.perm_ext_iff_of_nodup nodup t.nodup_members]
    intro v
    rw [mem, DominatorTree.mem_members]
    exact tree.isReachable_iff.symm
  rw [← List.length_flatten, same.length_eq, t.reachable_eq_length]

/-- The objects right below the super-root and the children of all objects are different objects. -/
theorem nodup_links (tree : g.IsDominatorTree t) {places : List Nat} (nodup : places.Nodup) :
    (t.rooted ++ places.flatMap t.childrenOf).Nodup := by
  refine List.nodup_append.mpr ⟨tree.nodup_rooted, ?_, ?_⟩
  · refine List.nodup_flatMap.mpr ⟨fun p _ => tree.nodup_childrenOf p, nodup.imp ?_⟩
    intro p q apart c hp hq
    have same := ((tree.mem_childrenOf p c).mp hp).symm.trans ((tree.mem_childrenOf q c).mp hq)
    exact apart (Dominator.node.inj (Option.some.inj same))
  · intro r hr c hc same
    subst same
    obtain ⟨p, -, hp⟩ := List.mem_flatMap.mp hc
    have both := ((tree.mem_rooted r).mp hr).symm.trans ((tree.mem_childrenOf p r).mp hp)
    cases both

end HeapGraph.IsDominatorTree

/-- What stands at the `k`-th place is found under its number. -/
theorem lookup_zipIdx {α β : Type} (f : α → β) (items : List α) (n k : Nat) :
    ((items.zipIdx n).map fun (a, i) => (i + 1, f a)).lookup (n + k + 1) = (items[k]?).map f := by
  induction items generalizing n k with
  | nil => rfl
  | cons a rest ih =>
    rw [List.zipIdx_cons, List.map_cons, List.lookup_cons]
    cases k with
    | zero => simp
    | succ k =>
      have other : (n + (k + 1) + 1 == n + 1) = false := by simp
      have later := ih (n + 1) k
      rw [Nat.add_assoc n 1 k, Nat.add_comm 1 k] at later
      simp only [other, later, List.getElem?_cons_succ]

namespace Snapshot

variable {s : Snapshot} {id c p : ObjectId} {i j : Nat}

theorem dominatorDepths_eq (s : Snapshot) :
    s.dominatorDepths = (s.tree.layers.zipIdx 0).map fun (layer, k) => (k + 1, layer.length) := rfl

theorem lookup_dominatorDepths (s : Snapshot) (k : Nat) :
    s.dominatorDepths.lookup (k + 1) = (s.tree.layers[k]?).map List.length := by
  have found := lookup_zipIdx List.length s.tree.layers 0 k
  rwa [Nat.zero_add] at found

theorem map_fst_dominatorDepths (s : Snapshot) :
    s.dominatorDepths.map Prod.fst = List.range' 1 s.dominatorDepths.length := by
  apply List.ext_getElem
  · simp
  · intro k _ _
    simp [dominatorDepths_eq, Nat.add_comm]

theorem map_snd_dominatorDepths (s : Snapshot) :
    s.dominatorDepths.map Prod.snd = s.tree.layers.map List.length := by
  rw [dominatorDepths_eq, List.map_map]
  change s.tree.layers.zipIdx.map (List.length ∘ Prod.fst) = _
  rw [← List.map_map, List.zipIdx_map_fst]

/-- The objects with this number of dominators above them, by id. -/
def withDominators (s : Snapshot) (k : Nat) : Set ObjectId :=
  {id | s.Live id ∧ ∃ chain, s.dominatorsOf id = .ok chain ∧ chain.length = k}

namespace Loaded

theorem live_iff (l : s.Loaded) : s.Live id ↔ ∃ i, s.graph.StronglyReachable i ∧ s.graph.idOf i = id := by
  constructor
  · intro h
    obtain ⟨i, found, reached⟩ := h
    exact ⟨i, reached, l.wf.idOf_of_lookup found⟩
  · intro h
    obtain ⟨i, reached, named⟩ := h
    exact ⟨i, named ▸ l.lookup_idOf_reached reached, reached⟩

/-- Ids tell objects that are reached apart. -/
theorem nodup_idsOf (l : s.Loaded) {places : List Nat} (reached : ∀ i ∈ places, s.graph.StronglyReachable i)
    (nodup : places.Nodup) : (s.idsOf places).Nodup := by
  refine nodup.map_on ?_
  intro a ha b hb same
  exact l.wf.idOf_inj (l.wf.stronglyReachable_lt (reached a ha)) (l.wf.stronglyReachable_lt (reached b hb)) same

/-- An immediate dominator is told of an object that is reached. -/
theorem dominator_eq_ok_iff (l : s.Loaded) {answer : Option ObjectId} :
    s.dominator c = .ok answer ↔ ∃ j, s.graph.StronglyReachable j ∧ s.graph.idOf j = c ∧ s.idomIdAt j = answer := by
  constructor
  · intro asked
    cases found : s.graph.lookup c with
    | none =>
      rw [dominator, reachablePlaceOf, placeOf_eq_error found] at asked
      cases asked
    | some j =>
      have reached : s.graph.StronglyReachable j := (l.dominator_answered found).1.mp ⟨answer, asked⟩
      rw [l.dominator_eq_ok found reached] at asked
      exact ⟨j, reached, l.wf.idOf_of_lookup found, Except.ok.inj asked⟩
  · intro h
    obtain ⟨j, reached, rfl, rfl⟩ := h
    exact l.dominator_eq_ok (l.lookup_idOf_reached reached) reached

theorem idomIdAt_eq_none_iff (l : s.Loaded) (reached : s.graph.StronglyReachable j) :
    s.idomIdAt j = none ↔ j ∈ s.tree.rooted := by
  rw [l.tree.mem_rooted, idomIdAt]
  cases idom : s.tree.idomOf j with
  | none => exact absurd reached ((l.tree.unreached j).mp idom)
  | some dominator => cases dominator <;> simp

theorem idomIdAt_eq_some_iff (l : s.Loaded) (found : s.graph.lookup p = some i) (reached : s.graph.StronglyReachable j) :
    s.idomIdAt j = some p ↔ j ∈ s.tree.childrenOf i := by
  rw [l.tree.mem_childrenOf, idomIdAt]
  cases idom : s.tree.idomOf j with
  | none => simp
  | some dominator =>
    cases dominator with
    | superRoot => simp
    | node d =>
      have above : s.graph.StronglyReachable d := ((l.tree.below j d).mp idom).2.2.1.reachable reached
      simp only [Option.some.injEq, Dominator.node.injEq]
      constructor
      · intro named
        rw [← named, l.lookup_idOf_reached above] at found
        exact Option.some.inj found
      · intro same
        rw [same]
        exact l.wf.idOf_of_lookup found

theorem mem_rooted_iff (l : s.Loaded) : c ∈ s.rooted ↔ s.dominator c = .ok none := by
  rw [l.dominator_eq_ok_iff, rooted, idsOf, List.mem_map]
  constructor
  · intro h
    obtain ⟨r, hr, named⟩ := h
    have reached := l.rooted_reached hr
    exact ⟨r, reached, named, (l.idomIdAt_eq_none_iff reached).mpr hr⟩
  · intro h
    obtain ⟨r, reached, named, none⟩ := h
    exact ⟨r, (l.idomIdAt_eq_none_iff reached).mp none, named⟩

theorem mem_children_iff (l : s.Loaded) (found : s.graph.lookup p = some i) :
    c ∈ s.idsOf (s.tree.childrenOf i) ↔ s.dominator c = .ok (some p) := by
  rw [l.dominator_eq_ok_iff, idsOf, List.mem_map]
  constructor
  · intro h
    obtain ⟨j, hj, named⟩ := h
    have reached := (l.tree.child_below hj).1
    exact ⟨j, reached, named, (l.idomIdAt_eq_some_iff found reached).mpr hj⟩
  · intro h
    obtain ⟨j, reached, named, above⟩ := h
    exact ⟨j, (l.idomIdAt_eq_some_iff found reached).mp above, named⟩

/-- The children of all objects. -/
theorem mapM_nodes_children (l : s.Loaded) : s.nodes.mapM s.children =
    .ok ((s.graph.sortById (List.range s.graph.size)).map fun i => s.idsOf (s.tree.childrenOf i)) := by
  apply mapM_eq_ok
  intro i hi
  have inside : i < s.graph.size := List.mem_range.mp (HeapGraph.mem_sortById.mp hi)
  exact children_eq_ok (l.wf.lookup_idOf inside)

/-- Below the super-root or below another object, each object that is reached has one place. -/
theorem links_cover (l : s.Loaded) :
    (s.rooted ++ ((s.graph.sortById (List.range s.graph.size)).map fun i => s.idsOf (s.tree.childrenOf i)).flatten).Nodup ∧
      ∀ id, id ∈ s.rooted ++
        ((s.graph.sortById (List.range s.graph.size)).map fun i => s.idsOf (s.tree.childrenOf i)).flatten ↔ s.Live id := by
  have ids : s.rooted ++ ((s.graph.sortById (List.range s.graph.size)).map fun i => s.idsOf (s.tree.childrenOf i)).flatten =
      s.idsOf (s.tree.rooted ++ (s.graph.sortById (List.range s.graph.size)).flatMap s.tree.childrenOf) := by
    simp [rooted, idsOf, List.flatMap_def, List.map_flatten, Function.comp_def]
  have mem : ∀ i, i ∈ s.tree.rooted ++ (s.graph.sortById (List.range s.graph.size)).flatMap s.tree.childrenOf ↔
      s.graph.StronglyReachable i := by
    intro i
    rw [List.mem_append, List.mem_flatMap]
    constructor
    · intro h
      cases h with
      | inl top => exact l.rooted_reached top
      | inr child =>
        obtain ⟨p, -, hp⟩ := child
        exact (l.tree.child_below hp).1
    · intro reached
      refine (l.tree.rooted_or_child reached).imp_right ?_
      intro child
      obtain ⟨p, hp⟩ := child
      have above := (l.tree.child_below hp).2.2.reachable reached
      exact ⟨p, HeapGraph.mem_sortById.mpr (List.mem_range.mpr (l.wf.stronglyReachable_lt above)), hp⟩
  rw [ids]
  refine ⟨l.nodup_idsOf (fun i hi => (mem i).mp hi) (l.tree.nodup_links ?_), fun id => ?_⟩
  · exact (s.graph.perm_sortById _).nodup_iff.mpr List.nodup_range
  · rw [l.live_iff, idsOf, List.mem_map]
    simp only [mem]

theorem ascending_rooted (l : s.Loaded) : s.rooted.Pairwise (· < ·) := List.pairwise_map.mpr l.tree.rooted_ascending

theorem ascending_children (l : s.Loaded) (i : Nat) : (s.idsOf (s.tree.childrenOf i)).Pairwise (· < ·) :=
  List.pairwise_map.mpr (l.tree.childrenOf_ascending i)

/-- The chain above an object repeats nothing and goes on as that of its immediate dominator, up to an
object that has none. -/
theorem dominatorsOf_chain (l : s.Loaded) (live : s.Live id) : ∃ chain, s.dominatorsOf id = .ok chain ∧
    chain.Nodup ∧ id ∉ chain ∧ (s.dominator id = .ok none ∧ chain = [] ∨
      ∃ d rest, s.dominator id = .ok (some d) ∧ s.dominatorsOf d = .ok rest ∧ chain = d :: rest) := by
  obtain ⟨i, found, reached⟩ := live
  obtain ⟨nodup, above⟩ := l.tree.climbFrom_above s.tree.idom.size reached
  have named := l.wf.idOf_of_lookup found
  refine ⟨_, l.dominatorsOf_eq_ok found reached, ?_, ?_, ?_⟩
  · exact l.nodup_idsOf (fun x hx => (above x hx).2.reachable reached) nodup
  · intro again
    obtain ⟨x, hx, same⟩ := List.mem_map.mp again
    obtain ⟨other, every⟩ := above x hx
    exact other (l.wf.idOf_inj (l.wf.stronglyReachable_lt (every.reachable reached)) (l.wf.lookup_lt found)
      (same.trans named.symm))
  · rw [l.dominator_eq_ok found reached]
    cases l.tree.rooted_or_child reached with
    | inl top =>
      refine .inl ⟨congrArg _ ((l.idomIdAt_eq_none_iff reached).mpr top), ?_⟩
      rw [l.tree.chainOf_rooted l.wf top]
      rfl
    | inr child =>
      obtain ⟨p, hp⟩ := child
      have parent := (l.tree.child_below hp).2.2.reachable reached
      have place := l.lookup_idOf_reached parent
      refine .inr ⟨s.graph.idOf p, _, congrArg _ ((l.idomIdAt_eq_some_iff place reached).mpr hp),
        l.dominatorsOf_eq_ok place parent, ?_⟩
      rw [l.tree.chainOf_child l.wf hp]
      rfl

theorem mem_withDominators (l : s.Loaded) {k : Nat} : id ∈ s.withDominators k ↔
    ∃ i, (s.graph.StronglyReachable i ∧ (s.tree.chainOf i).length = k) ∧ s.graph.idOf i = id := by
  constructor
  · intro h
    obtain ⟨⟨i, found, reached⟩, chain, asked, long⟩ := h
    rw [l.dominatorsOf_eq_ok found reached] at asked
    rw [← Except.ok.inj asked, idsOf, List.length_map] at long
    exact ⟨i, ⟨reached, long⟩, l.wf.idOf_of_lookup found⟩
  · intro h
    obtain ⟨i, ⟨reached, long⟩, rfl⟩ := h
    have found := l.lookup_idOf_reached reached
    exact ⟨⟨i, found, reached⟩, _, l.dominatorsOf_eq_ok found reached, by rw [idsOf, List.length_map, long]⟩

/-- A layer has as many objects as there are with so many dominators above them. -/
theorem ncard_withDominators (l : s.Loaded) (k : Nat) :
    (s.withDominators k).ncard = ((s.tree.layers[k]?).map List.length).getD 0 := by
  have same : s.withDominators k = ((s.idsOf ((s.tree.layers[k]?).getD [])).toFinset : Set ObjectId) := by
    ext id
    rw [l.mem_withDominators, List.coe_toFinset, Set.mem_ofPred_eq, idsOf, List.mem_map]
    simp only [l.tree.mem_layer_iff l.wf]
  have reached : ∀ i ∈ (s.tree.layers[k]?).getD [], s.graph.StronglyReachable i :=
    fun i hi => ((l.tree.mem_layer_iff l.wf k i).mp hi).1
  rw [same, Set.ncard_coe_finset, List.toFinset_card_of_nodup (l.nodup_idsOf reached (l.tree.nodup_layer l.wf k)),
    idsOf, List.length_map]
  cases s.tree.layers[k]? <;> rfl

end Loaded

/-- The views of the dominator tree agree. Below the super-root and below the objects, each object that
strong references reach stands once and no other stands at all; children and immediate dominators are
two sides of one relation, and the lists are in the order of ids. Chains of dominators come to an end
without repetition. The depths are counted from one without gaps, and the counts are those of the
chains and add up to the number of objects that are reached. -/
theorem children_chains_depths_agree {plan : CancelPlan} {expected : Nat} {records : List Record}
    (loaded : (plan.run (loadExpecting expected records)).1 = .ok s) :
    (HeapGraph.build expected records).outcome.1 = .ok s.graph ∧
    (∃ lists, s.nodes.mapM s.children = .ok lists ∧ (s.rooted ++ lists.flatten).Nodup ∧
      ∀ id, id ∈ s.rooted ++ lists.flatten ↔ s.Live id) ∧
    (s.rooted.Pairwise (· < ·) ∧ ∀ c, c ∈ s.rooted ↔ s.dominator c = .ok none) ∧
    (∀ p children, s.children p = .ok children →
      children.Pairwise (· < ·) ∧ ∀ c, c ∈ children ↔ s.dominator c = .ok (some p)) ∧
    (∀ id, s.Live id → ∃ chain, s.dominatorsOf id = .ok chain ∧ chain.Nodup ∧ id ∉ chain ∧
      (s.dominator id = .ok none ∧ chain = [] ∨
        ∃ d rest, s.dominator id = .ok (some d) ∧ s.dominatorsOf d = .ok rest ∧ chain = d :: rest)) ∧
    s.dominatorDepths.map Prod.fst = List.range' 1 s.dominatorDepths.length ∧
    (∀ entry ∈ s.dominatorDepths, entry.2 ≠ 0) ∧
    (∀ k ≥ 1, (s.dominatorDepths.lookup k).getD 0 =
      {id | s.Live id ∧ ∃ chain, s.dominatorsOf id = .ok chain ∧ chain.length = k - 1}.ncard) ∧
    (s.dominatorDepths.map Prod.snd).sum = s.reachableCount := by
  obtain ⟨built, l⟩ := loaded_of_load (outcome_of_run loaded)
  refine ⟨built, ⟨_, l.mapM_nodes_children, l.links_cover⟩, ⟨l.ascending_rooted, fun c => l.mem_rooted_iff⟩, ?_,
    fun id => l.dominatorsOf_chain, s.map_fst_dominatorDepths, ?_, ?_, ?_⟩
  · intro p children asked
    cases found : s.graph.lookup p with
    | none =>
      rw [Snapshot.children, placeOf_eq_error found] at asked
      cases asked
    | some i =>
      rw [children_eq_ok found] at asked
      obtain rfl := Except.ok.inj asked
      exact ⟨l.ascending_children i, fun c => l.mem_children_iff found⟩
  · intro entry there zero
    rw [dominatorDepths_eq] at there
    obtain ⟨⟨layer, k⟩, hk, rfl⟩ := List.mem_map.mp there
    have found := List.mem_zipIdx_iff_getElem?.mp hk
    exact (l.tree.atDepth_layers l.wf found).1 (List.length_eq_zero_iff.mp zero)
  · intro k positive
    obtain ⟨k, rfl⟩ := Nat.exists_eq_add_of_le' positive
    rw [lookup_dominatorDepths, Nat.add_sub_cancel]
    exact (l.ncard_withDominators k).symm
  · rw [map_snd_dominatorDepths]
    exact l.tree.sum_length_layers l.wf

/-- The root of the loop has the objects of the loop below it. -/
theorem children_chains_depths_agree_watchedLoop : ∃ s, (CancelPlan.never.run (loadExpecting 7 watchedLoop)).1 = .ok s ∧
    s.Live ⟨3⟩ ∧ s.dominatorsOf ⟨3⟩ = .ok [⟨1⟩] ∧ s.dominator ⟨3⟩ = .ok (some ⟨1⟩) ∧ ⟨3⟩ ∉ s.rooted ∧
    (∃ children, s.children ⟨1⟩ = .ok children ∧ ⟨3⟩ ∈ children) ∧
    (s.dominatorDepths.map Prod.snd).sum = s.reachableCount := by
  obtain ⟨s, outcome⟩ := exists_load_watchedLoop
  obtain ⟨built, l⟩ := loaded_of_load outcome
  obtain ⟨-, -, first, third, -⟩ := build_watchedLoop built
  have loaded : (CancelPlan.never.run (loadExpecting 7 watchedLoop)).1 = .ok s := by rw [CancelPlan.run_never, outcome]
  obtain ⟨-, -, ⟨-, top⟩, below, chains, -, -, -, sum⟩ := children_chains_depths_agree loaded
  have live : s.Live ⟨3⟩ := ⟨0, third, (reachable_watchedLoop built).1⟩
  have known := dominatorsOf_watchedLoop l built
  obtain ⟨chain, asked, -, -, link⟩ := chains ⟨3⟩ live
  obtain rfl := Except.ok.inj (asked.symm.trans known)
  have above : s.dominator ⟨3⟩ = .ok (some ⟨1⟩) := by
    cases link with
    | inl ended => cases ended.2
    | inr goes =>
      obtain ⟨d, rest, dominator, -, same⟩ := goes
      rw [dominator, (List.cons.inj same).1]
  refine ⟨s, loaded, live, known, above, ?_, ⟨_, children_eq_ok first, ?_⟩, sum⟩
  · rw [top, above]
    simp
  · exact ((below _ _ (children_eq_ok first)).2 ⟨3⟩).mpr above

end Snapshot

end Retention
