import Mathlib.Data.List.Count
import Retention.Proofs.DominatorTrees

namespace Retention

namespace DominatorTree

/-- The objects in the tree, by place. -/
def members (t : DominatorTree) : List Nat := (List.range t.idom.size).filter t.isReachable

theorem mem_members {t : DominatorTree} {i : Nat} : i ∈ t.members ↔ (t.idomOf i).isSome := by
  unfold members isReachable
  rw [List.mem_filter, List.mem_range]
  constructor
  · exact fun h => h.2
  · intro h
    refine ⟨?_, h⟩
    by_contra hi
    rw [idomOf, Array.getElem?_eq_none (Nat.le_of_not_lt hi)] at h
    exact absurd h (by simp)

theorem nodup_members (t : DominatorTree) : t.members.Nodup := List.nodup_range.filter _

theorem reachable_eq_length (t : DominatorTree) : t.reachable = t.members.length := by
  have slots : t.idom.toList = (List.range t.idom.size).map t.idomOf := by
    apply List.ext_getElem
    · simp
    · intro i hi _
      rw [Array.length_toList] at hi
      rw [Array.getElem_toList, List.getElem_map, List.getElem_range, idomOf, Array.getElem?_eq_getElem hi]
      rfl
  unfold reachable members
  rw [← Array.countP_toList, slots, List.countP_map, List.countP_eq_length_filter]
  rfl

end DominatorTree

namespace HeapGraph

/-- What the dominator tree of a heap is. -/
structure IsDominatorTree (g : HeapGraph) (t : DominatorTree) : Prop where
  size_idom : t.idom.size = g.size
  size_children : t.children.size = g.size
  unreached : ∀ v, t.idomOf v = none ↔ ¬ g.StronglyReachable v
  below : ∀ v d, t.idomOf v = some (.node d) ↔
    g.StronglyReachable v ∧ d ≠ v ∧ g.OnEveryPath d v ∧
      ∀ w, w ≠ v → g.OnEveryPath w v → g.OnEveryPath w d
  shared : ∀ v, t.idomOf v = some .superRoot ↔
    g.StronglyReachable v ∧ ∀ w, g.OnEveryPath w v → w = v
  /-- Dominators come first in some numbering, so there are no cycles. -/
  falls : ∃ rank : Nat → Nat, ∀ v d, t.idomOf v = some (.node d) → rank d < rank v
  mem_childrenOf : ∀ p c, c ∈ t.childrenOf p ↔ t.idomOf c = some (.node p)
  childrenOf_ascending : ∀ p, (t.childrenOf p).Pairwise fun i j => g.idOf i < g.idOf j
  mem_rooted : ∀ c, c ∈ t.rooted ↔ t.idomOf c = some .superRoot
  rooted_ascending : t.rooted.Pairwise fun i j => g.idOf i < g.idOf j

namespace Analysed

variable {g : HeapGraph} {order : List Nat} {e : Estimates} {passes d v w : Nat}

theorem below_of_idom (a : g.Analysed order e)
    (h : (g.treeOf order.toArray e passes).idomOf v = some (.node d)) :
    g.StronglyReachable v ∧ d ≠ v ∧ g.OnEveryPath d v ∧
      ∀ w, w ≠ v → g.OnEveryPath w v → g.OnEveryPath w d := by
  obtain ⟨r, hr, hv, hpos, hd⟩ := a.idomOf_eq_node.mp h
  have hlt := e.climb_lt hr
  have above : e.climb r ∈ e.chain r := Estimates.mem_chain_of_climb hr (e.self_mem_chain _)
  refine ⟨a.stronglyReachable_iff.mpr ⟨r, hr, hv⟩, ?_, (a.onEveryPath_iff hpos hd hr hv).mpr above, ?_⟩
  · intro same
    have hc := a.ord.index_inj (same ▸ hd) hv
    omega
  · intro w hw every
    obtain ⟨k, hk, hwk, hkr⟩ := a.exists_number hr hv every
    have hne : k ≠ r := by
      intro same
      subst same
      exact hw (Option.some.inj (hwk.symm.trans hv))
    exact (a.onEveryPath_iff hk hwk hpos hd).mpr (Estimates.mem_chain_climb hkr hne)

theorem shared_of_idom (a : g.Analysed order e)
    (h : (g.treeOf order.toArray e passes).idomOf v = some .superRoot) :
    g.StronglyReachable v ∧ ∀ w, g.OnEveryPath w v → w = v := by
  obtain ⟨r, hr, hv, hz⟩ := a.idomOf_eq_superRoot.mp h
  refine ⟨a.stronglyReachable_iff.mpr ⟨r, hr, hv⟩, ?_⟩
  intro w every
  obtain ⟨k, hk, hwk, hkr⟩ := a.exists_number hr hv every
  have same : k = r := by
    by_contra hne
    have hc := Estimates.mem_chain_climb hkr hne
    rw [hz] at hc
    have hk0 := Estimates.mem_chain_zero.mp hc
    omega
  subst same
  exact Option.some.inj (hwk.symm.trans hv)

/-- An object that is reached hangs somewhere. -/
theorem exists_idom (a : g.Analysed order e) (hv : g.StronglyReachable v) :
    (g.treeOf order.toArray e passes).idomOf v = some .superRoot ∨
      ∃ d, (g.treeOf order.toArray e passes).idomOf v = some (.node d) := by
  cases h : (g.treeOf order.toArray e passes).idomOf v with
  | none => exact absurd hv (a.idomOf_eq_none.mp h)
  | some dominator =>
    cases dominator with
    | superRoot => exact .inl rfl
    | node d => exact .inr ⟨d, rfl⟩

theorem isDominatorTree (a : g.Analysed order e) : g.IsDominatorTree (g.treeOf order.toArray e passes) where
  size_idom := by rw [idom_treeOf, size_enterAll, Array.size_replicate]
  size_children := by
    unfold treeOf
    rw [Array.size_map, size_buckets]
  unreached := fun v => a.idomOf_eq_none
  below := by
    intro v d
    constructor
    · exact a.below_of_idom
    · rintro ⟨hv, hne, every, nearest⟩
      rcases a.exists_idom hv with h | ⟨d', h⟩
      · exact absurd ((a.shared_of_idom h).2 d every) hne
      · obtain ⟨-, hne', every', nearest'⟩ := a.below_of_idom h
        have same : d = d' := OnEveryPath.antisymm (every'.reachable hv) (nearest' d hne every)
          (nearest d' hne' every')
        exact same ▸ h
  shared := by
    intro v
    constructor
    · exact a.shared_of_idom
    · rintro ⟨hv, alone⟩
      rcases a.exists_idom hv with h | ⟨d, h⟩
      · exact h
      · obtain ⟨-, hne, every, -⟩ := a.below_of_idom h
        exact absurd (alone d every) hne
  falls := by
    refine ⟨order.idxOf, ?_⟩
    intro v d h
    obtain ⟨r, hr, hv, -, hd⟩ := a.idomOf_eq_node.mp h
    change order.idxOf d < order.idxOf v
    rw [a.ord.idxOf_eq hv, a.ord.idxOf_eq hd]
    exact e.climb_lt hr
  mem_childrenOf := fun p c => a.mem_childrenOf
  childrenOf_ascending := a.childrenOf_ascending
  mem_rooted := fun c => a.mem_rooted
  rooted_ascending := a.rooted_ascending

theorem mem_tail (a : g.Analysed order e) : v ∈ order.tail ↔ g.StronglyReachable v := by
  rw [a.stronglyReachable_iff, List.mem_iff_getElem?]
  constructor
  · intro h
    obtain ⟨r, hv⟩ := h
    exact ⟨r + 1, Nat.succ_pos r, by rwa [List.getElem?_tail] at hv⟩
  · intro h
    obtain ⟨r, hr, hv⟩ := h
    exact ⟨r - 1, by rwa [List.getElem?_tail, Nat.sub_add_cancel hr]⟩

/-- All numbered vertices but the entry are in the tree. -/
theorem reachable_treeOf (a : g.Analysed order e) :
    (g.treeOf order.toArray e passes).reachable + 1 = order.length := by
  have perm : (g.treeOf order.toArray e passes).members.Perm order.tail := by
    rw [List.perm_ext_iff_of_nodup (DominatorTree.nodup_members _) (a.ord.nodup.sublist (List.tail_sublist order))]
    intro v
    rw [DominatorTree.mem_members, Option.isSome_iff_ne_none, ne_eq, a.idomOf_eq_none, not_not, a.mem_tail]
  have hlen := a.ord.length_pos
  rw [DominatorTree.reachable_eq_length, perm.length_eq, List.length_tail]
  omega

/-- No numbered vertex is left without an estimate. -/
theorem filter_undefined (a : g.Analysed order e) :
    ((List.range' 1 (order.length - 1)).filter fun r => !e.isDefined r) = [] := by
  rw [List.filter_eq_nil_iff]
  intro r hr
  have range := List.mem_range'_1.mp hr
  have estimate := a.exact.estimate r range.1 (by omega)
  simp [Estimates.isDefined, estimate]

end Analysed

theorem dominators_returns {g : HeapGraph} {e : Estimates} {n : Nat} (limit : Option Nat)
    (a : g.Analysed (g.strongGraph.reversePostorder g.superRoot) e)
    (settled : ∀ failure, (Sweep.settle (predecessors g.strongGraph (g.strongGraph.reversePostorder g.superRoot))
      (limit.getD ((g.strongGraph.reversePostorder g.superRoot).length + 3)) failure 0
      (.initial (g.strongGraph.reversePostorder g.superRoot).length)).Returns (.ok (e, n))) :
    (g.dominators limit).Returns
      (.ok (g.treeOf (g.strongGraph.reversePostorder g.superRoot).toArray e n)) := by
  unfold dominators
  refine (Load.runs_forM_poll _).returns.bind ?_
  refine (Load.runsBy_notify trivial).bind ?_
  refine (settled _).bind ?_
  simp only [a.filter_undefined, List.isEmpty_nil, if_true]
  exact (Load.runsBy_notify trivial).bind (Load.runsBy_pure _)

/-- The tree is found with every limit that allows for its sweeps, and they are few. -/
theorem WellFormed.exists_dominators {g : HeapGraph} (wf : g.WellFormed) :
    ∃ t, g.IsDominatorTree t ∧ t.passes ≤ t.reachable + 2 ∧
      ∀ limit : Option Nat, t.passes ≤ limit.getD (t.reachable + 4) → (g.dominators limit).Returns (.ok t) := by
  have ord := Digraph.isReversePostorder_reversePostorder wf.closed g.superRoot
  obtain ⟨e, n, -, hn, exact, settled⟩ := ord.exists_settled wf.closed
  have a : g.Analysed _ e := ⟨wf, ord, exact⟩
  have hr : (g.treeOf _ e n).reachable + 1 = _ := a.reachable_treeOf
  refine ⟨g.treeOf _ e n, a.isDominatorTree, ?_, ?_⟩
  · change n ≤ _
    omega
  · intro limit hl
    change n ≤ _ at hl
    refine dominators_returns limit a fun failure => settled _ failure ?_
    have bound : (g.strongGraph.reversePostorder g.superRoot).length + 3 =
        (g.treeOf (g.strongGraph.reversePostorder g.superRoot).toArray e n).reachable + 4 := by omega
    rwa [bound]

theorem WellFormed.exists_tree {g : HeapGraph} (wf : g.WellFormed) :
    ∃ t, (g.dominators none).outcome.1 = .ok t ∧ g.IsDominatorTree t := by
  obtain ⟨t, tree, few, returns⟩ := wf.exists_dominators
  have room : t.passes ≤ (none : Option Nat).getD (t.reachable + 4) := by
    show t.passes ≤ t.reachable + 4
    omega
  exact ⟨t, (returns none room).outcome_eq, tree⟩

theorem WellFormed.isDominatorTree {g : HeapGraph} {t : DominatorTree} (wf : g.WellFormed)
    (found : (g.dominators none).outcome.1 = .ok t) : g.IsDominatorTree t := by
  obtain ⟨other, also, tree⟩ := wf.exists_tree
  rw [found] at also
  exact Except.ok.inj also ▸ tree

/-- The dominator tree names the immediate dominator of every object. -/
theorem dominators_immediate {expected : Nat} {records : List Record} {g : HeapGraph}
    (h : (build expected records).outcome.1 = .ok g) :
    ∃ tree, (g.dominators none).outcome.1 = .ok tree ∧ ∀ v,
      (tree.idomOf v = none ↔ ¬ g.StronglyReachable v) ∧
      (∀ d, tree.idomOf v = some (.node d) ↔
        g.StronglyReachable v ∧ d ≠ v ∧ g.OnEveryPath d v ∧
          ∀ w, w ≠ v → g.OnEveryPath w v → g.OnEveryPath w d) ∧
      (tree.idomOf v = some .superRoot ↔
        g.StronglyReachable v ∧ ∀ w, w ≠ v → ¬ g.OnEveryPath w v) := by
  obtain ⟨t, tree, hp, returns⟩ := (WellFormed.of_build h).exists_dominators
  refine ⟨t, (returns none (by change t.passes ≤ t.reachable + 4; omega)).outcome_eq, ?_⟩
  intro v
  refine ⟨tree.unreached v, tree.below v, ?_⟩
  rw [tree.shared v]
  constructor
  · exact fun hs => ⟨hs.1, fun w hw every => hw (hs.2 w every)⟩
  · exact fun hs => ⟨hs.1, fun w every => not_imp_not.mp (hs.2 w) every⟩

/-- Two objects that refer to each other and are both reached from a third, with a duplicate, a weak,
a null and a dangling reference and a root that names no object. -/
def twoEntryLoop : List Record :=
  [.root ⟨1⟩ .thread, .root ⟨9⟩ .monitor,
    .object .instanceObject ⟨⟨3⟩, none, 5, [⟨.field "back", some ⟨2⟩, true⟩, ⟨.field "weak", some ⟨4⟩, false⟩]⟩,
    .object .instanceObject ⟨⟨1⟩, none, 7, [⟨.field "a", some ⟨2⟩, true⟩, ⟨.field "b", some ⟨3⟩, true⟩]⟩,
    .object .instanceObject ⟨⟨2⟩, none, 11, [⟨.field "on", some ⟨3⟩, true⟩, ⟨.field "again", some ⟨3⟩, true⟩]⟩,
    .object .instanceObject ⟨⟨4⟩, none, 13, [⟨.field "null", none, true⟩, ⟨.field "gone", some ⟨8⟩, true⟩]⟩]

theorem dominators_immediate_twoEntryLoop :
    ∃ g, (build 6 twoEntryLoop).outcome.1 = .ok g ∧ ∃ tree, (g.dominators none).outcome.1 = .ok tree ∧
      ∀ v d, tree.idomOf v = some (.node d) ↔
        g.StronglyReachable v ∧ d ≠ v ∧ g.OnEveryPath d v ∧
          ∀ w, w ≠ v → g.OnEveryPath w v → g.OnEveryPath w d := by
  refine ⟨_, rfl, ?_⟩
  obtain ⟨tree, found, immediate⟩ := @dominators_immediate 6 twoEntryLoop _ rfl
  exact ⟨tree, found, fun v => (immediate v).2.1⟩

end HeapGraph

end Retention
