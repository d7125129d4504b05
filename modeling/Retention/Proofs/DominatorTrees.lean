import Retention.Proofs.Numbering
import Retention.Proofs.RootPaths

namespace Retention.HeapGraph

/-- The dominator that a number stands for. -/
def dominatorAt (order : List Nat) (d : Nat) : Dominator :=
  if d = 0 then .superRoot else .node (order.getD d 0)

/-- Each numbered object with what its estimate stands for. -/
def linksOf (order : Array Nat) (e : Estimates) : List (Nat × Dominator) :=
  (List.range' 1 (order.size - 1)).map fun r =>
    let d := ((e[r]?).join).getD 0
    (order.getD r 0, if d = 0 then .superRoot else .node (order.getD d 0))

theorem idom_treeOf (g : HeapGraph) (order : Array Nat) (e : Estimates) (passes : Nat) :
    (g.treeOf order e passes).idom = enterAll (Array.replicate g.size none) (linksOf order e) := rfl

/-- A well-formed heap whose objects are numbered in reverse postorder, with estimates that tell the
dominators. -/
structure Analysed (g : HeapGraph) (order : List Nat) (e : Estimates) : Prop where
  wf : g.WellFormed
  ord : g.strongGraph.IsReversePostorder g.superRoot order
  exact : e.Exact g.strongGraph g.superRoot order

namespace Analysed

variable {g : HeapGraph} {order : List Nat} {e : Estimates} {passes d r v w : Nat}

theorem ne_superRoot (a : g.Analysed order e) (hr : 0 < r) (hv : order[r]? = some v) : v ≠ g.superRoot := by
  intro hc
  have hz := a.ord.index_inj hv (hc ▸ a.ord.getElem?_zero)
  omega

theorem stronglyReachable_iff (a : g.Analysed order e) :
    g.StronglyReachable v ↔ ∃ r, 0 < r ∧ order[r]? = some v := by
  rw [a.wf.stronglyReachable_iff, ← a.ord.mem_iff, List.mem_iff_getElem?]
  constructor
  · rintro ⟨hne, r, hr⟩
    refine ⟨r, Nat.pos_of_ne_zero ?_, hr⟩
    intro hz
    subst hz
    exact hne (Option.some.inj (hr.symm.trans a.ord.getElem?_zero))
  · rintro ⟨r, hr, hv⟩
    exact ⟨a.ne_superRoot hr hv, r, hv⟩

theorem onEveryPath_iff (a : g.Analysed order e) (hd : 0 < d) (hw : order[d]? = some w) (hr : 0 < r)
    (hv : order[r]? = some v) : g.OnEveryPath w v ↔ d ∈ e.chain r := by
  rw [a.wf.onEveryPath_iff (a.ne_superRoot hr hv) (a.ne_superRoot hd hw), a.exact.mem_chain hw hv]

/-- What lies on every path to an object has a number on its chain. -/
theorem exists_number (a : g.Analysed order e) (hr : 0 < r) (hv : order[r]? = some v)
    (h : g.OnEveryPath w v) : ∃ d, 0 < d ∧ order[d]? = some w ∧ d ∈ e.chain r := by
  have reached := h.reachable (a.stronglyReachable_iff.mpr ⟨r, hr, hv⟩)
  obtain ⟨d, hd, hw⟩ := a.stronglyReachable_iff.mp reached
  exact ⟨d, hd, hw, (a.onEveryPath_iff hd hw hr hv).mp h⟩

theorem mem_linksOf (a : g.Analysed order e) {dominator : Dominator} :
    (v, dominator) ∈ linksOf order.toArray e ↔
      ∃ r, 0 < r ∧ order[r]? = some v ∧ dominator = dominatorAt order (e.climb r) := by
  have link : ∀ r, 0 < r → r < order.length → ((e[r]?).join).getD 0 = e.climb r := by
    intro r hr hs
    rw [a.exact.estimate r hr hs]
    rfl
  unfold linksOf dominatorAt
  rw [List.mem_map]
  constructor
  · rintro ⟨r, hm, hl⟩
    have range := List.mem_range'_1.mp hm
    rw [List.size_toArray] at range
    have hs : r < order.length := by omega
    simp only [link r range.1 hs, Array.getD_eq_getD_getElem?, List.getElem?_toArray,
      List.getElem?_eq_getElem hs, Option.getD_some, Prod.mk.injEq] at hl
    refine ⟨r, range.1, hl.1 ▸ List.getElem?_eq_getElem hs, ?_⟩
    rw [← hl.2, List.getD_eq_getElem?_getD]
  · rintro ⟨r, hr, hv, rfl⟩
    have hs := (List.getElem?_eq_some_iff.mp hv).1
    refine ⟨r, List.mem_range'_1.mpr ⟨hr, by rw [List.size_toArray]; omega⟩, ?_⟩
    simp only [link r hr hs, Array.getD_eq_getD_getElem?, List.getElem?_toArray, hv, Option.getD_some,
      List.getD_eq_getElem?_getD]

theorem nodup_links (a : g.Analysed order e) : ((linksOf order.toArray e).map Prod.fst).Nodup := by
  unfold linksOf
  rw [List.map_map]
  refine List.Nodup.map_on ?_ List.nodup_range'
  intro r hr s hs same
  have hr' := List.mem_range'_1.mp hr
  have hs' := List.mem_range'_1.mp hs
  rw [List.size_toArray] at hr' hs'
  have hrl : r < order.length := by omega
  have hsl : s < order.length := by omega
  simp only [Function.comp, Array.getD_eq_getD_getElem?, List.getElem?_toArray,
    List.getElem?_eq_getElem hrl, List.getElem?_eq_getElem hsl, Option.getD_some] at same
  exact a.ord.index_inj (List.getElem?_eq_getElem hrl) (same ▸ List.getElem?_eq_getElem hsl)

theorem mem_keys_iff (a : g.Analysed order e) :
    v ∈ (linksOf order.toArray e).map Prod.fst ↔ g.StronglyReachable v := by
  rw [List.mem_map, a.stronglyReachable_iff]
  constructor
  · rintro ⟨⟨v', dominator⟩, hm, rfl⟩
    obtain ⟨r, hr, hv, -⟩ := a.mem_linksOf.mp hm
    exact ⟨r, hr, hv⟩
  · rintro ⟨r, hr, hv⟩
    exact ⟨_, a.mem_linksOf.mpr ⟨r, hr, hv, rfl⟩, rfl⟩

/-- The tree has the links of the estimates and no others. -/
theorem idomOf_eq_some (a : g.Analysed order e) {dominator : Dominator} :
    (g.treeOf order.toArray e passes).idomOf v = some dominator ↔
      ∃ r, 0 < r ∧ order[r]? = some v ∧ dominator = dominatorAt order (e.climb r) := by
  rw [← a.mem_linksOf]
  unfold DominatorTree.idomOf
  rw [idom_treeOf]
  have linked : ∀ other, (v, other) ∈ linksOf order.toArray e →
      (enterAll (Array.replicate g.size none) (linksOf order.toArray e))[v]? = some (some other) := by
    intro other hm
    have reached := a.mem_keys_iff.mp (List.mem_map_of_mem hm)
    refine enterAll_of_mem a.nodup_links hm ?_
    rw [Array.size_replicate]
    exact a.wf.stronglyReachable_lt reached
  constructor
  · intro h
    by_cases hk : v ∈ (linksOf order.toArray e).map Prod.fst
    · obtain ⟨⟨v', other⟩, hm, rfl⟩ := List.mem_map.mp hk
      rw [linked other hm, Option.join_some, Option.some.injEq] at h
      exact h ▸ hm
    · rw [enterAll_of_not_mem hk, Array.getElem?_replicate] at h
      split at h <;> cases h
  · intro hm
    rw [linked dominator hm]
    rfl

theorem dominatorAt_eq_node (hs : d < order.length) :
    dominatorAt order d = .node w ↔ 0 < d ∧ order[d]? = some w := by
  unfold dominatorAt
  rw [List.getD_eq_getElem?_getD, List.getElem?_eq_getElem hs]
  by_cases hd : d = 0
  · simp [hd]
  · simp [hd, Nat.pos_of_ne_zero hd]

theorem climb_lt_length (hr : 0 < r) (hv : order[r]? = some v) : e.climb r < order.length := by
  have hs := (List.getElem?_eq_some_iff.mp hv).1
  have hlt := e.climb_lt hr
  omega

/-- An object below another one. -/
theorem idomOf_eq_node (a : g.Analysed order e) :
    (g.treeOf order.toArray e passes).idomOf v = some (.node d) ↔
      ∃ r, 0 < r ∧ order[r]? = some v ∧ 0 < e.climb r ∧ order[e.climb r]? = some d := by
  rw [a.idomOf_eq_some]
  constructor
  · rintro ⟨r, hr, hv, hd⟩
    exact ⟨r, hr, hv, (dominatorAt_eq_node (climb_lt_length hr hv)).mp hd.symm⟩
  · rintro ⟨r, hr, hv, hd⟩
    exact ⟨r, hr, hv, ((dominatorAt_eq_node (climb_lt_length hr hv)).mpr hd).symm⟩

theorem idomOf_eq_superRoot (a : g.Analysed order e) :
    (g.treeOf order.toArray e passes).idomOf v = some .superRoot ↔
      ∃ r, 0 < r ∧ order[r]? = some v ∧ e.climb r = 0 := by
  rw [a.idomOf_eq_some]
  unfold dominatorAt
  constructor
  · rintro ⟨r, hr, hv, hd⟩
    refine ⟨r, hr, hv, ?_⟩
    by_contra hne
    rw [if_neg hne] at hd
    cases hd
  · rintro ⟨r, hr, hv, hd⟩
    exact ⟨r, hr, hv, by rw [if_pos hd]⟩

theorem idomOf_eq_none (a : g.Analysed order e) :
    (g.treeOf order.toArray e passes).idomOf v = none ↔ ¬ g.StronglyReachable v := by
  rw [a.stronglyReachable_iff, Option.eq_none_iff_forall_ne_some]
  constructor
  · rintro h ⟨r, hr, hv⟩
    exact h _ (a.idomOf_eq_some.mpr ⟨r, hr, hv, rfl⟩)
  · intro h dominator hd
    obtain ⟨r, hr, hv, -⟩ := a.idomOf_eq_some.mp hd
    exact h ⟨r, hr, hv⟩

/-- The objects that are linked to something in one way each, sorted, are different objects. -/
theorem nodup_filterMap_links (a : g.Analysed order e) (f : Nat × Dominator → Option Nat)
    (own : ∀ link c, f link = some c → c = link.1) :
    ((linksOf order.toArray e).filterMap f).Nodup := by
  have apart := List.pairwise_map.mp a.nodup_links
  refine apart.filterMap f ?_
  intro x y hxy c hc c' hc' same
  exact hxy (own x c hc ▸ own y c' hc' ▸ same)

theorem mem_rooted (a : g.Analysed order e) :
    v ∈ (g.treeOf order.toArray e passes).rooted ↔
      (g.treeOf order.toArray e passes).idomOf v = some .superRoot := by
  rw [a.idomOf_eq_some, ← a.mem_linksOf]
  change v ∈ g.sortById ((linksOf order.toArray e).filterMap fun link =>
    if link.2 = .superRoot then some link.1 else none) ↔ _
  rw [mem_sortById, List.mem_filterMap]
  constructor
  · rintro ⟨⟨c, dominator⟩, hm, hc⟩
    split at hc
    · rename_i hd
      cases Option.some.inj hc
      exact hd ▸ hm
    · cases hc
  · intro hm
    exact ⟨_, hm, by simp⟩

theorem rooted_ascending (a : g.Analysed order e) :
    (g.treeOf order.toArray e passes).rooted.Pairwise fun i j => g.idOf i < g.idOf j := by
  refine a.wf.sortById_strict ?_ ?_
  · intro i hi
    have hr : i ∈ (g.treeOf order.toArray e passes).rooted := mem_sortById.mpr hi
    obtain ⟨r, hr, hv, -⟩ := a.idomOf_eq_some.mp (a.mem_rooted.mp hr)
    exact a.wf.stronglyReachable_lt (a.stronglyReachable_iff.mpr ⟨r, hr, hv⟩)
  · refine a.nodup_filterMap_links (fun link => if link.2 = .superRoot then some link.1 else none) ?_
    intro link c hc
    split at hc
    · exact (Option.some.inj hc).symm
    · cases hc

/-- The objects whose link names the object at `p`. -/
def linkedTo (links : List (Nat × Dominator)) (p : Nat) : List Nat :=
  links.filterMap fun link => if link.2 = .node p then some link.1 else none

theorem filter_below (links : List (Nat × Dominator)) (p : Nat) :
    ((links.filterMap fun (v, d) =>
        match d with
        | .node parent => some (parent, v)
        | .superRoot => none).filter (·.1 == p)).map (·.2) = linkedTo links p := by
  unfold linkedTo
  induction links with
  | nil => rfl
  | cons link rest ih =>
    obtain ⟨v, dominator⟩ := link
    cases dominator with
    | superRoot => simpa using ih
    | node parent =>
      by_cases hp : parent = p
      · simpa [hp] using ih
      · simpa [hp] using ih

theorem childrenOf_treeOf (order : Array Nat) {p : Nat} (hp : p < g.size) :
    (g.treeOf order e passes).childrenOf p = g.sortById (linkedTo (linksOf order e) p) := by
  rw [← filter_below]
  unfold DominatorTree.childrenOf treeOf
  rw [Array.getD_eq_getD_getElem?, Array.getElem?_map, getElem?_buckets _ _ hp]
  rfl

theorem childrenOf_outside (order : Array Nat) {p : Nat} (hp : ¬ p < g.size) :
    (g.treeOf order e passes).childrenOf p = [] := by
  unfold DominatorTree.childrenOf treeOf
  rw [Array.getD_eq_getD_getElem?, Array.getElem?_eq_none]
  · rfl
  · rw [Array.size_map, size_buckets]
    omega

theorem mem_childrenOf (a : g.Analysed order e) {p c : Nat} :
    c ∈ (g.treeOf order.toArray e passes).childrenOf p ↔
      (g.treeOf order.toArray e passes).idomOf c = some (.node p) := by
  by_cases hp : p < g.size
  · rw [childrenOf_treeOf _ hp, mem_sortById, a.idomOf_eq_some, ← a.mem_linksOf]
    unfold linkedTo
    rw [List.mem_filterMap]
    constructor
    · rintro ⟨⟨v, dominator⟩, hm, hc⟩
      split at hc
      · rename_i hd
        cases Option.some.inj hc
        exact hd ▸ hm
      · cases hc
    · intro hm
      exact ⟨_, hm, by simp⟩
  · rw [childrenOf_outside _ hp]
    constructor
    · exact fun hc => absurd hc List.not_mem_nil
    · intro hc
      obtain ⟨r, hr, hv, hpos, hd⟩ := a.idomOf_eq_node.mp hc
      exact absurd (a.wf.stronglyReachable_lt (a.stronglyReachable_iff.mpr ⟨_, hpos, hd⟩)) hp

theorem childrenOf_ascending (a : g.Analysed order e) (p : Nat) :
    ((g.treeOf order.toArray e passes).childrenOf p).Pairwise fun i j => g.idOf i < g.idOf j := by
  by_cases hp : p < g.size
  · rw [childrenOf_treeOf _ hp]
    refine a.wf.sortById_strict ?_ ?_
    · intro c hc
      have child : c ∈ (g.treeOf order.toArray e passes).childrenOf p := by
        rw [childrenOf_treeOf _ hp]
        exact mem_sortById.mpr hc
      obtain ⟨r, hr, hv, -⟩ := a.idomOf_eq_node.mp (a.mem_childrenOf.mp child)
      exact a.wf.stronglyReachable_lt (a.stronglyReachable_iff.mpr ⟨r, hr, hv⟩)
    · refine a.nodup_filterMap_links (fun link => if link.2 = .node p then some link.1 else none) ?_
      intro link c hc
      split at hc
      · exact (Option.some.inj hc).symm
      · cases hc
  · rw [childrenOf_outside _ hp]
    exact List.Pairwise.nil

end Analysed

end Retention.HeapGraph
