import Retention.Proofs.ImmediateDominators

namespace Retention.HeapGraph

/-- No object is kept by two of the objects. -/
def Apart (g : HeapGraph) (places : List Nat) : Prop :=
  ∀ a ∈ places, ∀ b ∈ places, ∀ v, g.Keeps a v → g.Keeps b v → a = b

namespace IsDominatorTree

variable {g : HeapGraph} {t : DominatorTree} {a b c d i v : Nat}

theorem isReachable_iff (tree : g.IsDominatorTree t) : t.isReachable v = true ↔ g.StronglyReachable v := by
  unfold DominatorTree.isReachable
  rw [Option.isSome_iff_ne_none, ne_eq, tree.unreached, not_not]

theorem stronglyReachable_of_idom (tree : g.IsDominatorTree t) {dominator : Dominator}
    (h : t.idomOf v = some dominator) : g.StronglyReachable v := by
  rw [← tree.isReachable_iff, DominatorTree.isReachable, h]
  rfl

/-- Induction down the tree, from the objects right below the super-root. -/
theorem descend (tree : g.IsDominatorTree t) {motive : Nat → Prop}
    (top : ∀ v, t.idomOf v = some .superRoot → motive v)
    (down : ∀ v d, t.idomOf v = some (.node d) → motive d → motive v)
    (v : Nat) (hv : g.StronglyReachable v) : motive v := by
  obtain ⟨rank, falls⟩ := tree.falls
  induction hr : rank v using Nat.strongRecOn generalizing v with
  | ind r ih =>
    cases h : t.idomOf v with
    | none => exact absurd hv ((tree.unreached v).mp h)
    | some dominator =>
      cases dominator with
      | superRoot => exact top v h
      | node d =>
        have reached := ((tree.below v d).mp h).2.2.1.reachable hv
        exact down v d h (ih (rank d) (hr ▸ falls v d h) d reached rfl)

/-- Of two objects on every path to a third, one is on every path to the other. -/
theorem onEveryPath_total (tree : g.IsDominatorTree t) (hv : g.StronglyReachable v) :
    g.OnEveryPath a v → g.OnEveryPath b v → g.OnEveryPath a b ∨ g.OnEveryPath b a := by
  refine tree.descend (motive := fun v => g.OnEveryPath a v → g.OnEveryPath b v →
    g.OnEveryPath a b ∨ g.OnEveryPath b a) ?_ ?_ v hv
  · intro v h ha hb
    have alone := ((tree.shared v).mp h).2
    rw [alone a ha, alone b hb]
    exact .inl (.refl g v)
  · intro v d h ih ha hb
    have nearest := ((tree.below v d).mp h).2.2.2
    by_cases hav : a = v
    · exact .inr (hav ▸ hb)
    · by_cases hbv : b = v
      · exact .inl (hbv ▸ ha)
      · exact ih (nearest a hav ha) (nearest b hbv hb)

/-- Two objects that hang at the same place keep nothing in common. -/
theorem siblings (tree : g.IsDominatorTree t) (same : t.idomOf a = t.idomOf b) (ha : g.Keeps a v)
    (hb : g.Keeps b v) : a = b := by
  -- If one were on every path to the other, it would also be on every path to their common parent.
  have one : ∀ x y, t.idomOf x = t.idomOf y → g.StronglyReachable y → g.OnEveryPath x y → x = y := by
    intro x y same hy hxy
    by_contra hne
    cases h : t.idomOf y with
    | none => exact (tree.unreached y).mp h hy
    | some dominator =>
      cases dominator with
      | superRoot => exact hne (((tree.shared y).mp h).2 x hxy)
      | node d =>
        obtain ⟨-, -, -, nearest⟩ := (tree.below y d).mp h
        obtain ⟨hx, hdx, above, -⟩ := (tree.below x d).mp (same.trans h)
        exact hdx (OnEveryPath.antisymm hx above (nearest x hne hxy))
  cases tree.onEveryPath_total ha.1 ha.2 hb.2 with
  | inl h => exact one a b same (hb.2.reachable ha.1) h
  | inr h => exact (one b a same.symm (ha.2.reachable ha.1) h).symm

theorem child_below (tree : g.IsDominatorTree t) (hc : c ∈ t.childrenOf i) :
    g.StronglyReachable c ∧ i ≠ c ∧ g.OnEveryPath i c := by
  have h := (tree.below c i).mp ((tree.mem_childrenOf i c).mp hc)
  exact ⟨h.1, h.2.1, h.2.2.1⟩

theorem childrenOf_unreached (tree : g.IsDominatorTree t) (hi : ¬ g.StronglyReachable i) : t.childrenOf i = [] := by
  apply List.eq_nil_iff_forall_not_mem.mpr
  intro c hc
  have below := tree.child_below hc
  exact hi (below.2.2.reachable below.1)

theorem apart_childrenOf (tree : g.IsDominatorTree t) (i : Nat) : g.Apart (t.childrenOf i) := by
  intro a ha b hb v
  exact tree.siblings (((tree.mem_childrenOf i a).mp ha).trans ((tree.mem_childrenOf i b).mp hb).symm)

theorem apart_rooted (tree : g.IsDominatorTree t) : g.Apart t.rooted := by
  intro a ha b hb v
  exact tree.siblings (((tree.mem_rooted a).mp ha).trans ((tree.mem_rooted b).mp hb).symm)

theorem not_keeps_parent (tree : g.IsDominatorTree t) (hc : c ∈ t.childrenOf i) : ¬ g.Keeps c i := by
  intro keeps
  obtain ⟨reached, hne, above⟩ := tree.child_below hc
  exact hne (OnEveryPath.antisymm reached above keeps.2)

/-- What an object keeps, other than itself, one of its children keeps. -/
theorem exists_child (tree : g.IsDominatorTree t) (hv : g.StronglyReachable v) :
    i ≠ v → g.OnEveryPath i v → ∃ c ∈ t.childrenOf i, g.OnEveryPath c v := by
  refine tree.descend (motive := fun v => i ≠ v → g.OnEveryPath i v →
    ∃ c ∈ t.childrenOf i, g.OnEveryPath c v) ?_ ?_ v hv
  · intro v h hne every
    exact absurd (((tree.shared v).mp h).2 i every) hne
  · intro v d h ih hne every
    obtain ⟨-, -, above, nearest⟩ := (tree.below v d).mp h
    by_cases hid : i = d
    · exact ⟨v, (tree.mem_childrenOf i v).mpr (hid ▸ h), .refl g v⟩
    · obtain ⟨c, hc, hcd⟩ := ih hid (nearest i hne every)
      exact ⟨c, hc, hcd.trans above⟩

theorem keeps_iff (tree : g.IsDominatorTree t) (hi : g.StronglyReachable i) :
    g.Keeps i v ↔ v = i ∨ ∃ c ∈ t.childrenOf i, g.Keeps c v := by
  constructor
  · intro h
    by_cases hne : i = v
    · exact .inl hne.symm
    · obtain ⟨c, hc, every⟩ := tree.exists_child h.1 hne h.2
      exact .inr ⟨c, hc, h.1, every⟩
  · intro h
    cases h with
    | inl same =>
      subst same
      exact ⟨hi, .refl g v⟩
    | inr below =>
      obtain ⟨c, hc, hv, every⟩ := below
      exact ⟨hv, (tree.child_below hc).2.2.trans every⟩

theorem stronglyReachable_iff_rooted (tree : g.IsDominatorTree t) :
    g.StronglyReachable v ↔ ∃ r ∈ t.rooted, g.Keeps r v := by
  constructor
  · intro hv
    refine tree.descend (motive := fun v => ∃ r ∈ t.rooted, g.Keeps r v) ?_ ?_ v hv
    · intro v h
      exact ⟨v, (tree.mem_rooted v).mpr h, tree.stronglyReachable_of_idom h, .refl g v⟩
    · intro v d h ih
      obtain ⟨r, hr, keeps⟩ := ih
      obtain ⟨hv, -, above, -⟩ := (tree.below v d).mp h
      exact ⟨r, hr, hv, keeps.2.trans above⟩
  · rintro ⟨r, -, keeps⟩
    exact keeps.1

theorem nodup_childrenOf (tree : g.IsDominatorTree t) (i : Nat) : (t.childrenOf i).Nodup :=
  nodup_of_ascending (tree.childrenOf_ascending i)

theorem nodup_rooted (tree : g.IsDominatorTree t) : t.rooted.Nodup :=
  nodup_of_ascending tree.rooted_ascending

theorem edge_graph (tree : g.IsDominatorTree t) :
    t.graph.Edge a b ↔ a = g.size ∧ b ∈ t.rooted ∨ b ∈ t.childrenOf a := by
  unfold Digraph.Edge Digraph.successors DominatorTree.graph DominatorTree.childrenOf
  rw [Array.getD_eq_getD_getElem?, Array.getD_eq_getD_getElem?, Array.getElem?_push, tree.size_children]
  by_cases ha : a = g.size
  · rw [if_pos ha, Array.getElem?_eq_none (Nat.le_of_eq (tree.size_children.trans ha.symm))]
    simp [ha]
  · rw [if_neg ha]
    simp [ha]

theorem closed_graph (tree : g.IsDominatorTree t) (wf : g.WellFormed) : t.graph.Closed := by
  intro a b h
  have reached : g.StronglyReachable b := by
    cases tree.edge_graph.mp h with
    | inl h => exact tree.stronglyReachable_of_idom ((tree.mem_rooted b).mp h.2)
    | inr h => exact (tree.child_below h).1
  have hb := wf.stronglyReachable_lt reached
  have hs : t.graph.size = g.size + 1 := by
    rw [Digraph.size, DominatorTree.graph, Array.size_push, tree.size_children]
  omega

/-- From an object the tree leads only to what the object lies on every path to. -/
theorem onEveryPath_of_reaches (tree : g.IsDominatorTree t) (wf : g.WellFormed) (ha : a < g.size)
    (h : t.graph.Reaches a b) : b < g.size ∧ g.OnEveryPath a b := by
  refine h.mem_of_closed (s := fun b => b < g.size ∧ g.OnEveryPath a b) ⟨ha, .refl g a⟩ ?_
  intro u v hu edge
  cases tree.edge_graph.mp edge with
  | inl top => exact absurd top.1 (Nat.ne_of_lt hu.1)
  | inr child =>
    obtain ⟨reached, -, every⟩ := tree.child_below child
    exact ⟨wf.stronglyReachable_lt reached, hu.2.trans every⟩

theorem reaches_graph (tree : g.IsDominatorTree t) :
    t.graph.Reaches g.size v ↔ v = g.size ∨ g.StronglyReachable v := by
  constructor
  · intro h
    refine h.mem_of_closed (s := fun v => v = g.size ∨ g.StronglyReachable v) (.inl rfl) ?_
    intro u v _ edge
    cases tree.edge_graph.mp edge with
    | inl top => exact .inr (tree.stronglyReachable_of_idom ((tree.mem_rooted v).mp top.2))
    | inr child => exact .inr (tree.child_below child).1
  · intro h
    cases h with
    | inl entry => exact entry ▸ .refl _ _
    | inr hv =>
      refine tree.descend (motive := fun v => t.graph.Reaches g.size v) ?_ ?_ v hv
      · intro v h
        exact (Digraph.Reaches.refl _ _).tail (tree.edge_graph.mpr (.inl ⟨rfl, (tree.mem_rooted v).mpr h⟩))
      · intro v d h ih
        exact ih.tail (tree.edge_graph.mpr (.inr ((tree.mem_childrenOf d v).mpr h)))

theorem isReversePostorder_graph (tree : g.IsDominatorTree t) (wf : g.WellFormed) :
    t.graph.IsReversePostorder g.size (g.size :: t.bottomUp.reverse) := by
  have ord := Digraph.isReversePostorder_reversePostorder (tree.closed_graph wf) t.children.size
  unfold DominatorTree.bottomUp
  rw [List.reverse_reverse]
  rw [tree.size_children] at ord ⊢
  have split : g.size :: (t.graph.reversePostorder g.size).tail = t.graph.reversePostorder g.size :=
    List.cons_head?_tail ord.head
  rw [split]
  exact ord

theorem mem_bottomUp (tree : g.IsDominatorTree t) (wf : g.WellFormed) :
    i ∈ t.bottomUp ↔ g.StronglyReachable i := by
  have ord := tree.isReversePostorder_graph wf
  have fresh := (List.nodup_cons.mp ord.nodup).1
  have reached := ord.mem_iff i
  rw [List.mem_cons, List.mem_reverse, tree.reaches_graph] at reached
  constructor
  · intro hi
    have hne : i ≠ g.size := fun same => fresh (List.mem_reverse.mpr (same ▸ hi))
    exact (reached.mp (.inr hi)).resolve_left hne
  · intro hi
    exact (reached.mpr (.inr hi)).resolve_left (Nat.ne_of_lt (wf.stronglyReachable_lt hi))

/-- In the bottom-up order no object comes after its parent. -/
theorem bottomUp_ordered (tree : g.IsDominatorTree t) (wf : g.WellFormed) :
    t.bottomUp.Pairwise fun parent child => child ∉ t.childrenOf parent := by
  have backward := (List.pairwise_cons.mp (tree.isReversePostorder_graph wf).backward).2
  refine (List.pairwise_reverse.mp backward).imp ?_
  intro parent child back hc
  obtain ⟨reached, hne, every⟩ := tree.child_below hc
  have cycle := back (tree.edge_graph.mpr (.inr hc))
  have above := (tree.onEveryPath_of_reaches wf (wf.stronglyReachable_lt reached) cycle).2
  exact hne (OnEveryPath.antisymm reached every above)

theorem children_done (tree : g.IsDominatorTree t) (wf : g.WellFormed) {done rest : List Nat}
    (h : t.bottomUp = done ++ i :: rest) (hc : c ∈ t.childrenOf i) : c ∈ done := by
  have ordered := tree.bottomUp_ordered wf
  obtain ⟨reached, hne, -⟩ := tree.child_below hc
  have hmem := (tree.mem_bottomUp wf).mpr reached
  rw [h] at ordered hmem
  have later := (List.pairwise_cons.mp (List.pairwise_append.mp ordered).2.1).1
  cases List.mem_append.mp hmem with
  | inl hd => exact hd
  | inr hr =>
    cases List.mem_cons.mp hr with
    | inl same => exact absurd same.symm hne
    | inr hr => exact absurd hc (later c hr)

end IsDominatorTree

end Retention.HeapGraph
