import Mathlib.Data.List.Perm.Subperm
import Retention.Proofs.DominatorOrder

namespace Retention.HeapGraph

namespace IsDominatorTree

variable {g : HeapGraph} {t : DominatorTree} {i : Nat}

/-- The objects above an object are different from it and from each other. -/
theorem climbFrom_above (tree : g.IsDominatorTree t) (fuel : Nat) (hi : g.StronglyReachable i) :
    (t.climbFrom fuel i).Nodup ∧ ∀ x ∈ t.climbFrom fuel i, x ≠ i ∧ g.OnEveryPath x i := by
  induction fuel generalizing i with
  | zero => exact ⟨List.nodup_nil, fun x hx => absurd hx List.not_mem_nil⟩
  | succ fuel ih =>
    unfold DominatorTree.climbFrom
    cases h : t.idomOf i with
    | none => exact absurd hi ((tree.unreached i).mp h)
    | some dominator =>
      cases dominator with
      | superRoot => exact ⟨List.nodup_nil, fun x hx => absurd hx List.not_mem_nil⟩
      | node d =>
        obtain ⟨-, hne, every, -⟩ := (tree.below i d).mp h
        obtain ⟨nodup, above⟩ := ih (every.reachable hi)
        refine ⟨List.nodup_cons.mpr ⟨fun hd => (above d hd).1 rfl, nodup⟩, ?_⟩
        intro x hx
        cases List.mem_cons.mp hx with
        | inl same => exact same ▸ ⟨hne, every⟩
        | inr hx =>
          obtain ⟨-, hxd⟩ := above x hx
          refine ⟨?_, hxd.trans every⟩
          rintro rfl
          exact hne (OnEveryPath.antisymm hi every hxd)

theorem depthOf_lt (tree : g.IsDominatorTree t) (wf : g.WellFormed) (hi : g.StronglyReachable i) :
    t.depthOf i < g.size := by
  obtain ⟨nodup, above⟩ := tree.climbFrom_above t.idom.size hi
  have whole : (i :: t.chainOf i).Nodup := List.nodup_cons.mpr ⟨fun h => (above i h).1 rfl, nodup⟩
  have inside : i :: t.chainOf i ⊆ List.range g.size := by
    intro x hx
    rw [List.mem_range]
    cases List.mem_cons.mp hx with
    | inl same => exact same ▸ wf.stronglyReachable_lt hi
    | inr hx => exact wf.stronglyReachable_lt ((above x hx).2.reachable hi)
  have short := (List.subperm_of_subset whole inside).length_le
  rw [List.length_cons, List.length_range] at short
  rw [DominatorTree.depthOf_eq_length_chainOf]
  exact short

/-- More fuel than a chain uses changes nothing. -/
theorem climbFrom_eq_of_length_lt {fuel : Nat} (ended : (t.climbFrom fuel i).length < fuel) (more : Nat) :
    t.climbFrom (fuel + more) i = t.climbFrom fuel i := by
  induction fuel generalizing i with
  | zero => simp at ended
  | succ fuel ih =>
    rw [Nat.add_right_comm]
    unfold DominatorTree.climbFrom at ended ⊢
    cases h : t.idomOf i with
    | none => rfl
    | some dominator =>
      cases dominator with
      | superRoot => rfl
      | node d =>
        simp only [h, List.length_cons, Nat.add_lt_add_iff_right] at ended
        simp [ih ended]

theorem climbFrom_eq_chainOf (tree : g.IsDominatorTree t) (wf : g.WellFormed) (hi : g.StronglyReachable i)
    (more : Nat) : t.climbFrom (t.idom.size + more) i = t.chainOf i := by
  apply climbFrom_eq_of_length_lt
  have short := tree.depthOf_lt wf hi
  rwa [DominatorTree.depthOf_eq_length_chainOf, ← tree.size_idom] at short

/-- The chain above an object goes on as the chain above its immediate dominator. -/
theorem chainOf_eq (tree : g.IsDominatorTree t) (wf : g.WellFormed) (hi : g.StronglyReachable i) :
    t.chainOf i =
      match t.idomOf i with
      | some (.node d) => d :: t.chainOf d
      | _ => [] := by
  rw [← tree.climbFrom_eq_chainOf wf hi 1]
  rfl

end IsDominatorTree

/-- Objects of the tree that keep nothing in common. -/
structure IsLayer (g : HeapGraph) (layer : List Nat) : Prop where
  nodup : layer.Nodup
  reached : ∀ a ∈ layer, g.StronglyReachable a
  apart : g.Apart layer

namespace IsLayer

variable {g : HeapGraph} {t : DominatorTree} {layer kept : List Nat} {fuel a v : Nat}

theorem of_childrenOf (tree : g.IsDominatorTree t) (i : Nat) : g.IsLayer (t.childrenOf i) :=
  ⟨tree.nodup_childrenOf i, fun _ hc => (tree.child_below hc).1, tree.apart_childrenOf i⟩

theorem keeps_self (h : g.IsLayer layer) (ha : a ∈ layer) : g.Keeps a a := ⟨h.reached a ha, .refl g a⟩

/-- The objects right below a layer are a layer. -/
theorem next (h : g.IsLayer layer) (tree : g.IsDominatorTree t) : g.IsLayer (layer.flatMap t.childrenOf) := by
  refine ⟨?_, ?_, ?_⟩
  · refine List.nodup_flatMap.mpr ⟨fun a _ => tree.nodup_childrenOf a, h.nodup.imp ?_⟩
    intro a b hne c hca hcb
    have same := ((tree.mem_childrenOf a c).mp hca).symm.trans ((tree.mem_childrenOf b c).mp hcb)
    exact hne (Dominator.node.inj (Option.some.inj same))
  · intro c hc
    obtain ⟨a, -, hca⟩ := List.mem_flatMap.mp hc
    exact (tree.child_below hca).1
  · intro c hc e he v hcv hev
    obtain ⟨a, ha, hca⟩ := List.mem_flatMap.mp hc
    obtain ⟨b, hb, heb⟩ := List.mem_flatMap.mp he
    have hav := (tree.keeps_iff (h.reached a ha)).mpr (.inr ⟨c, hca, hcv⟩)
    have hbv := (tree.keeps_iff (h.reached b hb)).mpr (.inr ⟨e, heb, hev⟩)
    obtain rfl := h.apart a ha b hb v hav hbv
    exact tree.apart_childrenOf a c hca e heb v hcv hev

/-- A layer keeps itself and what the next layer keeps. -/
theorem keeps_iff_next (h : g.IsLayer layer) (tree : g.IsDominatorTree t) :
    (∃ a ∈ layer, g.Keeps a v) ↔ v ∈ layer ∨ ∃ c ∈ layer.flatMap t.childrenOf, g.Keeps c v := by
  constructor
  · rintro ⟨a, ha, keeps⟩
    cases (tree.keeps_iff (h.reached a ha)).mp keeps with
    | inl same => exact .inl (same ▸ ha)
    | inr below =>
      obtain ⟨c, hc, hcv⟩ := below
      exact .inr ⟨c, List.mem_flatMap.mpr ⟨a, ha, hc⟩, hcv⟩
  · intro hv
    cases hv with
    | inl hv => exact ⟨v, hv, h.keeps_self hv⟩
    | inr below =>
      obtain ⟨c, hc, hcv⟩ := below
      obtain ⟨a, ha, hca⟩ := List.mem_flatMap.mp hc
      exact ⟨a, ha, (tree.keeps_iff (h.reached a ha)).mpr (.inr ⟨c, hca, hcv⟩)⟩

theorem not_keeps_next (h : g.IsLayer layer) (tree : g.IsDominatorTree t) (ha : a ∈ layer) :
    ¬ ∃ c ∈ layer.flatMap t.childrenOf, g.Keeps c a := by
  rintro ⟨c, hc, keeps⟩
  obtain ⟨b, hb, hcb⟩ := List.mem_flatMap.mp hc
  have hba := (tree.keeps_iff (h.reached b hb)).mpr (.inr ⟨c, hcb, keeps⟩)
  obtain rfl := h.apart b hb a ha a hba (h.keeps_self ha)
  exact tree.not_keeps_parent hcb keeps

/-- The next layer keeps no object of this one, so there is one object less to make room for. -/
theorem room_next (h : g.IsLayer layer) (tree : g.IsDominatorTree t) (ha : a ∈ layer)
    (room : ∀ v, (∃ b ∈ layer, g.Keeps b v) → v ∈ kept) (enough : kept.length ≤ fuel + 1) :
    (∀ v, (∃ c ∈ layer.flatMap t.childrenOf, g.Keeps c v) → v ∈ kept.erase a) ∧
      (kept.erase a).length ≤ fuel := by
  constructor
  · intro v hv
    have hne : v ≠ a := by
      intro same
      exact h.not_keeps_next tree ha (same ▸ hv)
    exact (List.mem_erase_of_ne hne).mpr (room v ((h.keeps_iff_next tree).mpr (.inr hv)))
  · rw [List.length_erase_of_mem (room a ⟨a, ha, h.keeps_self ha⟩)]
    omega

/-- The layers from one layer down hold what it keeps, each object once, where the fuel is not less
than the number of objects that may be kept. -/
theorem layersFrom (h : g.IsLayer layer) (tree : g.IsDominatorTree t)
    (room : ∀ v, (∃ a ∈ layer, g.Keeps a v) → v ∈ kept) (enough : kept.length ≤ fuel) :
    (t.layersFrom fuel layer).flatten.Nodup ∧
      ∀ v, v ∈ (t.layersFrom fuel layer).flatten ↔ ∃ a ∈ layer, g.Keeps a v := by
  induction fuel generalizing layer kept with
  | zero =>
    obtain rfl : kept = [] := List.length_eq_zero_iff.mp (Nat.le_zero.mp enough)
    refine ⟨List.nodup_nil, fun v => ⟨fun hv => absurd hv List.not_mem_nil, fun hv => ?_⟩⟩
    exact absurd (room v hv) List.not_mem_nil
  | succ fuel ih =>
    cases layer with
    | nil =>
      refine ⟨List.nodup_nil, fun v => ⟨fun hv => absurd hv List.not_mem_nil, ?_⟩⟩
      rintro ⟨a, ha, -⟩
      exact absurd ha List.not_mem_nil
    | cons b rest =>
      obtain ⟨less, fewer⟩ := h.room_next tree List.mem_cons_self room enough
      obtain ⟨nodup, mem⟩ := ih (h.next tree) less fewer
      rw [DominatorTree.layersFrom, List.flatten_cons]
      · refine ⟨List.nodup_append.mpr ⟨h.nodup, nodup, ?_⟩, ?_⟩
        · rintro v hv w hw rfl
          exact h.not_keeps_next tree hv ((mem v).mp hw)
        · intro v
          rw [List.mem_append, mem, ← h.keeps_iff_next tree]
      · intro same
        cases same

/-- More fuel than there are objects to keep changes nothing. -/
theorem layersFrom_add (h : g.IsLayer layer) (tree : g.IsDominatorTree t)
    (room : ∀ v, (∃ a ∈ layer, g.Keeps a v) → v ∈ kept) (enough : kept.length ≤ fuel) (more : Nat) :
    t.layersFrom (fuel + more) layer = t.layersFrom fuel layer := by
  induction fuel generalizing layer kept with
  | zero =>
    cases layer with
    | nil => cases more <;> rfl
    | cons b rest =>
      have hb := room b ⟨b, List.mem_cons_self, h.keeps_self List.mem_cons_self⟩
      rw [List.length_eq_zero_iff.mp (Nat.le_zero.mp enough)] at hb
      exact absurd hb List.not_mem_nil
  | succ fuel ih =>
    rw [Nat.add_right_comm]
    cases layer with
    | nil => rfl
    | cons b rest =>
      obtain ⟨less, fewer⟩ := h.room_next tree List.mem_cons_self room enough
      have later := ih (h.next tree) less fewer
      rw [DominatorTree.layersFrom, DominatorTree.layersFrom, later] <;> simp

end IsLayer

theorem IsLayer.of_rooted {g : HeapGraph} {t : DominatorTree} (tree : g.IsDominatorTree t) : g.IsLayer t.rooted :=
  ⟨tree.nodup_rooted, fun r hr => tree.stronglyReachable_of_idom ((tree.mem_rooted r).mp hr), tree.apart_rooted⟩

theorem IsDominatorTree.layersFrom_eq_layers {g : HeapGraph} {t : DominatorTree} (tree : g.IsDominatorTree t)
    (wf : g.WellFormed) (more : Nat) : t.layersFrom (t.idom.size + more) t.rooted = t.layers := by
  have room : ∀ v, (∃ r ∈ t.rooted, g.Keeps r v) → v ∈ List.range g.size := by
    intro v kept
    obtain ⟨r, -, keeps⟩ := kept
    exact List.mem_range.mpr (wf.stronglyReachable_lt keeps.1)
  exact (IsLayer.of_rooted tree).layersFrom_add tree room (by simp [tree.size_idom]) more

end Retention.HeapGraph
