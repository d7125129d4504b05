import Mathlib
import Retention.Proofs.DominatorOrder
import Retention.RetainedSizes

namespace Retention

namespace Size

variable {a b c : UInt64} {sizes : List UInt64}

theorem toNat_add_of_fits (fits : a.toNat + b.toNat < UInt64.size) : (a + b).toNat = a.toNat + b.toNat := by
  rw [UInt64.toNat_add]
  exact Nat.mod_eq_of_lt fits

theorem add?_eq_some_iff : add? a b = some c ↔ c.toNat = a.toNat + b.toNat := by
  unfold add?
  by_cases fits : a.toNat + b.toNat < UInt64.size
  · rw [if_pos fits, Option.some.injEq, ← UInt64.toNat_inj, toNat_add_of_fits fits]
    exact eq_comm
  · rw [if_neg fits]
    constructor
    · intro h
      cases h
    · intro h
      exact absurd (h ▸ c.toNat_lt_size) fits

theorem foldlM_add? (start : UInt64) :
    sizes.foldlM add? start = some c ↔ c.toNat = start.toNat + (sizes.map UInt64.toNat).sum := by
  induction sizes generalizing start with
  | nil =>
    rw [List.foldlM_nil, List.map_nil, List.sum_nil, Nat.add_zero, eq_comm (a := c.toNat), UInt64.toNat_inj]
    exact Option.some_inj
  | cons size rest ih =>
    rw [List.foldlM_cons, List.map_cons, List.sum_cons]
    change (add? start size).bind (rest.foldlM add?) = some c ↔ _
    rw [Option.bind_eq_some_iff]
    constructor
    · rintro ⟨next, hn, hr⟩
      have hn := add?_eq_some_iff.mp hn
      have hr := (ih next).mp hr
      omega
    · intro h
      have fits : start.toNat + size.toNat < UInt64.size := by
        have hc := c.toNat_lt_size
        omega
      have next := toNat_add_of_fits fits
      exact ⟨start + size, add?_eq_some_iff.mpr next, (ih _).mpr (by omega)⟩

theorem sum?_eq_some_iff : sum? sizes = some c ↔ c.toNat = (sizes.map UInt64.toNat).sum := by
  rw [sum?, foldlM_add?]
  simp

end Size

namespace HeapGraph

open Classical in
/-- The shallow sizes of all objects with a property, taken together. -/
noncomputable def bytesOf (g : HeapGraph) (p : Nat → Prop) : Nat :=
  ∑ i ∈ Finset.range g.size with p i, (g.shallowSizeOf i).toNat

variable {g : HeapGraph} {p q : Nat → Prop} {d i : Nat}

theorem bytesOf_congr (h : ∀ i, p i ↔ q i) : g.bytesOf p = g.bytesOf q := by
  rw [funext fun i => propext (h i)]

theorem bytesOf_mono (h : ∀ i, p i → q i) : g.bytesOf p ≤ g.bytesOf q := by
  classical
  unfold bytesOf
  exact Finset.sum_le_sum_of_subset (Finset.monotone_filter_right _ fun i _ => h i)

theorem bytesOf_le_all (g : HeapGraph) (p : Nat → Prop) :
    g.bytesOf p ≤ ∑ i ∈ Finset.range g.size, (g.shallowSizeOf i).toNat := by
  classical
  exact Finset.sum_le_sum_of_subset (Finset.filter_subset _ _)

theorem bytesOf_of_empty (h : ∀ i, ¬ p i) : g.bytesOf p = 0 := by
  classical
  unfold bytesOf
  rw [Finset.filter_false_of_mem fun i _ => h i, Finset.sum_empty]

theorem bytesOf_single (hi : i < g.size) : g.bytesOf (· = i) = (g.shallowSizeOf i).toNat := by
  unfold bytesOf
  simp only [Finset.filter_eq']
  rw [if_pos (Finset.mem_range.mpr hi), Finset.sum_singleton]

theorem bytesOf_or (apart : ∀ i, p i → ¬ q i) : g.bytesOf (fun i => p i ∨ q i) = g.bytesOf p + g.bytesOf q := by
  classical
  unfold bytesOf
  rw [← Finset.sum_union (Finset.disjoint_filter.mpr fun i _ => apart i), ← Finset.filter_or]
  refine Finset.sum_congr ?_ fun _ _ => rfl
  ext i
  simp only [Finset.mem_filter]

/-- What objects keep that keep nothing in common adds up. -/
theorem bytesOf_divide {groups : List Nat} (nodup : groups.Nodup) (apart : g.Apart groups) :
    g.bytesOf (fun i => ∃ c ∈ groups, g.Keeps c i) = (groups.map fun c => g.bytesOf (g.Keeps c)).sum := by
  induction groups with
  | nil => exact bytesOf_of_empty fun i h => by simp at h
  | cons a rest ih =>
    have hn := List.nodup_cons.mp nodup
    have inner := ih hn.2 fun b hb c hc => apart b (List.mem_cons_of_mem _ hb) c (List.mem_cons_of_mem _ hc)
    rw [List.map_cons, List.sum_cons, ← inner, ← bytesOf_or]
    · exact bytesOf_congr fun i => by simp
    · rintro i ha ⟨b, hb, hbi⟩
      have same := apart a List.mem_cons_self b (List.mem_cons_of_mem _ hb) i ha hbi
      exact hn.1 (same ▸ hb)

namespace IsDominatorTree

variable {t : DominatorTree}

/-- An object keeps itself and what its children keep. -/
theorem bytesOf_keeps (tree : g.IsDominatorTree t) (wf : g.WellFormed) (hd : g.StronglyReachable d) :
    g.bytesOf (g.Keeps d) =
      (g.shallowSizeOf d).toNat + ((t.childrenOf d).map fun c => g.bytesOf (g.Keeps c)).sum := by
  rw [bytesOf_congr fun i => tree.keeps_iff hd, bytesOf_or, bytesOf_single (wf.stronglyReachable_lt hd),
    bytesOf_divide (tree.nodup_childrenOf d) (tree.apart_childrenOf d)]
  rintro i rfl ⟨c, hc, keeps⟩
  exact tree.not_keeps_parent hc keeps

/-- The objects right below the super-root keep all that is reached. -/
theorem bytesOf_stronglyReachable (tree : g.IsDominatorTree t) :
    g.bytesOf g.StronglyReachable = (t.rooted.map fun r => g.bytesOf (g.Keeps r)).sum := by
  rw [bytesOf_congr fun i => tree.stronglyReachable_iff_rooted, bytesOf_divide tree.nodup_rooted tree.apart_rooted]

end IsDominatorTree

end HeapGraph

namespace RetainedSizes

variable {g : HeapGraph} {t : DominatorTree} {sizes next : Array UInt64} {done rest : List Nat} {i : Nat}

theorem ofChildren_eq_some_iff {size : UInt64} : ofChildren g t sizes i = some size ↔
    size.toNat = (g.shallowSizeOf i).toNat + ((t.childrenOf i).map fun c => (sizes.getD c 0).toNat).sum := by
  have sums : (((t.childrenOf i).map fun c => sizes.getD c 0).map UInt64.toNat) =
      (t.childrenOf i).map fun c => (sizes.getD c 0).toNat := List.map_map
  unfold ofChildren
  change Option.bind _ _ = some size ↔ _
  rw [Option.bind_eq_some_iff, ← sums]
  constructor
  · rintro ⟨below, hb, whole⟩
    rw [← Size.sum?_eq_some_iff.mp hb]
    exact Size.add?_eq_some_iff.mp whole
  · intro h
    have fits : (((t.childrenOf i).map fun c => sizes.getD c 0).map UInt64.toNat).sum < UInt64.size := by
      have hs := size.toNat_lt_size
      omega
    have below : (UInt64.ofNatLT _ fits).toNat = _ := UInt64.toNat_ofNatLT
    exact ⟨_, Size.sum?_eq_some_iff.mpr below, Size.add?_eq_some_iff.mpr (by rw [below]; exact h)⟩

/-- What entering one object returns. -/
def entered (g : HeapGraph) (t : DominatorTree) (sizes : Array UInt64) (i : Nat) :
    Except LoadError (Array UInt64) :=
  match ofChildren g t sizes i with
  | none => .error .overflow
  | some size => .ok (sizes.setIfInBounds i size)

/-- What the computation of the retained sizes returns. -/
def computed (g : HeapGraph) (t : DominatorTree) : Except LoadError RetainedSizes := do
  let sizes ← t.bottomUp.foldlM (entered g t) (Array.replicate g.size 0)
  match Size.sum? (t.rooted.map fun r => sizes.getD r 0) with
  | none => .error .overflow
  | some total => .ok ⟨sizes, total⟩

theorem enter_runsUnpolled (g : HeapGraph) (t : DominatorTree) (sizes : Array UInt64) (i : Nat) :
    (enter g t sizes i).RunsUnpolled (entered g t sizes i) := by
  unfold enter entered
  cases ofChildren g t sizes i with
  | none => exact Load.runsBy_throw _
  | some size => exact (Load.runsBy_notify nofun).bind (Load.runsBy_pure _)

/-- No token is looked at while the sizes are summed up. -/
theorem compute_runsUnpolled (g : HeapGraph) (t : DominatorTree) : (compute g t).RunsUnpolled (computed g t) := by
  refine (Load.runsBy_notify nofun).bind ?_
  refine (Load.RunsBy.foldlM (enter_runsUnpolled g t) _ _).bind_result ?_
  intro sizes
  cases Size.sum? (t.rooted.map fun r => sizes.getD r 0) with
  | none => exact Load.runsBy_throw _
  | some total => exact (Load.runsBy_notify nofun).bind (Load.runsBy_pure _)

/-- What holds while sizes are entered: those of the objects done are right, the others blank. -/
structure Entering (g : HeapGraph) (done : List Nat) (sizes : Array UInt64) : Prop where
  size_eq : sizes.size = g.size
  right : ∀ i ∈ done, (sizes.getD i 0).toNat = g.bytesOf (g.Keeps i)
  blank : ∀ i, i ∉ done → sizes.getD i 0 = 0

theorem Entering.initial (g : HeapGraph) : Entering g [] (Array.replicate g.size 0) where
  size_eq := Array.size_replicate
  right := fun i hi => absurd hi List.not_mem_nil
  blank := by
    intro i _
    rw [Array.getD_eq_getD_getElem?, Array.getElem?_replicate]
    split <;> rfl

section Steps

variable (h : Entering g done sizes) (tree : g.IsDominatorTree t) (wf : g.WellFormed)

include h tree wf

/-- The children of the next object are done, so their sizes add up to what it keeps. -/
theorem Entering.ofChildren_iff (order : t.bottomUp = done ++ i :: rest) {size : UInt64} :
    ofChildren g t sizes i = some size ↔ size.toNat = g.bytesOf (g.Keeps i) := by
  have reached : g.StronglyReachable i := by
    rw [← tree.mem_bottomUp wf, order]
    simp
  have children : ((t.childrenOf i).map fun c => (sizes.getD c 0).toNat) =
      (t.childrenOf i).map fun c => g.bytesOf (g.Keeps c) :=
    List.map_congr_left fun c hc => h.right c (tree.children_done wf order hc)
  rw [ofChildren_eq_some_iff, children, ← tree.bytesOf_keeps wf reached]

theorem Entering.enter (order : t.bottomUp = done ++ i :: rest) (step : entered g t sizes i = .ok next) :
    Entering g (done ++ [i]) next := by
  have hi : i < sizes.size := by
    rw [h.size_eq]
    refine wf.stronglyReachable_lt ((tree.mem_bottomUp wf).mp ?_)
    rw [order]
    simp
  unfold entered at step
  cases hs : ofChildren g t sizes i with
  | none =>
    rw [hs] at step
    cases step
  | some size =>
    rw [hs] at step
    obtain rfl := Except.ok.inj step
    have here : (sizes.setIfInBounds i size).getD i 0 = size := by
      rw [Array.getD_eq_getD_getElem?, Array.getElem?_setIfInBounds_self_of_lt hi]
      rfl
    have elsewhere : ∀ j, i ≠ j → (sizes.setIfInBounds i size).getD j 0 = sizes.getD j 0 := by
      intro j hne
      rw [Array.getD_eq_getD_getElem?, Array.getD_eq_getD_getElem?, Array.getElem?_setIfInBounds_ne hne]
    refine ⟨by rw [Array.size_setIfInBounds, h.size_eq], ?_, ?_⟩
    · intro j hj
      by_cases hne : i = j
      · rw [← hne, here]
        exact (h.ofChildren_iff tree wf order).mp hs
      · rw [elsewhere j hne]
        exact h.right j ((List.mem_append.mp hj).resolve_right fun hj => hne (List.mem_singleton.mp hj).symm)
    · intro j hj
      have hne : i ≠ j := fun same => hj (List.mem_append_right _ (same ▸ List.mem_singleton_self i))
      rw [elsewhere j hne]
      exact h.blank j fun hd => hj (List.mem_append_left _ hd)

/-- No step fails while everything that is reached fits. -/
theorem Entering.exists_entered (order : t.bottomUp = done ++ i :: rest)
    (fits : g.bytesOf g.StronglyReachable < UInt64.size) : ∃ next, entered g t sizes i = .ok next := by
  have part : g.bytesOf (g.Keeps i) < UInt64.size :=
    Nat.lt_of_le_of_lt (HeapGraph.bytesOf_mono fun j hj => hj.1) fits
  have size : (UInt64.ofNatLT _ part).toNat = g.bytesOf (g.Keeps i) := UInt64.toNat_ofNatLT
  unfold entered
  rw [(h.ofChildren_iff tree wf order).mpr size]
  exact ⟨_, rfl⟩

theorem Entering.run (order : t.bottomUp = done ++ rest) (steps : rest.foldlM (entered g t) sizes = .ok next) :
    Entering g t.bottomUp next := by
  induction rest generalizing done sizes with
  | nil =>
    obtain rfl := Except.ok.inj steps
    rw [order, List.append_nil]
    exact h
  | cons i rest ih =>
    rw [List.foldlM_cons] at steps
    obtain ⟨after, hs, steps⟩ := Except.bind_eq_ok.mp steps
    exact ih (h.enter tree wf order hs) (by rw [order]; simp) steps

theorem Entering.exists_run (order : t.bottomUp = done ++ rest)
    (fits : g.bytesOf g.StronglyReachable < UInt64.size) :
    ∃ next, rest.foldlM (entered g t) sizes = .ok next := by
  induction rest generalizing done sizes with
  | nil => exact ⟨sizes, rfl⟩
  | cons i rest ih =>
    obtain ⟨after, hs⟩ := h.exists_entered tree wf order fits
    obtain ⟨next, hn⟩ := ih (h.enter tree wf order hs) (by rw [order]; simp)
    exact ⟨next, by rw [List.foldlM_cons]; exact Except.bind_eq_ok.mpr ⟨after, hs, hn⟩⟩

end Steps

/-- The retained sizes of a heap: each object that is reached retains what it keeps, and together they
retain all that is reached. -/
structure Right (g : HeapGraph) (r : RetainedSizes) : Prop where
  sizeOf_reached : ∀ i, g.StronglyReachable i → (r.sizeOf i).toNat = g.bytesOf (g.Keeps i)
  sizeOf_unreached : ∀ i, ¬ g.StronglyReachable i → r.sizeOf i = 0
  total_eq : r.total.toNat = g.bytesOf g.StronglyReachable

theorem sum_rooted (tree : g.IsDominatorTree t) (wf : g.WellFormed) (final : Entering g t.bottomUp sizes) :
    ((t.rooted.map fun r => sizes.getD r 0).map UInt64.toNat).sum = g.bytesOf g.StronglyReachable := by
  rw [tree.bytesOf_stronglyReachable, List.map_map]
  congr 1
  refine List.map_congr_left fun r hr => final.right r ?_
  exact (tree.mem_bottomUp wf).mpr (tree.stronglyReachable_of_idom ((tree.mem_rooted r).mp hr))

theorem right_of_computed {r : RetainedSizes} (tree : g.IsDominatorTree t) (wf : g.WellFormed)
    (h : computed g t = .ok r) : r.Right g := by
  obtain ⟨sizes, entered, summed⟩ := Except.bind_eq_ok.mp h
  have final := (Entering.initial g).run tree wf (List.nil_append _).symm entered
  cases hs : Size.sum? (t.rooted.map fun r => sizes.getD r 0) with
  | none =>
    rw [hs] at summed
    cases summed
  | some total =>
    rw [hs] at summed
    obtain rfl := Except.ok.inj summed
    refine ⟨?_, ?_, (Size.sum?_eq_some_iff.mp hs).trans (sum_rooted tree wf final)⟩
    · intro i hi
      exact final.right i ((tree.mem_bottomUp wf).mpr hi)
    · intro i hi
      exact final.blank i fun hb => hi ((tree.mem_bottomUp wf).mp hb)

/-- The computation fails in one way only. -/
theorem eq_overflow {error : LoadError} (h : computed g t = .error error) : error = .overflow := by
  cases Except.bind_eq_error.mp h with
  | inl stopped =>
    refine foldlM_fails ?_ stopped
    intro sizes i other stop
    unfold entered at stop
    split at stop
    · exact (Except.error.inj stop).symm
    · cases stop
  | inr summed =>
    obtain ⟨sizes, -, stop⟩ := summed
    split at stop
    · exact (Except.error.inj stop).symm
    · cases stop

/-- The computation fails only where the size of all that is reached does not fit. -/
theorem exists_computed_iff (tree : g.IsDominatorTree t) (wf : g.WellFormed) :
    (∃ r, computed g t = .ok r) ↔ g.bytesOf g.StronglyReachable < UInt64.size := by
  constructor
  · rintro ⟨r, h⟩
    rw [← (right_of_computed tree wf h).total_eq]
    exact r.total.toNat_lt_size
  · intro fits
    obtain ⟨sizes, entered⟩ := (Entering.initial g).exists_run tree wf (List.nil_append _).symm fits
    have final := (Entering.initial g).run tree wf (List.nil_append _).symm entered
    have total : (UInt64.ofNatLT _ fits).toNat = _ := UInt64.toNat_ofNatLT
    have summed := Size.sum?_eq_some_iff.mpr (total.trans (sum_rooted tree wf final).symm)
    exact ⟨⟨sizes, _⟩, Except.bind_eq_ok.mpr ⟨sizes, entered, by rw [summed]⟩⟩

end RetainedSizes

end Retention
