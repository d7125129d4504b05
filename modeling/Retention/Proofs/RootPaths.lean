import Retention.Proofs.BuiltGraphs
import Retention.Proofs.Postorder

namespace Retention

namespace HeapGraph

/-- The object at `i` refers strongly to the object at `j`. -/
def Holds (g : HeapGraph) (i j : Nat) : Prop :=
  ∃ r ∈ g.referencesOf i, r.strong = true ∧ r.resolved = some j

instance (g : HeapGraph) (u v : Nat) : Decidable (g.Holds u v) :=
  inferInstanceAs (Decidable (∃ r ∈ g.referencesOf u, r.strong = true ∧ r.resolved = some v))

/-- A path of strong references from a root to an object, given by all the objects on it. -/
inductive RootPath (g : HeapGraph) : Nat → List Nat → Prop where
  | root {i : Nat} : i ∈ g.roots → RootPath g i [i]
  | step {i j : Nat} {path : List Nat} : RootPath g i path → g.Holds i j → RootPath g j (path ++ [j])

def StronglyReachable (g : HeapGraph) (i : Nat) : Prop := ∃ path, g.RootPath i path

/-- Every path of strong references from a root to `i` goes through `d`. -/
def OnEveryPath (g : HeapGraph) (d i : Nat) : Prop := ∀ path, g.RootPath i path → d ∈ path

/-- The object at `d` alone keeps the object at `i` alive. -/
def Keeps (g : HeapGraph) (d i : Nat) : Prop := g.StronglyReachable i ∧ g.OnEveryPath d i

variable {g : HeapGraph} {d i j u v : Nat} {path : List Nat}

theorem node?_superRoot (g : HeapGraph) : g.node? g.superRoot = none :=
  Array.getElem?_eq_none (Nat.le_refl _)

theorem holds_iff : g.Holds u v ↔ v ∈ (g.node? u).elim [] Node.successors := by
  unfold Holds referencesOf
  cases g.node? u with
  | none => simp
  | some n =>
    simp only [Option.elim_some, Node.successors, List.mem_filterMap, Reference.retains]
    simp

theorem edge_strongGraph : g.strongGraph.Edge u v ↔ u = g.superRoot ∧ v ∈ g.roots ∨ g.Holds u v := by
  rw [holds_iff]
  unfold Digraph.Edge Digraph.successors strongGraph
  rw [Array.getD_eq_getD_getElem?, Array.getElem?_push, Array.size_map]
  change v ∈ (if u = g.superRoot then some g.roots else (g.nodes.map Node.successors)[u]?).getD [] ↔ _
  by_cases hu : u = g.superRoot
  · subst hu
    rw [if_pos rfl, node?_superRoot]
    simp
  · rw [if_neg hu, Array.getElem?_map]
    unfold node?
    cases g.nodes[u]? <;> simp [hu]

theorem holds_lt (h : g.Holds u v) : u < g.size := by
  obtain ⟨r, hr, -⟩ := h
  exact lt_of_mem_referencesOf hr

namespace WellFormed

theorem target_lt (wf : g.WellFormed) (h : g.Holds u v) : v < g.size := by
  obtain ⟨r, hr, -, resolved⟩ := h
  exact wf.resolved_lt hr resolved

theorem edge_lt (wf : g.WellFormed) (h : g.strongGraph.Edge u v) : v < g.size := by
  cases edge_strongGraph.mp h with
  | inl h => exact wf.roots_lt v h.2
  | inr h => exact wf.target_lt h

theorem closed (wf : g.WellFormed) : g.strongGraph.Closed := by
  intro u v h
  have hv := wf.edge_lt h
  have hs : g.strongGraph.size = g.size + 1 := by
    simp [Digraph.size, strongGraph, size]
  omega

theorem rootPath_lt (wf : g.WellFormed) (h : g.RootPath i path) : ∀ j ∈ path, j < g.size := by
  induction h with
  | root hi =>
    intro j hj
    exact List.mem_singleton.mp hj ▸ wf.roots_lt _ hi
  | step _ hold ih =>
    intro k hk
    cases List.mem_append.mp hk with
    | inl hk => exact ih k hk
    | inr hk => exact List.mem_singleton.mp hk ▸ wf.target_lt hold

end WellFormed

theorem RootPath.end_mem (h : g.RootPath i path) : i ∈ path := by
  cases h <;> simp

theorem RootPath.walk (h : g.RootPath i path) :
    g.strongGraph.Walk g.superRoot i (g.superRoot :: path) := by
  induction h with
  | root hi => exact .cons (edge_strongGraph.mpr (.inl ⟨rfl, hi⟩)) (.single _)
  | step _ hold ih => exact ih.snoc (edge_strongGraph.mpr (.inr hold))

theorem WellFormed.rootPath_of_walk (wf : g.WellFormed) {through : List Nat}
    (h : g.strongGraph.Walk g.superRoot i through) :
    i = g.superRoot ∧ through = [g.superRoot] ∨
      ∃ path, through = g.superRoot :: path ∧ g.RootPath i path := by
  refine h.from_start (motive := fun i through => i = g.superRoot ∧ through = [g.superRoot] ∨
    ∃ path, through = g.superRoot :: path ∧ g.RootPath i path) (.inl ⟨rfl, rfl⟩) ?_
  intro u v through _ edge before
  right
  cases edge_strongGraph.mp edge with
  | inl root =>
    cases before with
    | inl start => exact ⟨[v], by rw [start.2]; rfl, .root root.2⟩
    | inr later =>
      obtain ⟨path, -, hp⟩ := later
      have hlt := wf.rootPath_lt hp u hp.end_mem
      exact absurd root.1 (Nat.ne_of_lt hlt)
  | inr hold =>
    cases before with
    | inl start => exact absurd start.1 (Nat.ne_of_lt (holds_lt hold))
    | inr later =>
      obtain ⟨path, rfl, hp⟩ := later
      exact ⟨path ++ [v], rfl, .step hp hold⟩

theorem WellFormed.stronglyReachable_iff (wf : g.WellFormed) :
    g.StronglyReachable i ↔ i ≠ g.superRoot ∧ g.strongGraph.Reaches g.superRoot i := by
  constructor
  · rintro ⟨path, hp⟩
    exact ⟨Nat.ne_of_lt (wf.rootPath_lt hp i hp.end_mem), _, hp.walk⟩
  · rintro ⟨hne, through, walk⟩
    cases wf.rootPath_of_walk walk with
    | inl start => exact absurd start.1 hne
    | inr later =>
      obtain ⟨path, -, hp⟩ := later
      exact ⟨path, hp⟩

theorem WellFormed.stronglyReachable_lt (wf : g.WellFormed) (h : g.StronglyReachable i) : i < g.size := by
  obtain ⟨path, hp⟩ := h
  exact wf.rootPath_lt hp i hp.end_mem

/-- What lies on every path is what dominates in the graph entered from the super-root. -/
theorem WellFormed.onEveryPath_iff (wf : g.WellFormed) (hi : i ≠ g.superRoot) (hd : d ≠ g.superRoot) :
    g.OnEveryPath d i ↔ g.strongGraph.Dominates g.superRoot d i := by
  constructor
  · intro h through walk
    cases wf.rootPath_of_walk walk with
    | inl start => exact absurd start.1 hi
    | inr later =>
      obtain ⟨path, rfl, hp⟩ := later
      exact List.mem_cons_of_mem _ (h path hp)
  · intro h path hp
    exact (List.mem_cons.mp (h _ hp.walk)).resolve_left hd

theorem StronglyReachable.step (hu : g.StronglyReachable u) (hold : g.Holds u v) : g.StronglyReachable v := by
  obtain ⟨path, hp⟩ := hu
  exact ⟨path ++ [v], .step hp hold⟩

theorem OnEveryPath.refl (g : HeapGraph) (i : Nat) : g.OnEveryPath i i := fun _ hp => hp.end_mem

/-- An object on a path is reached itself, by a part of that path. -/
theorem RootPath.cut (h : g.RootPath i path) (hj : j ∈ path) :
    ∃ front, g.RootPath j front ∧ ∀ x ∈ front, x ∈ path := by
  induction h with
  | root hi =>
    obtain rfl := List.mem_singleton.mp hj
    exact ⟨[j], .root hi, fun x hx => hx⟩
  | @step u v path before hold ih =>
    cases List.mem_append.mp hj with
    | inl hj =>
      obtain ⟨front, hf, sub⟩ := ih hj
      exact ⟨front, hf, fun x hx => List.mem_append_left _ (sub x hx)⟩
    | inr hj =>
      obtain rfl := List.mem_singleton.mp hj
      exact ⟨_, .step before hold, fun x hx => hx⟩

theorem OnEveryPath.reachable (h : g.OnEveryPath d i) (hi : g.StronglyReachable i) :
    g.StronglyReachable d := by
  obtain ⟨path, hp⟩ := hi
  obtain ⟨front, hf, -⟩ := hp.cut (h path hp)
  exact ⟨front, hf⟩

theorem OnEveryPath.trans (h : g.OnEveryPath d j) (k : g.OnEveryPath j i) : g.OnEveryPath d i := by
  intro path hp
  obtain ⟨front, hf, sub⟩ := hp.cut (k path hp)
  exact sub d (h front hf)

theorem OnEveryPath.antisymm (hi : g.StronglyReachable i) (h : g.OnEveryPath d i) (k : g.OnEveryPath i d) :
    d = i := by
  by_contra hne
  -- The first path to come to `i` would have to come through `d`, and so through `i` before.
  have missed : ∀ j path, g.RootPath j path → i ∉ path := by
    intro j path hp
    induction hp with
    | root hj =>
      intro hi
      obtain rfl := List.mem_singleton.mp hi
      exact hne (List.mem_singleton.mp (h [i] (.root hj)))
    | @step u v path before hold ih =>
      intro hi
      obtain rfl := List.mem_singleton.mp ((List.mem_append.mp hi).resolve_left ih)
      have through := (List.mem_append.mp (h _ (.step before hold))).resolve_right
        fun hd => hne (List.mem_singleton.mp hd)
      obtain ⟨front, hf, sub⟩ := before.cut through
      exact ih (sub i (k front hf))
  obtain ⟨path, hp⟩ := hi
  exact missed i path hp hp.end_mem

end HeapGraph

/-- A reference in a graph without the object at `i`. -/
def Reference.without (i : Nat) (r : Reference) : Reference :=
  if r.resolved = some i then { r with resolved := none } else r

namespace HeapGraph

/-- The graph without the object at `i`: no id, no root and no reference leads there any more. The
other objects keep their places. -/
def delete (g : HeapGraph) (i : Nat) : HeapGraph where
  nodes := g.nodes.map fun n => { n with references := n.references.map (Reference.without i) }
  index := g.index.erase (g.idOf i)
  roots := g.roots.filter (· ≠ i)
  danglingRoots := g.danglingRoots
  referrers := g.referrers.setIfInBounds i []

variable {g : HeapGraph} {d i u v : Nat} {path : List Nat}

theorem referencesOf_delete (g : HeapGraph) (d u : Nat) :
    (g.delete d).referencesOf u = (g.referencesOf u).map (Reference.without d) := by
  unfold referencesOf node? delete
  rw [Array.getElem?_map]
  cases g.nodes[u]? <;> rfl

theorem holds_delete : (g.delete d).Holds u v ↔ g.Holds u v ∧ v ≠ d := by
  have kept : ∀ r : Reference, ((r.without d).strong = true ∧ (r.without d).resolved = some v) ↔
      (r.strong = true ∧ r.resolved = some v) ∧ v ≠ d := by
    intro r
    unfold Reference.without
    by_cases h : r.resolved = some d
    · rw [if_pos h, h]
      constructor
      · exact fun hr => absurd hr.2 (by simp)
      · exact fun hr => absurd (Option.some.inj hr.1.2).symm hr.2
    · rw [if_neg h]
      constructor
      · exact fun hr => ⟨hr, fun hv => h (hv ▸ hr.2)⟩
      · exact fun hr => hr.1
  unfold Holds
  rw [referencesOf_delete]
  constructor
  · rintro ⟨r, hr, held⟩
    obtain ⟨old, ho, rfl⟩ := List.mem_map.mp hr
    exact ⟨⟨old, ho, ((kept old).mp held).1⟩, ((kept old).mp held).2⟩
  · rintro ⟨⟨r, hr, held⟩, hv⟩
    exact ⟨_, List.mem_map_of_mem hr, (kept r).mpr ⟨held, hv⟩⟩

/-- The paths that are left without an object are those that did not go through it. -/
theorem rootPath_delete : (g.delete d).RootPath i path ↔ g.RootPath i path ∧ d ∉ path := by
  constructor
  · intro h
    induction h with
    | root hi =>
      have hr := List.mem_filter.mp hi
      refine ⟨.root hr.1, ?_⟩
      intro hd
      exact absurd (List.mem_singleton.mp hd).symm (by simpa using hr.2)
    | step _ hold ih =>
      obtain ⟨hold, hv⟩ := holds_delete.mp hold
      refine ⟨.step ih.1 hold, ?_⟩
      intro hd
      cases List.mem_append.mp hd with
      | inl hd => exact ih.2 hd
      | inr hd => exact hv (List.mem_singleton.mp hd).symm
  · rintro ⟨h, hd⟩
    induction h with
    | @root i hi =>
      refine .root (List.mem_filter.mpr ⟨hi, ?_⟩)
      exact decide_eq_true fun hid => hd (hid ▸ List.mem_singleton_self i)
    | @step u v path _ hold ih =>
      refine .step (ih fun hp => hd (List.mem_append_left _ hp)) (holds_delete.mpr ⟨hold, ?_⟩)
      exact fun hv => hd (hv ▸ List.mem_append_right _ (List.mem_singleton_self v))

/-- Deleting an object cuts off exactly what it lies on every path to. -/
theorem stronglyReachable_delete : (g.delete d).StronglyReachable i ↔ ¬ g.OnEveryPath d i := by
  unfold StronglyReachable OnEveryPath
  simp only [rootPath_delete, not_forall, exists_prop]

theorem keeps_iff_delete :
    g.Keeps d i ↔ g.StronglyReachable i ∧ (i = d ∨ ¬ (g.delete d).StronglyReachable i) := by
  unfold Keeps
  rw [stronglyReachable_delete, not_not]
  constructor
  · exact fun h => ⟨h.1, .inr h.2⟩
  · rintro ⟨hi, h⟩
    cases h with
    | inl same => exact ⟨hi, same ▸ .refl g d⟩
    | inr every => exact ⟨hi, every⟩

end HeapGraph

end Retention
