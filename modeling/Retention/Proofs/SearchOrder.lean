import Mathlib.Logic.Relation
import Retention.Proofs.SweepLimits

namespace Retention

theorem pair_sublist_append {α : Type} {front : List α} {a : α} (ha : a ∈ front) (b : α) (back : List α) :
    [a, b].Sublist (front ++ b :: back) :=
  (List.singleton_sublist.mpr ha).append (List.singleton_sublist.mpr List.mem_cons_self)

/-- One of two items of a list stands before the other. -/
theorem pair_sublist {α : Type} {items : List α} {a b : α} (ha : a ∈ items) (hb : b ∈ items) (hne : a ≠ b) :
    [a, b].Sublist items ∨ [b, a].Sublist items := by
  obtain ⟨front, back, rfl⟩ := List.append_of_mem ha
  cases List.mem_append.mp hb with
  | inl before =>
    right
    exact pair_sublist_append before a back
  | inr after =>
    left
    have later := (List.mem_cons.mp after).resolve_left hne.symm
    exact List.sublist_append_of_sublist_right ((List.singleton_sublist.mpr later).cons_cons a)

namespace HeapGraph

variable {g : HeapGraph} {u v w : Nat} {order through : List Nat}

/-- The super-root refers to the roots, an object to what it holds strongly. -/
def Refers (g : HeapGraph) (u v : Nat) : Prop := u = g.superRoot ∧ v ∈ g.roots ∨ g.Holds u v

instance (g : HeapGraph) (u v : Nat) : Decidable (g.Refers u v) :=
  inferInstanceAs (Decidable (u = g.superRoot ∧ v ∈ g.roots ∨ g.Holds u v))

/-- What an order of the super-root and the objects that are reached from it is, when it comes from a
depth-first search. -/
structure IsSearchOrder (g : HeapGraph) (order : List Nat) : Prop where
  head : order.head? = some g.superRoot
  nodup : order.Nodup
  mem_tail : ∀ v, v ∈ order.tail ↔ g.StronglyReachable v
  /-- Every object comes after something that refers to it. -/
  parent : ∀ v ∈ order.tail, ∃ u, g.Refers u v ∧ [u, v].Sublist order
  /-- A reference leads forward, or to an object from which its holder is reached. -/
  forward : ∀ u ∈ order, ∀ v ∈ order, g.Refers u v →
    [u, v].Sublist order ∨ Relation.ReflTransGen g.Holds v u

/-- No walk from an object comes by the super-root, so that every step of it is a reference. -/
theorem WellFormed.reflTransGen_of_walk (wf : g.WellFormed) (h : g.strongGraph.Walk v w through)
    (hv : v < g.size) : Relation.ReflTransGen g.Holds v w := by
  induction h with
  | single v => exact .refl
  | cons edge _ ih =>
    have later := ih (wf.edge_lt edge)
    have hold := (edge_strongGraph.mp edge).resolve_left fun entry => absurd entry.1 (Nat.ne_of_lt hv)
    exact later.head hold

/-- A reverse postorder of the strong references is such an order. -/
theorem WellFormed.isSearchOrder (wf : g.WellFormed)
    (ord : g.strongGraph.IsReversePostorder g.superRoot order) : g.IsSearchOrder order := by
  obtain ⟨objects, rfl⟩ := List.head?_eq_some_iff.mp ord.head
  have other : ∀ v ∈ objects, v ≠ g.superRoot := by
    intro v hv same
    exact (List.nodup_cons.mp ord.nodup).1 (same ▸ hv)
  refine ⟨ord.head, ord.nodup, ?_, ?_, ?_⟩
  · intro v
    rw [wf.stronglyReachable_iff, ← ord.mem_iff v, List.tail_cons]
    constructor
    · exact fun hv => ⟨other v hv, List.mem_cons_of_mem _ hv⟩
    · exact fun h => (List.mem_cons.mp h.2).resolve_left h.1
  · intro v hv
    obtain ⟨front, back, cut⟩ := List.append_of_mem (List.mem_of_mem_tail hv)
    obtain ⟨u, hu, edge⟩ := ord.parent front v back cut (other v hv)
    refine ⟨u, edge_strongGraph.mp edge, ?_⟩
    rw [cut]
    exact pair_sublist_append hu v back
  · intro u hu v hv refers
    by_cases same : u = v
    · exact .inr (same ▸ .refl)
    · apply (pair_sublist hu hv same).imp_right
      intro backward
      have edge := edge_strongGraph.mpr refers
      have again := ord.backward.sublist backward
      obtain ⟨through, walk⟩ := (List.pairwise_pair.mp again) edge
      exact wf.reflTransGen_of_walk walk (wf.edge_lt edge)

/-- The numbers of a heap's objects follow a depth-first search over its strong references. -/
theorem numbering_isSearchOrder {expected : Nat} {records : List Record} {g : HeapGraph}
    (built : (build expected records).outcome.1 = .ok g) :
    g.IsSearchOrder (g.strongGraph.reversePostorder g.superRoot) :=
  (WellFormed.of_build built).isSearchOrder (WellFormed.of_build built).numbering

/-- In a loop with two entries a reference leads back, to where its holder is reached from. -/
theorem numbering_isSearchOrder_twoEntryLoop :
    ∃ g, (build 6 twoEntryLoop).outcome.1 = .ok g ∧ g.IsSearchOrder [4, 1, 2, 0] ∧
      g.Refers 0 2 ∧ Relation.ReflTransGen g.Holds 2 0 := by
  have checked : (build 6 twoEntryLoop).outcome.1.map (fun g =>
      decide (g.strongGraph.reversePostorder g.superRoot = [4, 1, 2, 0] ∧ g.Refers 0 2)) = .ok true := by
    decide +kernel
  obtain ⟨g, built, listed, refers⟩ := Except.exists_of_test checked
  have order := numbering_isSearchOrder built
  rw [listed] at order
  have back := (order.forward 0 (by decide) 2 (by decide) refers).resolve_left (by decide)
  exact ⟨g, built, order, refers, back⟩

end HeapGraph

end Retention
