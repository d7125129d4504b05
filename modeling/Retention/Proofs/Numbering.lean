import Mathlib.Data.List.Perm.Subperm
import Retention.Dominator.Tree
import Retention.Proofs.Postorder
import Retention.Proofs.Repetitions
import Retention.Proofs.Settling

namespace Retention

section Slots

variable {α : Type} {pairs : List (Nat × α)} {slots : Array (Option α)} {i : Nat} {a : α}

/-- Enters the value of each pair at the place it names. -/
def enterAll (slots : Array (Option α)) (pairs : List (Nat × α)) : Array (Option α) :=
  pairs.foldl (fun slots p => slots.setIfInBounds p.1 (some p.2)) slots

@[simp] theorem size_enterAll (slots : Array (Option α)) (pairs : List (Nat × α)) :
    (enterAll slots pairs).size = slots.size := by
  unfold enterAll
  induction pairs generalizing slots with
  | nil => rfl
  | cons p rest ih => rw [List.foldl_cons, ih, Array.size_setIfInBounds]

theorem enterAll_of_not_mem (h : i ∉ pairs.map Prod.fst) : (enterAll slots pairs)[i]? = slots[i]? := by
  unfold enterAll
  induction pairs generalizing slots with
  | nil => rfl
  | cons p rest ih =>
    rw [List.map_cons, List.mem_cons, not_or] at h
    rw [List.foldl_cons, ih h.2, Array.getElem?_setIfInBounds_ne (Ne.symm h.1)]

theorem enterAll_of_mem (nodup : (pairs.map Prod.fst).Nodup) (h : (i, a) ∈ pairs) (hi : i < slots.size) :
    (enterAll slots pairs)[i]? = some (some a) := by
  induction pairs generalizing slots with
  | nil => exact absurd h List.not_mem_nil
  | cons p rest ih =>
    rw [List.map_cons, List.nodup_cons] at nodup
    cases List.mem_cons.mp h with
    | inl h =>
      subst h
      have kept : (enterAll (slots.setIfInBounds i (some a)) rest)[i]? = (slots.setIfInBounds i (some a))[i]? :=
        enterAll_of_not_mem nodup.1
      change (enterAll (slots.setIfInBounds i (some a)) rest)[i]? = _
      rw [kept, Array.getElem?_setIfInBounds_self_of_lt hi]
    | inr h => exact ih nodup.2 h (by rwa [Array.size_setIfInBounds])

end Slots

theorem HeapGraph.size_predecessors (g : Digraph) (order : List Nat) : (predecessors g order).size = order.length := by
  rw [predecessors, Array.size_map, size_buckets]

namespace Digraph.IsReversePostorder

variable {g : Digraph} {entry : Nat} {order : List Nat} {d p r v x y : Nat}

theorem index_inj (ord : g.IsReversePostorder entry order) (hp : order[p]? = some x)
    (hr : order[r]? = some x) : p = r :=
  (List.getElem?_inj (List.getElem?_eq_some_iff.mp hp).1 ord.nodup).mp (hp.trans hr.symm)

theorem idxOf_eq (ord : g.IsReversePostorder entry order) (hr : order[r]? = some x) : order.idxOf x = r := by
  obtain ⟨inside, rfl⟩ := List.getElem?_eq_some_iff.mp hr
  exact ord.nodup.idxOf_getElem r inside

theorem getElem?_zero (ord : g.IsReversePostorder entry order) : order[0]? = some entry := by
  rw [← List.head?_eq_getElem?, ord.head]

theorem length_pos (ord : g.IsReversePostorder entry order) : 0 < order.length :=
  (List.getElem?_eq_some_iff.mp ord.getElem?_zero).1

theorem numbersOf_eq_some (ord : g.IsReversePostorder entry order) (hx : x < g.size) :
    ((HeapGraph.numbersOf g.size order)[x]?).join = some r ↔ order[r]? = some x := by
  have same : HeapGraph.numbersOf g.size order =
      enterAll (Array.replicate g.size none) order.zipIdx := rfl
  have keys : order.zipIdx.map Prod.fst = order := List.zipIdx_map_fst 0 order
  have hs : x < (Array.replicate g.size (none : Option Nat)).size := by rwa [Array.size_replicate]
  have known : ∀ q, order[q]? = some x →
      (enterAll (Array.replicate g.size none) order.zipIdx)[x]? = some (some q) := fun q hq =>
    enterAll_of_mem (keys.symm ▸ ord.nodup) (List.mem_zipIdx_iff_getElem?.mpr hq) hs
  rw [same]
  constructor
  · intro h
    by_cases hm : x ∈ order
    · obtain ⟨q, hq⟩ := List.mem_iff_getElem?.mp hm
      rw [known q hq, Option.join_some, Option.some.injEq] at h
      exact h ▸ hq
    · rw [enterAll_of_not_mem (by rwa [keys])] at h
      simp [hx] at h
  · intro h
    rw [known r h]
    rfl

theorem mem_numberedEdges (ord : g.IsReversePostorder entry order) (closed : g.Closed) :
    (r, p) ∈ HeapGraph.numberedEdges g order ↔
      ∃ x y, order[p]? = some x ∧ order[r]? = some y ∧ g.Edge x y ∧ r ≠ p := by
  unfold HeapGraph.numberedEdges
  simp only [List.mem_flatMap, List.mem_filterMap]
  constructor
  · rintro ⟨⟨x, q⟩, hx, y, hy, hrp⟩
    have hq := List.mem_zipIdx_iff_getElem?.mp hx
    split at hrp
    · rename_i target ht
      split at hrp
      · cases hrp
      · rename_i hne
        obtain ⟨rfl, rfl⟩ := Prod.mk.inj (Option.some.inj hrp)
        exact ⟨x, y, hq, (ord.numbersOf_eq_some (closed x y hy)).mp ht, hy, hne⟩
    · cases hrp
  · rintro ⟨x, y, hx, hy, edge, hne⟩
    have hr := (ord.numbersOf_eq_some (closed x y edge)).mpr hy
    refine ⟨(x, p), List.mem_zipIdx_iff_getElem?.mpr hx, y, edge, ?_⟩
    simp only [hr, hne, if_false]

/-- In the numbers of an order the predecessors of a vertex are its predecessors in the graph. -/
theorem mem_predecessors (ord : g.IsReversePostorder entry order) (closed : g.Closed) :
    p ∈ (HeapGraph.predecessors g order).getD r [] ↔
      ∃ x y, order[p]? = some x ∧ order[r]? = some y ∧ g.Edge x y ∧ r ≠ p := by
  rw [← ord.mem_numberedEdges closed, Array.getD_eq_getD_getElem?]
  by_cases hr : r < order.length
  · rw [HeapGraph.predecessors, Array.getElem?_map, getElem?_buckets _ _ hr]
    simp
  · rw [Array.getElem?_eq_none (by rw [HeapGraph.size_predecessors]; omega)]
    constructor
    · exact fun h => absurd h List.not_mem_nil
    · intro h
      obtain ⟨x, y, -, hy, -⟩ := (ord.mem_numberedEdges closed).mp h
      exact absurd (List.getElem?_eq_some_iff.mp hy).1 hr

theorem numbered (ord : g.IsReversePostorder entry order) (closed : g.Closed) :
    Numbered (HeapGraph.predecessors g order) where
  nonempty := by
    rw [HeapGraph.size_predecessors]
    exact ord.length_pos
  parent := by
    intro v hv hs
    rw [HeapGraph.size_predecessors] at hs
    have away : order[v] ≠ entry := by
      intro hc
      have hz := ord.index_inj (List.getElem?_eq_getElem hs) (hc ▸ ord.getElem?_zero)
      omega
    have split : order = order.take v ++ order[v] :: order.drop (v + 1) := by simp
    obtain ⟨x, hx, edge⟩ := ord.parent _ _ _ split away
    obtain ⟨p, hp⟩ := List.mem_iff_getElem?.mp hx
    rw [List.getElem?_take] at hp
    split at hp
    · rename_i hpv
      exact ⟨p, (ord.mem_predecessors closed).mpr ⟨x, _, hp, List.getElem?_eq_getElem hs, edge, by omega⟩, hpv⟩
    · cases hp
  inside := by
    intro v p hp
    obtain ⟨x, y, hx, -⟩ := (ord.mem_predecessors closed).mp hp
    rw [HeapGraph.size_predecessors]
    exact (List.getElem?_eq_some_iff.mp hx).1

/-- A way past a number is a walk past its vertex. -/
theorem walk_of_bypass (ord : g.IsReversePostorder entry order) (closed : g.Closed) {k : Nat}
    (h : Bypass (HeapGraph.predecessors g order) d k v) (hv : order[v]? = some y) :
    ∃ through, g.Walk entry y through ∧ ∀ x ∈ through, order[d]? ≠ some x := by
  have step : ∀ p v, p ∈ (HeapGraph.predecessors g order).getD v [] → d ≠ v →
      (∀ x, order[p]? = some x → ∃ through, g.Walk entry x through ∧ ∀ z ∈ through, order[d]? ≠ some z) →
      ∀ y, order[v]? = some y →
        ∃ through, g.Walk entry y through ∧ ∀ z ∈ through, order[d]? ≠ some z := by
    intro p v hp hne before y hv
    obtain ⟨x, y', hx, hy', edge, -⟩ := (ord.mem_predecessors closed).mp hp
    obtain rfl : y = y' := Option.some.inj (hv.symm.trans hy')
    obtain ⟨through, walk, away⟩ := before x hx
    refine ⟨through ++ [y], walk.snoc edge, ?_⟩
    intro z hz
    cases List.mem_append.mp hz with
    | inl hz => exact away z hz
    | inr hz =>
      obtain rfl := List.mem_singleton.mp hz
      exact fun hd => hne (ord.index_inj hd hv)
  induction h generalizing y with
  | entry hd =>
    obtain rfl : entry = y := Option.some.inj (ord.getElem?_zero.symm.trans hv)
    refine ⟨[entry], .single entry, ?_⟩
    intro x hx hc
    obtain rfl := List.mem_singleton.mp hx
    exact hd (ord.index_inj hc ord.getElem?_zero)
  | @forward k p v _ hp _ hne ih => exact step p v hp hne (fun x hx => ih hx) y hv
  | @backward k p v _ hp hne ih => exact step p v hp hne (fun x hx => ih hx) y hv

/-- A walk past a vertex is a way past its number that goes back no more often than it has steps. -/
theorem bypass_of_walk (ord : g.IsReversePostorder entry order) (closed : g.Closed)
    {through : List Nat} (walk : g.Walk entry y through) (away : ∀ x ∈ through, order[d]? ≠ some x)
    (hv : order[v]? = some y) :
    ∃ k, k < through.length ∧ Bypass (HeapGraph.predecessors g order) d k v := by
  refine walk.from_start (motive := fun y through => (∀ x ∈ through, order[d]? ≠ some x) → ∀ v, order[v]? = some y →
    ∃ k, k < through.length ∧ Bypass (HeapGraph.predecessors g order) d k v) ?_ ?_ away v hv
  · intro away v hv
    obtain rfl : v = 0 := ord.index_inj hv ord.getElem?_zero
    have hd : d ≠ 0 := fun hc => away entry (List.mem_singleton_self entry) (hc ▸ ord.getElem?_zero)
    exact ⟨0, Nat.one_pos, .entry hd⟩
  · intro x y through walk edge ih away v hv
    have reached : x ∈ order := (ord.mem_iff x).mpr ⟨through, walk⟩
    obtain ⟨p, hp⟩ := List.mem_iff_getElem?.mp reached
    obtain ⟨k, hk, bypass⟩ := ih (fun z hz => away z (List.mem_append_left _ hz)) p hp
    rw [List.length_append, List.length_singleton]
    by_cases hpv : v = p
    · exact ⟨k, by omega, hpv ▸ bypass⟩
    · have hd : d ≠ v := fun hc => away y (List.mem_append_right _ (List.mem_singleton_self y)) (hc ▸ hv)
      have hpred := (ord.mem_predecessors closed).mpr ⟨x, y, hp, hv, edge, hpv⟩
      exact ⟨k + 1, by omega, .backward bypass hpred hd⟩

theorem unavoidable_iff (ord : g.IsReversePostorder entry order) (closed : g.Closed)
    (hd : order[d]? = some x) (hv : order[v]? = some y) :
    Unavoidable (HeapGraph.predecessors g order) d v ↔ g.Dominates entry x y := by
  constructor
  · intro h through walk
    by_contra hx
    have away : ∀ z ∈ through, order[d]? ≠ some z := by
      intro z hz hc
      exact hx (Option.some.inj (hd.symm.trans hc) ▸ hz)
    obtain ⟨k, -, bypass⟩ := ord.bypass_of_walk closed walk away hv
    exact h k bypass
  · intro h k bypass
    obtain ⟨through, walk, away⟩ := ord.walk_of_bypass closed bypass hv
    exact away x (h through walk) hd

/-- A way past a number need not go back more often than there are vertices. -/
theorem exists_bypass_lt (ord : g.IsReversePostorder entry order) (closed : g.Closed) (d v : Nat)
    (h : ¬ Unavoidable (HeapGraph.predecessors g order) d v) :
    ∃ k ≤ order.length - 1, Bypass (HeapGraph.predecessors g order) d k v := by
  unfold Unavoidable at h
  rw [not_forall] at h
  obtain ⟨k, hk⟩ := h
  have bypass := not_not.mp hk
  have hv : ∃ y, order[v]? = some y := by
    cases bypass with
    | entry => exact ⟨entry, ord.getElem?_zero⟩
    | forward _ hp _ _ =>
      obtain ⟨x, y, -, hy, -⟩ := (ord.mem_predecessors closed).mp hp
      exact ⟨y, hy⟩
    | backward _ hp _ =>
      obtain ⟨x, y, -, hy, -⟩ := (ord.mem_predecessors closed).mp hp
      exact ⟨y, hy⟩
  obtain ⟨y, hv⟩ := hv
  -- Only a simple walk is sure to have no more steps than there are vertices.
  obtain ⟨through, walk, away⟩ := ord.walk_of_bypass closed bypass hv
  obtain ⟨short, walk, nodup, sub⟩ := walk.simple
  obtain ⟨k, hk, bypass⟩ := ord.bypass_of_walk closed walk (fun x hx => away x (sub x hx)) hv
  have inside : short ⊆ order := by
    intro x hx
    obtain ⟨front, hf, -⟩ := walk.cut hx
    exact (ord.mem_iff x).mpr ⟨front, hf⟩
  have hlen := (nodup.subperm inside).length_le
  exact ⟨k, by omega, bypass⟩

end Digraph.IsReversePostorder

/-- Estimates that tell the dominators of a graph in the numbers of an order. -/
structure Estimates.Exact (g : Digraph) (entry : Nat) (order : List Nat) (e : Estimates) : Prop where
  estimate : ∀ r, 0 < r → r < order.length → (e[r]?).join = some (e.climb r)
  mem_chain : ∀ {d v x y : Nat}, order[d]? = some x → order[v]? = some y →
    (d ∈ e.chain v ↔ g.Dominates entry x y)

/-- Sweeps over a graph settle on its dominators, after no more sweeps than one more than there are
vertices. -/
theorem Digraph.IsReversePostorder.exists_settled {g : Digraph} {entry : Nat} {order : List Nat}
    (ord : g.IsReversePostorder entry order) (closed : g.Closed) :
    ∃ e n, 0 < n ∧ n ≤ order.length + 1 ∧ e.Exact g entry order ∧ ∀ bound failure, n ≤ bound →
      (Sweep.settle (HeapGraph.predecessors g order) bound failure 0 (.initial order.length)).Returns
        (.ok (e, n)) := by
  have numbered := ord.numbered closed
  have hsize : (HeapGraph.predecessors g order).size = order.length := HeapGraph.size_predecessors g order
  have hlen := ord.length_pos
  have first := Sweeping.initial numbered
  obtain ⟨e, n, hn, hK, sweeping, stable, returns⟩ :=
    Sweep.exists_settled numbered (ord.exists_bypass_lt closed) first (Nat.zero_le _)
  refine ⟨e, n, hn, by omega, ⟨?_, ?_⟩, ?_⟩
  · intro r hr hs
    exact sweeping.falling r hr ((sweeping.defined r).mpr ⟨hsize ▸ hs, .inr hn⟩)
  · intro d v x y hd hv
    have hs : v < (HeapGraph.predecessors g order).size := hsize ▸ (List.getElem?_eq_some_iff.mp hv).1
    exact (sweeping.mem_chain_iff_unavoidable numbered hn stable hs).trans (ord.unavoidable_iff closed hd hv)
  · rw [← hsize]
    exact returns

end Retention
