import Retention.HeapGraph.Builder
import Retention.Proofs.LoadRuns
import Retention.Proofs.Repetitions

namespace Retention

theorem ObjectId.compare_eq_iff {a b : ObjectId} : compare a b = .eq ↔ a = b :=
  Std.LawfulEqOrd.compare_eq_iff_eq

theorem ObjectId.compare_lt_iff {a b : ObjectId} : compare a b = .lt ↔ a < b :=
  Std.compare_eq_lt (a := a.value) (b := b.value)

theorem ObjectId.eq_of_value {a b : ObjectId} (h : a.value = b.value) : a = b := by
  cases a
  cases b
  exact congrArg ObjectId.mk h

theorem ObjectId.decide_le_trans {a b c : ObjectId} (hab : decide (a ≤ b) = true) (hbc : decide (b ≤ c) = true) :
    decide (a ≤ c) = true := by
  have hle : a.value ≤ c.value := UInt64.le_trans (of_decide_eq_true hab) (of_decide_eq_true hbc)
  exact decide_eq_true hle

theorem ObjectId.decide_le_total (a b : ObjectId) : (decide (a ≤ b) || decide (b ≤ a)) = true := by
  rw [Bool.or_eq_true, decide_eq_true_eq, decide_eq_true_eq]
  exact UInt64.le_total a.value b.value

/-- Ids and places name each other in the accepted records. -/
def Drafts.Indexed (d : Drafts) : Prop :=
  ∀ (id : ObjectId) (i : Nat), d.index[id]? = some i ↔ ∃ draft, d.objects[i]? = some draft ∧ draft.object.id = id

namespace Drafts

variable {d : Drafts}

theorem indexed_empty : empty.Indexed := by
  intro id i
  simp [empty]

theorem Indexed.insert_draft (h : d.Indexed) {draft : Draft}
    (fresh : d.index.contains draft.object.id = false) : (d.insert (.draft draft)).Indexed := by
  intro id i
  have unused : d.index[draft.object.id]? = none := by
    rwa [Std.TreeMap.contains_eq_isSome_getElem?, Option.isSome_eq_false_iff, Option.isNone_iff_eq_none] at fresh
  simp only [insert, Std.TreeMap.getElem?_insert, ObjectId.compare_eq_iff, Array.getElem?_push]
  by_cases hid : draft.object.id = id
  · subst hid
    rw [if_pos rfl]
    constructor
    · intro hi
      obtain rfl : d.objects.size = i := Option.some.inj hi
      exact ⟨draft, by simp, rfl⟩
    · rintro ⟨other, hother, same⟩
      split at hother
      · rename_i hi
        rw [hi]
      · have known := (h draft.object.id i).mpr ⟨other, hother, same⟩
        rw [unused] at known
        exact absurd known (by simp)
  · rw [if_neg hid, h id i]
    constructor
    · rintro ⟨other, hother, same⟩
      have hi : i ≠ d.objects.size := Nat.ne_of_lt (Array.getElem?_eq_some_iff.mp hother).1
      exact ⟨other, by rw [if_neg hi]; exact hother, same⟩
    · rintro ⟨other, hother, same⟩
      split at hother
      · exact absurd (Option.some.inj hother ▸ same) hid
      · exact ⟨other, hother, same⟩

theorem Indexed.insert_inspected (h : d.Indexed) {record : Record} {entry : Entry}
    (he : d.inspect record = .ok entry) : (d.insert entry).Indexed := by
  cases record with
  | root id kind =>
    obtain rfl : Entry.root id kind = entry := Except.ok.inj he
    exact h
  | object shape object =>
    simp only [inspect] at he
    split at he
    · cases he
    · rename_i fresh
      cases hp : shape.place object.references with
      | error reason =>
        rw [hp] at he
        cases he
      | ok placed =>
        rw [hp] at he
        obtain rfl := Except.ok.inj he
        exact h.insert_draft (Bool.eq_false_iff.mpr fresh)

end Drafts

namespace Resolving

variable {index : Std.TreeMap ObjectId Nat} {s : Resolving} {table : Array (Array Nat)} {count i u v : Nat}

theorem size_noteReferrers (i : Nat) (table : Array (Array Nat)) (references : List Reference) :
    (references.foldl (noteReferrer i) table).size = table.size := by
  induction references generalizing table with
  | nil => rfl
  | cons r rest ih =>
    rw [List.foldl_cons, ih, noteReferrer]
    split <;> simp

/-- A reference adds its holder to those that refer to its target, and to no others. -/
theorem mem_noteReferrer (hv : v < table.size) (r : Reference) :
    u ∈ (noteReferrer i table r).getD v #[] ↔ u ∈ table.getD v #[] ∨ u = i ∧ r.resolved = some v := by
  unfold noteReferrer
  cases resolved : r.resolved with
  | none => simp
  | some target =>
    by_cases same : target = v
    · simp [same, Array.getElem?_modify, Array.getElem?_eq_getElem hv]
    · simp [same, Array.getElem?_modify]

theorem mem_noteReferrers (hv : v < table.size) (references : List Reference) :
    u ∈ (references.foldl (noteReferrer i) table).getD v #[] ↔
      u ∈ table.getD v #[] ∨ u = i ∧ ∃ r ∈ references, r.resolved = some v := by
  induction references generalizing table with
  | nil => simp
  | cons r rest ih =>
    have inside : v < (noteReferrer i table r).size := by
      rwa [show (noteReferrer i table r).size = table.size from size_noteReferrers i table [r]]
    rw [List.foldl_cons, ih inside, mem_noteReferrer hv, List.exists_mem_cons_iff, and_or_left, or_assoc]

/-- The table tells who refers to each place, of the objects that were gone through. -/
structure Noted (count : Nat) (s : Resolving) : Prop where
  size_eq : s.referrers.size = count
  mem_iff : ∀ u v, v < count →
    (u ∈ s.referrers.getD v #[] ↔ ∃ n, s.nodes[u]? = some n ∧ ∃ r ∈ n.references, r.resolved = some v)

theorem noted_blank (count : Nat) : (blank count).Noted count where
  size_eq := Array.size_replicate
  mem_iff := by
    intro u v hv
    simp [blank, hv]

theorem Noted.next (h : s.Noted count) (draft : Draft) : (s.next index draft).Noted count where
  size_eq := (size_noteReferrers _ _ _).trans h.size_eq
  mem_iff := by
    intro u v hv
    have table := mem_noteReferrers (i := s.nodes.size) (u := u) (h.size_eq.symm ▸ hv)
      (HeapGraphBuilder.resolve index draft).references
    refine table.trans ?_
    rw [h.mem_iff u v hv]
    show _ ↔ ∃ n, (s.nodes.push (HeapGraphBuilder.resolve index draft))[u]? = some n ∧ _
    rw [Array.getElem?_push]
    by_cases last : u = s.nodes.size
    · simp [last]
    · simp [last]

theorem Noted.foldl (h : s.Noted count) (index : Std.TreeMap ObjectId Nat) (drafts : List Draft) :
    (drafts.foldl (Resolving.next index) s).Noted count := by
  induction drafts generalizing s with
  | nil => exact h
  | cons draft rest ih => exact ih (h.next draft)

theorem nodes_foldl (index : Std.TreeMap ObjectId Nat) (s : Resolving) (drafts : List Draft) :
    (drafts.foldl (next index) s).nodes = s.nodes ++ (drafts.map (HeapGraphBuilder.resolve index)).toArray := by
  induction drafts generalizing s with
  | nil => simp
  | cons draft rest ih =>
    rw [List.foldl_cons, ih]
    simp [next]

end Resolving

namespace HeapGraphBuilder

theorem drafts_take {b next : HeapGraphBuilder} {record : Record} (h : b.take record = .ok next) :
    ∃ entry, b.drafts.inspect record = .ok entry ∧ next.drafts = b.drafts.insert entry := by
  unfold take push at h
  cases hi : b.drafts.inspect record with
  | error reason =>
    rw [hi] at h
    cases h
  | ok entry =>
    rw [hi] at h
    refine ⟨entry, rfl, ?_⟩
    rw [← Except.ok.inj h]

theorem indexed_of_records {records : List Record} {b : HeapGraphBuilder}
    (h : records.foldlM take new = .ok b) : b.drafts.Indexed := by
  refine foldlM_preserves (motive := fun b => b.drafts.Indexed) ?_ Drafts.indexed_empty h
  intro b record next hb hn
  obtain ⟨entry, he, same⟩ := drafts_take hn
  rw [same]
  exact hb.insert_inspected he

/-- The graph before its roots are registered. -/
def resolved (d : Drafts) : HeapGraph :=
  (d.objects.toList.foldl (Resolving.next d.index) (.blank d.objects.size)).graph d.index

theorem finish_runs (b : HeapGraphBuilder) :
    b.finish.Runs (.ok (b.drafts.roots.toList.foldl registerRoot (resolved b.drafts)))
      (phase "Resolving references" b.drafts.objects.size b.drafts.objects.size) :=
  .notify_bind ((Load.runs_each_ok _ _ _).bind (.notify_bind (Load.runs_pure _)))

theorem nodes_resolved (d : Drafts) : (resolved d).nodes = d.objects.map (resolve d.index) := by
  show (d.objects.toList.foldl (Resolving.next d.index) (.blank d.objects.size)).nodes = _
  rw [Resolving.nodes_foldl, ← Array.toList_map, Array.toArray_toList]
  exact Array.empty_append

section RegisterRoot

variable (g : HeapGraph) (root : ObjectId × RootKind)

theorem lookup_registerRoot (id : ObjectId) : (registerRoot g root).lookup id = g.lookup id := by
  unfold registerRoot
  split <;> rfl

theorem referrersOf_registerRoot (i : Nat) : (registerRoot g root).referrersOf i = g.referrersOf i := by
  unfold registerRoot
  split <;> rfl

theorem size_registerRoot : (registerRoot g root).size = g.size := by
  unfold registerRoot
  split
  · rfl
  · exact Array.size_modify

/-- Registering a root leaves what an object says apart from its kinds. -/
theorem elim_registerRoot {α : Type} {said : Node → α} (blind : ∀ n kinds, said { n with rootKinds := kinds } = said n)
    (absent : α) (i : Nat) : ((registerRoot g root).node? i).elim absent said = (g.node? i).elim absent said := by
  unfold registerRoot
  split
  · rfl
  · rename_i j _
    show (g.nodes.modify j _)[i]?.elim absent said = g.nodes[i]?.elim absent said
    rw [Array.getElem?_modify]
    split
    · cases g.nodes[i]? with
      | none => rfl
      | some n => exact blind n _
    · rfl

theorem idOf_registerRoot (i : Nat) : (registerRoot g root).idOf i = g.idOf i :=
  elim_registerRoot g root (fun _ _ => rfl) _ i

theorem referencesOf_registerRoot (i : Nat) : (registerRoot g root).referencesOf i = g.referencesOf i :=
  elim_registerRoot g root (fun _ _ => rfl) _ i

end RegisterRoot

end HeapGraphBuilder

namespace HeapGraph

theorem build_returns (expected : Nat) (records : List Record) :
    (build expected records).Returns
      ((records.foldlM HeapGraphBuilder.take .new).map fun b =>
        b.drafts.roots.toList.foldl HeapGraphBuilder.registerRoot (HeapGraphBuilder.resolved b.drafts)) := by
  unfold build
  refine (Load.runsBy_notify trivial).bind ?_
  have read := Load.returns_each HeapGraphBuilder.take .new records
  cases hf : records.foldlM HeapGraphBuilder.take .new with
  | error error =>
    rw [hf] at read
    exact read.bind_error _
  | ok b =>
    rw [hf] at read
    exact read.bind ((Load.runsBy_notify trivial).bind b.finish_runs.returns)

theorem perm_sortById (g : HeapGraph) (places : List Nat) : (g.sortById places).Perm places :=
  List.mergeSort_perm places _

theorem mem_sortById {g : HeapGraph} {places : List Nat} {i : Nat} : i ∈ g.sortById places ↔ i ∈ places :=
  (g.perm_sortById places).mem_iff

theorem sorted_sortById (g : HeapGraph) (places : List Nat) :
    (g.sortById places).Pairwise fun i j => g.idOf i ≤ g.idOf j := by
  have sorted : (g.sortById places).Pairwise fun i j => decide (g.idOf i ≤ g.idOf j) = true :=
    List.pairwise_mergeSort (fun i j k => ObjectId.decide_le_trans (b := g.idOf j))
      (fun i j => ObjectId.decide_le_total (g.idOf i) (g.idOf j)) places
  exact sorted.imp of_decide_eq_true

theorem ascending_of_sorted {g : HeapGraph} {places : List Nat}
    (sorted : places.Pairwise fun i j => g.idOf i ≤ g.idOf j) (nodup : places.Nodup)
    (inj : ∀ i ∈ places, ∀ j ∈ places, g.idOf i = g.idOf j → i = j) :
    places.Pairwise fun i j => g.idOf i < g.idOf j := by
  refine (sorted.and nodup).imp_of_mem ?_
  intro i j hi hj hij
  have hne : (g.idOf i).value ≠ (g.idOf j).value := by
    intro same
    exact hij.2 (inj i hi j hj (ObjectId.eq_of_value same))
  exact UInt64.lt_of_le_of_ne hij.1 hne

theorem nodup_of_ascending {g : HeapGraph} {places : List Nat}
    (h : places.Pairwise fun i j => g.idOf i < g.idOf j) : places.Nodup := by
  refine h.imp ?_
  intro i j hlt same
  subst same
  exact UInt64.lt_irrefl _ hlt

/-- Places in the order of their ids are told by their members. -/
theorem ascending_ext {g : HeapGraph} {places others : List Nat}
    (ascending : places.Pairwise fun a b => g.idOf a < g.idOf b)
    (ascending' : others.Pairwise fun a b => g.idOf a < g.idOf b) (mem : ∀ i, i ∈ places ↔ i ∈ others) :
    places = others := by
  have perm := (List.perm_ext_iff_of_nodup (nodup_of_ascending ascending) (nodup_of_ascending ascending')).mpr mem
  apply perm.eq_of_pairwise _ ascending ascending'
  intro a b _ _ hab hba
  exact absurd (UInt64.lt_trans hab hba) (UInt64.lt_irrefl _)

section Places

variable {g : HeapGraph} {i j : Nat}

theorem exists_node (hi : i < g.size) : ∃ n, g.node? i = some n ∧ g.idOf i = n.id := by
  have hn : g.node? i = some g.nodes[i] := Array.getElem?_eq_getElem hi
  exact ⟨g.nodes[i], hn, by rw [idOf, hn]; rfl⟩

theorem exists_node_iff {id : ObjectId} : (∃ n, g.node? i = some n ∧ n.id = id) ↔ i < g.size ∧ g.idOf i = id := by
  constructor
  · intro h
    obtain ⟨n, hn, named⟩ := h
    exact ⟨(Array.getElem?_eq_some_iff.mp hn).1, by rw [idOf, hn]; exact named⟩
  · intro h
    obtain ⟨n, hn, named⟩ := exists_node h.1
    exact ⟨n, hn, named.symm.trans h.2⟩

theorem mem_referencesOf {r : Reference} : r ∈ g.referencesOf i ↔ ∃ n, g.node? i = some n ∧ r ∈ n.references := by
  unfold referencesOf
  cases g.node? i <;> simp

theorem lt_of_mem_referencesOf {r : Reference} (hr : r ∈ g.referencesOf i) : i < g.size := by
  obtain ⟨n, hn, -⟩ := mem_referencesOf.mp hr
  exact (Array.getElem?_eq_some_iff.mp hn).1

theorem idOf_inj_of_lookup (h : ∀ id i, g.lookup id = some i ↔ ∃ n, g.node? i = some n ∧ n.id = id)
    (hi : i < g.size) (hj : j < g.size) (same : g.idOf i = g.idOf j) : i = j := by
  have left := (h (g.idOf j) i).mpr (exists_node_iff.mpr ⟨hi, same⟩)
  have right := (h (g.idOf j) j).mpr (exists_node_iff.mpr ⟨hj, rfl⟩)
  exact Option.some.inj (left.symm.trans right)

end Places

end HeapGraph

namespace Resolving

open HeapGraph

variable {s : Resolving} {count : Nat}

theorem referrersOf_graph (index : Std.TreeMap ObjectId Nat) (s : Resolving) (v : Nat) :
    (s.graph index).referrersOf v = ((s.graph index).sortById (s.referrers.getD v #[]).toList).eraseReps := by
  have sorted : (s.graph index).referrersOf v =
      (s.referrers.map fun places => ((s.graph index).sortById places.toList).eraseReps).getD v [] := rfl
  rw [sorted, Array.getD_eq_getD_getElem?, Array.getD_eq_getD_getElem?, Array.getElem?_map]
  cases s.referrers[v]? with
  | none => simp [sortById, List.eraseReps, List.eraseRepsBy]
  | some places => rfl

theorem Noted.mem_referrersOf (h : s.Noted count) (index : Std.TreeMap ObjectId Nat)
    (inside : ∀ u, ∀ r ∈ (s.graph index).referencesOf u, ∀ v, r.resolved = some v → v < count) (u v : Nat) :
    u ∈ (s.graph index).referrersOf v ↔ ∃ r ∈ (s.graph index).referencesOf u, r.resolved = some v := by
  rw [referrersOf_graph, mem_eraseReps, mem_sortById, Array.mem_toList_iff]
  by_cases hv : v < count
  · rw [h.mem_iff u v hv]
    simp only [mem_referencesOf]
    show (∃ n, s.nodes[u]? = some n ∧ _) ↔ ∃ r, (∃ n, s.nodes[u]? = some n ∧ _) ∧ _
    grind
  · rw [Array.getD_eq_getD_getElem?, Array.getElem?_eq_none (by rw [h.size_eq]; omega)]
    constructor
    · intro none
      simp at none
    · intro refers
      obtain ⟨r, hr, target⟩ := refers
      exact absurd (inside u r hr v target) hv

/-- Sorted and without repetitions, different referrers ascend. -/
theorem referrersOf_ascending {index : Std.TreeMap ObjectId Nat} {v : Nat}
    (inj : ∀ i ∈ (s.graph index).referrersOf v, ∀ j ∈ (s.graph index).referrersOf v,
      (s.graph index).idOf i = (s.graph index).idOf j → i = j) :
    ((s.graph index).referrersOf v).Pairwise fun i j => (s.graph index).idOf i < (s.graph index).idOf j := by
  have sorted := (s.graph index).sorted_sortById (s.referrers.getD v #[]).toList
  rw [referrersOf_graph] at inj ⊢
  simp only [mem_eraseReps] at inj
  apply ascending_of_sorted (sorted.sublist (eraseReps_sublist _))
  · apply nodup_eraseReps sorted
    intro i hi j hj below above
    exact inj i hi j hj (ObjectId.eq_of_value (UInt64.le_antisymm below above))
  · simpa only [mem_eraseReps] using inj

end Resolving

namespace HeapGraphBuilder

variable {d : Drafts}

theorem lookup_resolved_iff (h : d.Indexed) (id : ObjectId) (i : Nat) :
    (resolved d).lookup id = some i ↔ ∃ n, (resolved d).node? i = some n ∧ n.id = id := by
  show d.index[id]? = some i ↔ ∃ n, (resolved d).nodes[i]? = some n ∧ n.id = id
  rw [nodes_resolved, Array.getElem?_map, h id i]
  cases d.objects[i]? <;> simp [resolve]

theorem reference_resolved {i : Nat} {n : Node} (hn : (resolved d).node? i = some n) :
    ∀ r ∈ n.references, r.resolved = r.target.bind (resolved d).lookup := by
  intro r hr
  rw [HeapGraph.node?, nodes_resolved, Array.getElem?_map] at hn
  obtain ⟨draft, -, rfl⟩ := Option.map_eq_some_iff.mp hn
  obtain ⟨raw, -, rfl⟩ := List.mem_map.mp hr
  rfl

/-- The table that was filled object by object tells who refers to whom. -/
theorem mem_referrersOf_resolved (h : d.Indexed) (u v : Nat) :
    u ∈ (resolved d).referrersOf v ↔ ∃ r ∈ (resolved d).referencesOf u, r.resolved = some v := by
  have noted := (Resolving.noted_blank d.objects.size).foldl d.index d.objects.toList
  apply noted.mem_referrersOf d.index
  intro u r hr v target
  obtain ⟨n, hn, hr⟩ := HeapGraph.mem_referencesOf.mp hr
  rw [reference_resolved hn r hr] at target
  obtain ⟨id, -, found⟩ := Option.bind_eq_some_iff.mp target
  obtain ⟨m, hm, -⟩ := (lookup_resolved_iff h id v).mp found
  have inside := (Array.getElem?_eq_some_iff.mp hm).1
  rwa [nodes_resolved, Array.size_map] at inside

end HeapGraphBuilder

namespace HeapGraph

/-- Ids and places name each other, references are resolved by id, roots are objects, and the referrers of
an object are those that hold a reference to it. -/
structure WellFormed (g : HeapGraph) : Prop where
  lookup_iff : ∀ id i, g.lookup id = some i ↔ ∃ n, g.node? i = some n ∧ n.id = id
  resolved : ∀ i n, g.node? i = some n → ∀ r ∈ n.references, r.resolved = r.target.bind g.lookup
  roots_lt : ∀ i ∈ g.roots, i < g.size
  mem_referrersOf : ∀ u v, u ∈ g.referrersOf v ↔ ∃ r ∈ g.referencesOf u, r.resolved = some v
  referrersOf_ascending : ∀ v, (g.referrersOf v).Pairwise fun a b => g.idOf a < g.idOf b

namespace WellFormed

variable {g : HeapGraph}

theorem of_drafts {d : Drafts} (h : d.Indexed) : (HeapGraphBuilder.resolved d).WellFormed where
  lookup_iff := HeapGraphBuilder.lookup_resolved_iff h
  resolved := fun _ _ => HeapGraphBuilder.reference_resolved
  roots_lt := fun i hi => absurd hi List.not_mem_nil
  mem_referrersOf := HeapGraphBuilder.mem_referrersOf_resolved h
  referrersOf_ascending := by
    intro v
    apply Resolving.referrersOf_ascending
    intro i hi j hj
    obtain ⟨r, hr, -⟩ := (HeapGraphBuilder.mem_referrersOf_resolved h i v).mp hi
    obtain ⟨t, ht, -⟩ := (HeapGraphBuilder.mem_referrersOf_resolved h j v).mp hj
    exact idOf_inj_of_lookup (HeapGraphBuilder.lookup_resolved_iff h) (lt_of_mem_referencesOf hr)
      (lt_of_mem_referencesOf ht)

/-- Registering a root changes no id and no reference. -/
theorem registerRoot (h : g.WellFormed) (root : ObjectId × RootKind) :
    (HeapGraphBuilder.registerRoot g root).WellFormed := by
  constructor
  · intro id i
    rw [HeapGraphBuilder.lookup_registerRoot, h.lookup_iff, exists_node_iff, exists_node_iff,
      HeapGraphBuilder.size_registerRoot, HeapGraphBuilder.idOf_registerRoot]
  · intro i n hn r hr
    have there := mem_referencesOf.mpr ⟨n, hn, hr⟩
    rw [HeapGraphBuilder.referencesOf_registerRoot] at there
    obtain ⟨old, ho, hr⟩ := mem_referencesOf.mp there
    rw [funext (HeapGraphBuilder.lookup_registerRoot g root)]
    exact h.resolved i old ho r hr
  · intro j hj
    rw [HeapGraphBuilder.size_registerRoot]
    unfold HeapGraphBuilder.registerRoot at hj
    cases found : g.index[root.1]? with
    | none =>
      rw [found] at hj
      exact h.roots_lt j hj
    | some i =>
      obtain ⟨n, hn, -⟩ := (h.lookup_iff root.1 i).mp found
      have place : i < g.size := (Array.getElem?_eq_some_iff.mp hn).1
      rw [found] at hj
      dsimp only at hj
      split at hj
      · exact h.roots_lt j hj
      · cases List.mem_append.mp hj with
        | inl hj => exact h.roots_lt j hj
        | inr hj => exact List.mem_singleton.mp hj ▸ place
  · intro u v
    rw [HeapGraphBuilder.referrersOf_registerRoot, HeapGraphBuilder.referencesOf_registerRoot]
    exact h.mem_referrersOf u v
  · intro v
    simp only [HeapGraphBuilder.referrersOf_registerRoot, HeapGraphBuilder.idOf_registerRoot]
    exact h.referrersOf_ascending v

theorem registerRoots (h : g.WellFormed) (roots : List (ObjectId × RootKind)) :
    (roots.foldl HeapGraphBuilder.registerRoot g).WellFormed := by
  induction roots generalizing g with
  | nil => exact h
  | cons root rest ih => exact ih (h.registerRoot root)

/-- A graph that was built is well formed. -/
theorem of_build {expected : Nat} {records : List Record}
    (h : (build expected records).outcome.1 = .ok g) : g.WellFormed := by
  rw [(build_returns expected records).outcome_eq] at h
  cases hf : records.foldlM HeapGraphBuilder.take .new with
  | error error =>
    rw [hf] at h
    cases h
  | ok b =>
    rw [hf] at h
    rw [← Except.ok.inj h]
    exact (of_drafts (HeapGraphBuilder.indexed_of_records hf)).registerRoots _

variable {i j : Nat}

theorem lookup_lt (wf : g.WellFormed) {id : ObjectId} (h : g.lookup id = some i) : i < g.size := by
  obtain ⟨n, hn, -⟩ := (wf.lookup_iff id i).mp h
  exact (Array.getElem?_eq_some_iff.mp hn).1

theorem lookup_idOf (wf : g.WellFormed) (hi : i < g.size) : g.lookup (g.idOf i) = some i := by
  obtain ⟨n, hn, hid⟩ := exists_node hi
  exact (wf.lookup_iff _ i).mpr ⟨n, hn, hid.symm⟩

theorem idOf_of_lookup (wf : g.WellFormed) {id : ObjectId} (h : g.lookup id = some i) : g.idOf i = id := by
  obtain ⟨n, hn, hid⟩ := (wf.lookup_iff id i).mp h
  rw [idOf, hn]
  exact hid

theorem idOf_inj (wf : g.WellFormed) (hi : i < g.size) (hj : j < g.size) (h : g.idOf i = g.idOf j) : i = j :=
  idOf_inj_of_lookup wf.lookup_iff hi hj h

theorem resolved_eq (wf : g.WellFormed) {r : Reference} (hr : r ∈ g.referencesOf i) :
    r.resolved = r.target.bind g.lookup := by
  obtain ⟨n, hn, hr⟩ := mem_referencesOf.mp hr
  exact wf.resolved i n hn r hr

theorem lt_of_mem_referrersOf (wf : g.WellFormed) (hi : i ∈ g.referrersOf j) : i < g.size := by
  obtain ⟨r, hr, -⟩ := (wf.mem_referrersOf i j).mp hi
  exact lt_of_mem_referencesOf hr

theorem resolved_lt (wf : g.WellFormed) {r : Reference} (hr : r ∈ g.referencesOf i)
    (ht : r.resolved = some j) : j < g.size := by
  rw [wf.resolved_eq hr] at ht
  obtain ⟨id, -, found⟩ := Option.bind_eq_some_iff.mp ht
  exact wf.lookup_lt found

end WellFormed

/-- Different objects are sorted strictly. -/
theorem WellFormed.sortById_strict {g : HeapGraph} (wf : g.WellFormed) {places : List Nat}
    (inside : ∀ i ∈ places, i < g.size) (nodup : places.Nodup) :
    (g.sortById places).Pairwise fun i j => g.idOf i < g.idOf j := by
  apply ascending_of_sorted (g.sorted_sortById places) ((g.perm_sortById places).nodup_iff.mpr nodup)
  intro i hi j hj
  exact wf.idOf_inj (inside i (mem_sortById.mp hi)) (inside j (mem_sortById.mp hj))

end HeapGraph

end Retention
