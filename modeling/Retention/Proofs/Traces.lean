import Retention.Proofs.RootPaths
import Retention.Snapshot.Check

namespace Retention.HeapGraph

/-- A path of strong references from a root to the object at `i` meets no object of the removed id. -/
def TracedTo (g : HeapGraph) (removed : Option ObjectId) (i : Nat) : Prop :=
  ∃ path, g.RootPath i path ∧ ∀ j ∈ path, removed ≠ some (g.idOf j)

/-- The trace has come to the object at `j`, is going to, or must not. -/
def Covered (g : HeapGraph) (removed : Option ObjectId) (stack : List ObjectId)
    (marked : Std.TreeSet ObjectId) (j : Nat) : Prop :=
  removed = some (g.idOf j) ∨ g.idOf j ∈ marked ∨ g.idOf j ∈ stack

/-- What holds while a trace is under way. -/
structure Marking (g : HeapGraph) (removed : Option ObjectId) (pool : Pool (List ObjectId))
    (stack : List ObjectId) (marked : Std.TreeSet ObjectId) : Prop where
  /-- The pool holds the objects that are not marked. -/
  fresh : ∀ i, pool.get? i = if i < g.size ∧ g.idOf i ∉ marked then some (g.strongTargets i) else none
  marked_traced : ∀ id ∈ marked, ∃ i, g.lookup id = some i ∧ g.TracedTo removed i
  stack_traced : ∀ id ∈ stack, ∀ i, g.lookup id = some i → removed ≠ some id → g.TracedTo removed i
  roots_covered : ∀ i ∈ g.roots, g.Covered removed stack marked i
  targets_covered : ∀ i j, i < g.size → g.idOf i ∈ marked → g.Holds i j → g.Covered removed stack marked j

variable {g : HeapGraph} {removed : Option ObjectId} {pool : Pool (List ObjectId)}
  {rest stack targets : List ObjectId} {marked : Std.TreeSet ObjectId} {id : ObjectId} {i j : Nat}

theorem mem_strongTargets :
    id ∈ g.strongTargets i ↔ ∃ r ∈ g.referencesOf i, r.strong = true ∧ r.target = some id := by
  unfold strongTargets
  rw [List.mem_filterMap]
  constructor
  · rintro ⟨r, hr, ht⟩
    by_cases hs : r.strong = true
    · rw [if_pos hs] at ht
      exact ⟨r, hr, hs, ht⟩
    · rw [if_neg hs] at ht
      cases ht
  · rintro ⟨r, hr, hs, ht⟩
    exact ⟨r, hr, by rw [if_pos hs, ht]⟩

/-- References by place and references by id are the same. -/
theorem WellFormed.holds_iff_target (wf : g.WellFormed) :
    g.Holds i j ↔ ∃ id ∈ g.strongTargets i, g.lookup id = some j := by
  constructor
  · rintro ⟨r, hr, hs, hj⟩
    rw [wf.resolved_eq hr] at hj
    obtain ⟨id, ht, found⟩ := Option.bind_eq_some_iff.mp hj
    exact ⟨id, mem_strongTargets.mpr ⟨r, hr, hs, ht⟩, found⟩
  · rintro ⟨id, hid, found⟩
    obtain ⟨r, hr, hs, ht⟩ := mem_strongTargets.mp hid
    exact ⟨r, hr, hs, by rw [wf.resolved_eq hr, ht]; exact found⟩

theorem mem_insert_iff {other : ObjectId} : other ∈ marked.insert id ↔ id = other ∨ other ∈ marked := by
  rw [Std.TreeSet.mem_insert, ObjectId.compare_eq_iff]

theorem TracedTo.step (h : g.TracedTo removed i) (hold : g.Holds i j) (hj : removed ≠ some (g.idOf j)) :
    g.TracedTo removed j := by
  obtain ⟨path, hp, kept⟩ := h
  refine ⟨path ++ [j], .step hp hold, ?_⟩
  intro k hk
  cases List.mem_append.mp hk with
  | inl hk => exact kept k hk
  | inr hk => exact List.mem_singleton.mp hk ▸ hj

theorem Covered.skip (h : g.Covered removed (id :: rest) marked j) (wf : g.WellFormed) (hj : j < g.size)
    (settled : ∀ j, g.lookup id = some j → removed = some id ∨ id ∈ marked) :
    g.Covered removed rest marked j := by
  by_cases same : g.idOf j = id
  · cases settled j (same ▸ wf.lookup_idOf hj) with
    | inl gone => exact .inl (same ▸ gone)
    | inr hm => exact .inr (.inl (same ▸ hm))
  · exact h.imp_right fun known => known.imp_right fun hs => (List.mem_cons.mp hs).resolve_left same

theorem Covered.visit (h : g.Covered removed (id :: rest) marked j) (targets : List ObjectId) :
    g.Covered removed (targets ++ rest) (marked.insert id) j := by
  by_cases same : g.idOf j = id
  · exact .inr (.inl (mem_insert_iff.mpr (.inl same.symm)))
  · refine h.imp_right fun known => known.imp (fun hm => mem_insert_iff.mpr (.inr hm)) fun hs => ?_
    exact List.mem_append_right _ ((List.mem_cons.mp hs).resolve_left same)

namespace Marking

/-- An id that is removed, unknown or marked already is passed over. -/
theorem skip (h : g.Marking removed pool (id :: rest) marked) (wf : g.WellFormed)
    (settled : ∀ j, g.lookup id = some j → removed = some id ∨ id ∈ marked) :
    g.Marking removed pool rest marked := by
  refine ⟨h.fresh, h.marked_traced, fun o ho => h.stack_traced o (List.mem_cons_of_mem _ ho), ?_, ?_⟩
  · intro i hi
    exact (h.roots_covered i hi).skip wf (wf.roots_lt i hi) settled
  · intro i j hi hm hold
    exact (h.targets_covered i j hi hm hold).skip wf (wf.target_lt hold) settled

theorem targets_eq (h : g.Marking removed pool stack marked) (taken : pool.get? i = some targets) :
    targets = g.strongTargets i := by
  have hf := h.fresh i
  rw [taken] at hf
  by_cases hm : i < g.size ∧ g.idOf i ∉ marked
  · rw [if_pos hm] at hf
    exact Option.some.inj hf
  · rw [if_neg hm] at hf
    cases hf

theorem fresh_visit (h : g.Marking removed pool stack marked) (wf : g.WellFormed)
    (found : g.lookup id = some i) (k : Nat) : (pool.erase i).get? k =
      if k < g.size ∧ g.idOf k ∉ marked.insert id then some (g.strongTargets k) else none := by
  have hid := wf.idOf_of_lookup found
  by_cases hk : i = k
  · subst hk
    rw [Pool.get?_erase_self, if_neg fun hc => hc.2 (mem_insert_iff.mpr (.inl hid.symm))]
  · rw [Pool.get?_erase_of_ne pool hk, h.fresh k]
    refine if_congr (and_congr_right fun hs => ?_) rfl rfl
    have hne : id ≠ g.idOf k := fun same => hk (wf.idOf_inj (wf.lookup_lt found) hs (hid.trans same))
    rw [mem_insert_iff, not_or]
    exact ⟨fun hm => ⟨hne, hm⟩, fun hm => hm.2⟩

/-- An unmarked object is marked, and its targets go on the stack. -/
theorem visit (h : g.Marking removed pool (id :: rest) marked) (wf : g.WellFormed)
    (present : removed ≠ some id) (found : g.lookup id = some i) (taken : pool.get? i = some targets) :
    g.Marking removed (pool.erase i) (targets ++ rest) (marked.insert id) := by
  obtain rfl := h.targets_eq taken
  have traced := h.stack_traced id List.mem_cons_self i found present
  refine ⟨h.fresh_visit wf found, ?_, ?_, fun r hr => (h.roots_covered r hr).visit _, ?_⟩
  · intro o ho
    cases mem_insert_iff.mp ho with
    | inl same => exact ⟨i, same ▸ found, traced⟩
    | inr hm => exact h.marked_traced o hm
  · intro o ho j hj there
    cases List.mem_append.mp ho with
    | inl ht =>
      refine traced.step (wf.holds_iff_target.mpr ⟨o, ht, hj⟩) ?_
      rwa [wf.idOf_of_lookup hj]
    | inr hr => exact h.stack_traced o (List.mem_cons_of_mem _ hr) j hj there
  · intro k j hk hm hold
    cases mem_insert_iff.mp hm with
    | inl same =>
      have hik : i = k := Option.some.inj (found.symm.trans (same ▸ wf.lookup_idOf hk))
      obtain ⟨o, ho, hj⟩ := wf.holds_iff_target.mp (hik ▸ hold)
      refine .inr (.inr (List.mem_append_left _ ?_))
      rwa [wf.idOf_of_lookup hj]
    | inr hm => exact (h.targets_covered k j hk hm hold).visit _

/-- With an empty stack everything that can be traced to is marked. -/
theorem finish (h : g.Marking removed pool [] marked) (wf : g.WellFormed) :
    id ∈ marked ↔ ∃ i, g.lookup id = some i ∧ g.TracedTo removed i := by
  -- Along a path every object is covered, and nothing is left to be covered by but the marks.
  have complete : ∀ i path, g.RootPath i path → (∀ j ∈ path, removed ≠ some (g.idOf j)) →
      g.idOf i ∈ marked := by
    intro i path hp
    induction hp with
    | root hr =>
      intro kept
      have hc := (h.roots_covered _ hr).resolve_left (kept _ (List.mem_singleton_self _))
      exact hc.resolve_right List.not_mem_nil
    | @step u v path before hold ih =>
      intro kept
      have hu := ih fun j hj => kept j (List.mem_append_left _ hj)
      have hc := (h.targets_covered u v (holds_lt hold) hu hold).resolve_left
        (kept v (List.mem_append_right _ (List.mem_singleton_self v)))
      exact hc.resolve_right List.not_mem_nil
  constructor
  · exact h.marked_traced id
  · rintro ⟨i, found, path, hp, kept⟩
    exact wf.idOf_of_lookup found ▸ complete i path hp kept

theorem mem_mark (h : g.Marking removed pool stack marked) (wf : g.WellFormed) :
    id ∈ g.mark removed pool stack marked ↔ ∃ i, g.lookup id = some i ∧ g.TracedTo removed i := by
  fun_induction g.mark removed pool stack marked with
  | case1 pool marked => exact h.finish wf
  | case2 pool marked o rest gone ih => exact ih (h.skip wf fun _ _ => .inl gone)
  | case3 pool marked o rest present unknown ih =>
    refine ih (h.skip wf fun j found => ?_)
    rw [unknown] at found
    cases found
  | case4 pool marked o rest present i found taken ih =>
    refine ih (h.skip wf fun j _ => .inr ?_)
    have hf := h.fresh i
    rw [taken] at hf
    by_contra hm
    rw [if_pos ⟨wf.lookup_lt found, wf.idOf_of_lookup found ▸ hm⟩] at hf
    cases hf
  | case5 pool marked o rest present i found targets taken ih => exact ih (h.visit wf present found taken)

end Marking

theorem marking_start (wf : g.WellFormed) (removed : Option ObjectId) :
    g.Marking removed (Pool.ofArray ((Array.range g.size).map g.strongTargets)) (g.roots.map g.idOf) ∅ := by
  refine ⟨?_, fun o ho => absurd ho Std.TreeSet.not_mem_emptyc, ?_, ?_,
    fun i j _ hm => absurd hm Std.TreeSet.not_mem_emptyc⟩
  · intro i
    by_cases hi : i < g.size
    · rw [if_pos ⟨hi, Std.TreeSet.not_mem_emptyc⟩]
      simp [Pool.get?, Pool.ofArray, hi]
    · rw [if_neg fun hc => hi hc.1]
      simp [Pool.get?, Pool.ofArray, hi]
  · intro o ho i found present
    obtain ⟨r, hr, rfl⟩ := List.mem_map.mp ho
    obtain rfl : r = i := Option.some.inj ((wf.lookup_idOf (wf.roots_lt r hr)).symm.trans found)
    exact ⟨[r], .root hr, fun j hj => List.mem_singleton.mp hj ▸ present⟩
  · intro i hi
    exact .inr (.inr (List.mem_map_of_mem hi))

theorem WellFormed.mem_traced (wf : g.WellFormed) :
    id ∈ g.traced removed ↔ ∃ i, g.lookup id = some i ∧ g.TracedTo removed i :=
  (marking_start wf removed).mem_mark wf

theorem tracedTo_none : g.TracedTo none i ↔ g.StronglyReachable i := by
  constructor
  · rintro ⟨path, hp, -⟩
    exact ⟨path, hp⟩
  · rintro ⟨path, hp⟩
    exact ⟨path, hp, fun _ _ same => by cases same⟩

theorem WellFormed.tracedTo_some (wf : g.WellFormed) (found : g.lookup id = some i) :
    g.TracedTo (some id) j ↔ ¬ g.OnEveryPath i j := by
  have meets : ∀ path, g.RootPath j path → ((∀ k ∈ path, some id ≠ some (g.idOf k)) ↔ i ∉ path) := by
    intro path hp
    constructor
    · intro kept hi
      exact kept i hi (congrArg some (wf.idOf_of_lookup found).symm)
    · intro missed k hk same
      have hki : k = i := by
        have there := wf.lookup_idOf (wf.rootPath_lt hp k hk)
        rw [← Option.some.inj same, found] at there
        exact (Option.some.inj there).symm
      exact missed (hki ▸ hk)
  unfold TracedTo OnEveryPath
  rw [not_forall]
  constructor
  · rintro ⟨path, hp, kept⟩
    exact ⟨path, fun every => (meets path hp).mp kept (every hp)⟩
  · rintro ⟨path, escapes⟩
    obtain ⟨hp, missed⟩ := Classical.not_imp.mp escapes
    exact ⟨path, hp, (meets path hp).mpr missed⟩

end Retention.HeapGraph
