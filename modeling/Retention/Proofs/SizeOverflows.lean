import Retention.Proofs.Cancelling

namespace Retention

namespace Snapshot

variable {plan : CancelPlan} {expected : Nat} {records : List Record}

/-- A load that is not cancelled overflows exactly if the objects that are reached do not fit
together. Else every sum fits, every object that is reached retains itself and what is lost without
it, and the total is the size of all that is reached. -/
theorem load_overflow_iff (acceptable : Acceptable records)
    (uncancelled : (plan.run (loadExpecting expected records)).1 ≠ .error .cancelled) :
    ∃ g, (HeapGraph.build expected records).outcome.1 = .ok g ∧
      ((plan.run (loadExpecting expected records)).1 = .error .overflow ↔
        2 ^ 64 ≤ g.bytesOf g.StronglyReachable) ∧
      (g.bytesOf g.StronglyReachable < 2 ^ 64 →
        ∃ s, (plan.run (loadExpecting expected records)).1 = .ok s ∧ s.graph = g ∧
          (RetainedSizes.compute g s.tree).outcome.1 = .ok s.retained ∧
          (∀ i, g.StronglyReachable i →
            RetainedSizes.ofChildren g s.tree s.retained.sizes i = some (s.retained.sizeOf i) ∧
            (s.retained.sizeOf i).toNat = g.bytesOf fun j =>
              g.StronglyReachable j ∧ (j = i ∨ ¬ (g.delete i).StronglyReachable j)) ∧
          (∀ i, ¬ g.StronglyReachable i → s.retained.sizeOf i = 0) ∧
          Size.sum? (s.tree.rooted.map s.retained.sizeOf) = some s.totalRetained ∧
          s.totalRetained.toNat = g.bytesOf g.StronglyReachable) := by
  obtain ⟨events, run, -⟩ := exists_runs_polling expected records
  rw [CancelPlan.run_of_ne_cancelled run uncancelled, CancelPlan.run_never]
  cases HeapGraph.build_cases expected records with
  | inr refused => exact absurd acceptable refused.2
  | inl done =>
    obtain ⟨g, -, built, -⟩ := done
    refine ⟨g, built, ?_, ?_⟩
    · rcases load_cases built with ⟨⟨s, loaded⟩, fits⟩ | ⟨overflow, large⟩
      · rw [loaded]
        refine ⟨fun h => ?_, fun large => absurd fits (Nat.not_lt.mpr large)⟩
        cases h
      · rw [overflow]
        exact ⟨fun _ => Nat.le_of_not_lt large, fun _ => rfl⟩
    · intro fits
      obtain ⟨s, loaded⟩ := exists_load built fits
      obtain ⟨same, -, sized, -⟩ := analysis_of_load loaded
      obtain ⟨-, l⟩ := loaded_of_load loaded
      obtain rfl : s.graph = g := Except.ok.inj (same.symm.trans built)
      refine ⟨s, loaded, rfl, ?_, ?_, l.sizes.sizeOf_unreached, Size.sum?_eq_some_iff.mpr l.sum_rooted.symm,
        l.sizes.total_eq⟩
      · rw [(RetainedSizes.compute_runsUnpolled _ _).returns.outcome_eq, sized]
      · intro i reached
        refine ⟨l.ofChildren_eq_some reached, ?_⟩
        rw [l.sizes.sizeOf_reached i reached]
        exact HeapGraph.bytesOf_congr fun j => HeapGraph.keeps_iff_delete

/-- An object that leaves room for a single byte, an object of the given size that it holds, and an
object of the largest size that nothing refers to. -/
def nearlyFull (size : UInt64) : List Record :=
  [.root ⟨1⟩ .thread,
    .object .instanceObject ⟨⟨1⟩, none, 18446744073709551614, [⟨.field "held", some ⟨2⟩, true⟩]⟩,
    .object .primitiveArray ⟨⟨2⟩, none, size, []⟩,
    .object .instanceObject ⟨⟨3⟩, none, 18446744073709551615, [⟨.field "full", some ⟨1⟩, true⟩]⟩]

theorem bytesOf_nearlyFull {size : UInt64} {g : HeapGraph}
    (built : (HeapGraph.build 4 (nearlyFull size)).outcome.1 = .ok g) :
    g.bytesOf g.StronglyReachable = 18446744073709551614 + size.toNat := by
  have known : (HeapGraph.build 4 (nearlyFull size)).outcome.1.map (fun g =>
      (g.roots, g.size, g.shallowSizeOf 0, g.shallowSizeOf 1, (g.node? 0).elim [] Node.successors,
        (g.node? 1).elim [] Node.successors)) =
      .ok ([0], 3, 18446744073709551614, size, [1], []) := rfl
  rw [built] at known
  obtain ⟨roots, count, first, second, held, holds⟩ : g.roots = [0] ∧ g.size = 3 ∧
      g.shallowSizeOf 0 = 18446744073709551614 ∧ g.shallowSizeOf 1 = size ∧
      (g.node? 0).elim [] Node.successors = [1] ∧ (g.node? 1).elim [] Node.successors = [] := by
    simpa using Except.ok.inj known
  have reached : ∀ i, g.StronglyReachable i ↔ i = 0 ∨ i = 1 := by
    have root : g.RootPath 0 [0] := .root (roots ▸ List.mem_singleton_self 0)
    intro i
    constructor
    · intro reached
      obtain ⟨path, hp⟩ := reached
      induction hp with
      | root hr => exact .inl (List.mem_singleton.mp (roots ▸ hr))
      | step _ hold ih =>
        rw [HeapGraph.holds_iff] at hold
        rcases ih with rfl | rfl
        · exact .inr (List.mem_singleton.mp (held ▸ hold))
        · exact absurd (holds ▸ hold) List.not_mem_nil
    · intro either
      rcases either with rfl | rfl
      · exact ⟨_, root⟩
      · exact ⟨_, .step root (HeapGraph.holds_iff.mpr (held ▸ List.mem_singleton_self 1))⟩
  rw [HeapGraph.bytesOf_congr reached, HeapGraph.bytesOf_or (by omega), HeapGraph.bytesOf_single (by omega),
    HeapGraph.bytesOf_single (by omega), first, second]
  rfl

theorem load_overflow_iff_nearlyFull :
    (∃ s, (CancelPlan.never.run (loadExpecting 4 (nearlyFull 1))).1 = .ok s ∧
      s.totalRetained.toNat = 2 ^ 64 - 1) ∧
    (CancelPlan.never.run (loadExpecting 4 (nearlyFull 2))).1 = .error .overflow := by
  have acceptable : ∀ size, Acceptable (nearlyFull size) := by
    intro size
    obtain ⟨g, built⟩ : ∃ g, (HeapGraph.build 4 (nearlyFull size)).outcome.1 = .ok g := ⟨_, rfl⟩
    obtain ⟨d, image⟩ := HeapGraph.imageOf_of_build built
    exact image.acceptable
  have uncancelled : ∀ size, (CancelPlan.never.run (loadExpecting 4 (nearlyFull size))).1 ≠ .error .cancelled := by
    intro size
    rw [CancelPlan.run_never]
    exact load_ne_cancelled 4 _
  obtain ⟨g, built, -, fitting⟩ := load_overflow_iff (acceptable 1) (uncancelled 1)
  obtain ⟨g', built', overflows, -⟩ := load_overflow_iff (acceptable 2) (uncancelled 2)
  rw [bytesOf_nearlyFull built] at fitting
  rw [bytesOf_nearlyFull built'] at overflows
  obtain ⟨s, loaded, -, -, -, -, -, total⟩ := fitting (by decide)
  exact ⟨⟨s, loaded, total⟩, overflows.mpr (by decide)⟩

end Snapshot

end Retention
