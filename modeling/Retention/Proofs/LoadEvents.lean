import Retention.Proofs.AcceptedRecords
import Retention.Proofs.LoadedSnapshots

namespace Retention

namespace Sweep

/-- Sweeps that settle tell of every vertex but the entry once in each of them. -/
theorem settle_runs (preds : Array (List Nat)) (bound : Nat) (failure : Nat → List Nat → LoadError) (passes : Nat)
    (e : Estimates) : ∃ result events, (settle preds bound failure passes e).Runs result events ∧
      ∀ final n, result = .ok (final, n) → passes < n ∧ events = ticks ((n - passes) * (preds.size - 1)) := by
  -- Induction on the sweeps that the bound still allows for.
  induction left : bound - passes using Nat.strongRecOn generalizing passes e with
  | ind left ih =>
    by_cases changed : (swept preds e).changed = []
    · refine ⟨_, _, settle_still changed, ?_⟩
      intro final n settled
      obtain ⟨-, rfl⟩ := Prod.mk.inj (Except.ok.inj settled)
      simp
    · by_cases spent : bound ≤ passes + 1
      · refine ⟨_, _, settle_spent changed spent, ?_⟩
        intro final n settled
        cases settled
      · obtain ⟨result, events, run, shape⟩ := ih (bound - (passes + 1)) (by omega) (passes + 1)
          (swept preds e).estimates rfl
        refine ⟨result, _, settle_more_runs changed (Nat.lt_of_not_le spent) run, ?_⟩
        intro final n settled
        obtain ⟨more, rfl⟩ := shape final n settled
        have one : n - passes = 1 + (n - (passes + 1)) := by omega
        rw [one, Nat.add_mul, Nat.one_mul, ticks_add]
        exact ⟨by omega, rfl⟩

end Sweep

theorem HeapGraphBuilder.size_registerRoots (g : HeapGraph) (roots : List (ObjectId × RootKind)) :
    (roots.foldl registerRoot g).size = g.size := by
  induction roots generalizing g with
  | nil => rfl
  | cons root roots ih => rw [List.foldl_cons, ih, size_registerRoot]

namespace HeapGraph

variable {g : HeapGraph} {t : DominatorTree} {expected : Nat} {records : List Record}

/-- The search polls at each object that it discovers, and the sweeps make up a stage of their own. -/
theorem Analysed.dominators_runs {e : Estimates} {n k : Nat}
    (a : g.Analysed (g.strongGraph.reversePostorder g.superRoot) e)
    (settled : (Sweep.settle (predecessors g.strongGraph (g.strongGraph.reversePostorder g.superRoot))
      ((g.strongGraph.reversePostorder g.superRoot).length + 3)
      (g.unsettledError (g.strongGraph.reversePostorder g.superRoot).toArray) 0
      (.initial (g.strongGraph.reversePostorder g.superRoot).length)).Runs (.ok (e, n)) (ticks k)) :
    (g.dominators none).Runs (.ok (g.treeOf (g.strongGraph.reversePostorder g.superRoot).toArray e n))
      (List.replicate (g.treeOf (g.strongGraph.reversePostorder g.superRoot).toArray e n).reachable .poll ++
        phase "Computing dominators" g.size k) := by
  have discovered : (g.strongGraph.reversePostorder g.superRoot).tail.length =
      (g.treeOf (g.strongGraph.reversePostorder g.superRoot).toArray e n).reachable := by
    have numbered : (g.treeOf (g.strongGraph.reversePostorder g.superRoot).toArray e n).reachable + 1 = _ :=
      a.reachable_treeOf
    rw [List.length_tail]
    omega
  rw [← discovered]
  refine (Load.runs_forM_poll _).bind (.notify_bind (settled.bind ?_))
  simp only [a.filter_undefined, List.isEmpty_nil, if_true]
  exact .notify_bind (Load.runs_pure _)

/-- What is told while the dominator tree of a heap is found. -/
theorem WellFormed.dominators_runs (wf : g.WellFormed) (found : (g.dominators none).outcome.1 = .ok t) :
    0 < t.passes ∧ (g.dominators none).Runs (.ok t)
      (List.replicate t.reachable .poll ++ phase "Computing dominators" g.size (t.reachable * t.passes)) := by
  have ord := Digraph.isReversePostorder_reversePostorder wf.closed g.superRoot
  obtain ⟨e, n, pos, few, exact, settled⟩ := ord.exists_settled wf.closed
  have a : g.Analysed _ e := ⟨wf, ord, exact⟩
  obtain ⟨result, events, run, shape⟩ := Sweep.settle_runs (predecessors g.strongGraph _)
    ((g.strongGraph.reversePostorder g.superRoot).length + 3)
    (g.unsettledError (g.strongGraph.reversePostorder g.superRoot).toArray) 0
    (.initial (g.strongGraph.reversePostorder g.superRoot).length)
  obtain rfl : result = .ok (e, n) := run.returns.unique (settled _ _ (by omega))
  obtain ⟨-, rfl⟩ := shape e n rfl
  have whole := a.dominators_runs run
  obtain rfl := Except.ok.inj (whole.returns.outcome_eq.symm.trans found)
  have count : (n - 0) * ((predecessors g.strongGraph (g.strongGraph.reversePostorder g.superRoot)).size - 1) =
      (g.treeOf (g.strongGraph.reversePostorder g.superRoot).toArray e n).reachable * n := by
    have numbered : (g.treeOf (g.strongGraph.reversePostorder g.superRoot).toArray e n).reachable + 1 = _ :=
      a.reachable_treeOf
    rw [size_predecessors, ← numbered, Nat.add_sub_cancel, Nat.sub_zero, Nat.mul_comm]
  rw [count] at whole
  exact ⟨pos, whole⟩

/-- Building a graph is a stage over the records and a stage over the objects. -/
theorem build_runs (built : (build expected records).outcome.1 = .ok g) :
    (build expected records).Runs (.ok g)
      (phase "Reading records" expected records.length ++ phase "Resolving references" g.size g.size) := by
  rw [(build_returns expected records).outcome_eq] at built
  cases taken : records.foldlM HeapGraphBuilder.take .new with
  | error error =>
    rw [taken] at built
    cases built
  | ok b =>
    rw [taken] at built
    obtain rfl := Except.ok.inj built
    have objects : (b.drafts.roots.toList.foldl HeapGraphBuilder.registerRoot
        (HeapGraphBuilder.resolved b.drafts)).size = b.drafts.objects.size := by
      rw [HeapGraphBuilder.size_registerRoots, size, HeapGraphBuilder.nodes_resolved, Array.size_map]
    rw [objects, phase, List.cons_append, List.append_assoc]
    exact .notify_bind ((Load.runs_each taken).bind (.notify_bind b.finish_runs))

/-- A stream that is refused is read up to the record that is. -/
theorem build_runs_refused {error : LoadError} (refused : (build expected records).outcome.1 = .error error) :
    ∃ m, error = .malformed m ∧ m.position < records.length ∧ (build expected records).Runs (.error error)
      (.notify (.start "Reading records" expected) :: (ticks m.position ++ [.poll])) := by
  rw [(build_returns expected records).outcome_eq] at refused
  cases taken : records.foldlM HeapGraphBuilder.take .new with
  | ok b =>
    rw [taken] at refused
    cases refused
  | error other =>
    rw [taken] at refused
    obtain rfl := Except.error.inj refused
    obtain ⟨front, record, rest, b, m, rfl, before, failed, rfl, position⟩ := HeapGraphBuilder.exists_refused taken
    have run := (Load.runs_each_error before failed rest).bind_error
      fun b => Load.done >>= fun _ => b.finish
    refine ⟨m, rfl, by simp [position], ?_⟩
    rw [position]
    exact .notify_bind run

end HeapGraph

namespace Snapshot

variable {g : HeapGraph} {t : DominatorTree} {s : Snapshot} {expected : Nat} {records : List Record}

/-- What is done in a load of a heap: two stages that build its graph, a search that polls at each object
it discovers, a stage of sweeps, and in the end something else. -/
def loadEvents (expected length size reachable passes : Nat) (tail : List Event) : List Event :=
  phase "Reading records" expected length ++ (phase "Resolving references" size size ++
    (List.replicate reachable .poll ++ (phase "Computing dominators" size (reachable * passes) ++ tail)))

theorem load_runs_of_sizes (built : (HeapGraph.build expected records).outcome.1 = .ok g)
    (found : (g.dominators none).outcome.1 = .ok t) {result : Except LoadError RetainedSizes} {tail : List Event}
    (sized : (RetainedSizes.compute g t).Runs result tail) :
    (loadExpecting expected records).Runs (result.map fun retained => ⟨g, t, retained, g.trails⟩)
      (loadEvents expected records.length g.size t.reachable t.passes tail) := by
  obtain ⟨-, dominators⟩ := (HeapGraph.WellFormed.of_build built).dominators_runs found
  have kept : (RetainedSizes.compute g t >>= fun retained => pure (⟨g, t, retained, g.trails⟩ : Snapshot)).Runs
      (result.map fun retained => ⟨g, t, retained, g.trails⟩) tail := by
    cases result with
    | error error => exact sized.bind_error _
    | ok retained =>
      rw [← List.append_nil tail]
      exact sized.bind (Load.runs_pure _)
  have whole : (loadExpecting expected records).Runs _ _ := (HeapGraph.build_runs built).bind (dominators.bind kept)
  simpa only [loadEvents, List.append_assoc] using whole

/-- The tree of a snapshot is the one that was found for its heap. -/
theorem dominators_of_load (h : (loadExpecting expected records).outcome.1 = .ok s) :
    (s.graph.dominators none).outcome.1 = .ok s.tree := by
  obtain ⟨built, -⟩ := analysis_of_load h
  obtain ⟨t, found, -⟩ := (HeapGraph.WellFormed.of_build built).exists_tree
  obtain ⟨tail, run, -⟩ := RetainedSizes.compute_runsUnpolled s.graph t
  rw [(load_runs_of_sizes built found run).returns.outcome_eq] at h
  cases sized : RetainedSizes.computed s.graph t with
  | error error =>
    rw [sized] at h
    cases h
  | ok retained =>
    rw [sized] at h
    have tree : t = s.tree := congrArg Snapshot.tree (Except.ok.inj h)
    rw [found, tree]

/-- A load of a heap polls for the last time in its sweeps. -/
theorem load_runs (built : (HeapGraph.build expected records).outcome.1 = .ok g)
    (found : (g.dominators none).outcome.1 = .ok t) : ∃ tail, (∀ event ∈ tail, event ≠ .poll) ∧
      (loadExpecting expected records).Runs (loadExpecting expected records).outcome.1
        (loadEvents expected records.length g.size t.reachable t.passes tail) := by
  obtain ⟨tail, sized, unpolled⟩ := RetainedSizes.compute_runsUnpolled g t
  exact ⟨tail, unpolled, (load_runs_of_sizes built found sized).of_outcome⟩

/-- The load of a refused stream goes through the records up to the refused one. -/
theorem load_runs_refused {m : MalformedRecord}
    (refused : (HeapGraph.build expected records).outcome.1 = .error (.malformed m)) :
    m.position < records.length ∧ (loadExpecting expected records).Runs (loadExpecting expected records).outcome.1
      (.notify (.start "Reading records" expected) :: (ticks m.position ++ [.poll])) := by
  obtain ⟨other, same, inside, run⟩ := HeapGraph.build_runs_refused refused
  obtain rfl := LoadError.malformed.inj same
  exact ⟨inside, (run.bind_error ofGraph).of_outcome⟩

end Snapshot

end Retention
