import Retention.Proofs.Cancelling

namespace Retention

/-- What is told of one stage: its start, so many single units, its end. -/
def bracket (description : String) (announced k : Nat) : List Notification :=
  .start description announced :: (List.replicate k (.advance 1) ++ [.done])

@[simp] theorem told_units (k : Nat) :
    told (List.replicate k (.notify (.advance 1))) = List.replicate k (.advance 1) := by
  simp [told, Event.told?, List.filterMap_replicate_of_some]

@[simp] theorem told_ticks (k : Nat) : told (ticks k) = List.replicate k (.advance 1) := by
  induction k with
  | zero => rfl
  | succ k ih => simp [ticks, ih, List.replicate_succ]

@[simp] theorem told_phase (description : String) (announced k : Nat) :
    told (phase description announced k) = bracket description announced k := by
  simp [phase, bracket]

namespace Phase

theorem foldl_note_units (p : Phase) (seen : List Phase) (k : Nat) :
    (List.replicate k (.advance 1)).foldl note (p :: seen) = { p with advanced := p.advanced + k } :: seen := by
  induction k generalizing p with
  | zero => rfl
  | succ k ih =>
    rw [List.replicate_succ, List.foldl_cons, note, ih]
    simp only [Nat.add_assoc, Nat.add_comm 1 k]

/-- A bracket adds one phase, which is over. -/
theorem foldl_note_bracket (seen : List Phase) (description : String) (announced k : Nat) :
    (bracket description announced k).foldl note seen = ⟨description, announced, k, true⟩ :: seen := by
  rw [bracket, List.foldl_cons, List.foldl_append]
  simp [note, foldl_note_units]

end Phase

namespace CancelPlan

variable {α : Type} {plan : CancelPlan} {load : Load α} {result : Except LoadError α} {events : List Event}

/-- A load under a plan tells the beginning of what it tells when nobody cancels it. -/
theorem run_isPrefix (run : load.Runs result events) (plan : CancelPlan) :
    (plan.run load).2 <+: (never.run load).2 := by
  obtain ⟨front, rest, split, same, -⟩ := run_front run plan
  rw [run_never_eq run, same, split, told_append]
  exact List.prefix_append _ _

/-- A cancelled load has told enough for the token to be raised. -/
theorem raised_of_cancelled (run : load.Runs result events) (completes : result ≠ .error .cancelled)
    (cancelled : (plan.run load).1 = .error .cancelled) :
    ((plan.run load).2.foldl plan.note plan.begin).raised = true := by
  obtain ⟨front, rest, -, same, stopped, -⟩ := run_front run plan
  rw [same]
  exact stopped ((run_eq_cancelled_iff run completes).mp cancelled)

end CancelPlan

namespace HeapGraph

variable {g : HeapGraph} {t : DominatorTree} {records : List Record} {d : Drafts}

/-- The sums go through each object of the tree once. -/
theorem IsDominatorTree.length_bottomUp (tree : g.IsDominatorTree t) (wf : g.WellFormed) :
    t.bottomUp.length = t.reachable := by
  have once : t.bottomUp.Nodup :=
    List.nodup_reverse.mp (List.nodup_cons.mp (tree.isReversePostorder_graph wf).nodup).2
  have perm : t.bottomUp.Perm t.members := by
    apply (List.perm_ext_iff_of_nodup once t.nodup_members).mpr
    intro i
    rw [tree.mem_bottomUp wf, DominatorTree.mem_members]
    exact tree.isReachable_iff.symm
  rw [perm.length_eq, t.reachable_eq_length]

/-- There are as many objects as records that define one. -/
theorem ImageOf.size_eq (image : g.ImageOf records d) : g.size = (records.filterMap Record.defined?).length := by
  have none : ∀ i : Nat, g.nodes[i]? = none ↔ d.objects[i]? = none := by
    intro i
    have here : g.nodes[i]? = _ := image.registered.node i
    rw [here, Option.map_eq_none_iff]
  have ends : ∀ i, g.size ≤ i ↔ d.objects.size ≤ i := by
    intro i
    simpa [size, Array.getElem?_eq_none_iff] using none i
  have same : g.size = d.objects.size := Nat.le_antisymm ((ends _).mpr (Nat.le_refl _)) ((ends _).mp (Nat.le_refl _))
  rw [← image.acceptable.map_draft?, List.length_map, ← image.objects, Array.length_toList, same]

end HeapGraph

namespace RetainedSizes

variable {g : HeapGraph} {t : DominatorTree} {sizes last : Array UInt64} {order : List Nat} {r : RetainedSizes}

theorem enter_runs {i : Nat} (h : entered g t sizes i = .ok last) :
    (enter g t sizes i).Runs (.ok last) [.notify (.advance 1)] := by
  unfold enter
  unfold entered at h
  cases size : ofChildren g t sizes i with
  | none =>
    rw [size] at h
    cases h
  | some n =>
    rw [size] at h
    obtain rfl := Except.ok.inj h
    exact .notify_bind (Load.runs_pure _)

/-- Each sum that fits tells of one unit. -/
theorem foldlM_enter_runs (h : order.foldlM (entered g t) sizes = .ok last) :
    (order.foldlM (enter g t) sizes).Runs (.ok last) (List.replicate order.length (.notify (.advance 1))) := by
  induction order generalizing sizes with
  | nil =>
    obtain rfl := Except.ok.inj h
    exact Load.runs_pure sizes
  | cons i order ih =>
    rw [List.foldlM_cons] at h ⊢
    obtain ⟨next, first, later⟩ := Except.bind_eq_ok.mp h
    exact (enter_runs first).bind (ih later)

theorem compute_runs (h : computed g t = .ok r) : (compute g t).Runs (.ok r)
    (.notify (.start "Computing retained sizes" t.reachable) ::
      (List.replicate t.bottomUp.length (.notify (.advance 1)) ++ [.notify .done])) := by
  obtain ⟨sizes, summed, h⟩ := Except.bind_eq_ok.mp h
  cases whole : Size.sum? (t.rooted.map fun r => sizes.getD r 0) with
  | none =>
    rw [whole] at h
    cases h
  | some total =>
    rw [whole] at h
    obtain rfl := Except.ok.inj h
    refine .notify_bind ((foldlM_enter_runs summed).bind ?_)
    rw [whole]
    exact .notify_bind (Load.runs_pure _)

end RetainedSizes

namespace Snapshot

open CancelPlan

variable {s : Snapshot} {expected : Nat} {records : List Record}

/-- What a load tells that comes to its end. -/
theorem told_load (h : (loadExpecting expected records).outcome.1 = .ok s) :
    (never.run (loadExpecting expected records)).2 =
      bracket "Reading records" expected records.length ++
      bracket "Resolving references" s.nodeCount s.nodeCount ++
      bracket "Computing dominators" s.nodeCount (s.reachableCount * s.dominatorPasses) ++
      bracket "Computing retained sizes" s.reachableCount s.reachableCount := by
  obtain ⟨built, tree, sized, -⟩ := analysis_of_load h
  have wf := HeapGraph.WellFormed.of_build built
  have run := load_runs_of_sizes built (dominators_of_load h) (RetainedSizes.compute_runs sized)
  rw [run_never_eq run, tree.length_bottomUp wf]
  simp [loadEvents, nodeCount, reachableCount, dominatorPasses, bracket]

/-- A load that nobody cancels tells of four stages, each from its start to its end before the next one.
A refused stream is told of up to the refused record, and a cancelled load has told the beginning of what
it tells otherwise, enough for its token to be raised. -/
theorem notifications_of_load (records : List Record) :
    (∀ s, (never.run (load records)).1 = .ok s →
      s.nodeCount = (records.filterMap Record.defined?).length ∧
      s.reachableCount = {i | s.graph.StronglyReachable i}.ncard ∧
      (never.run (load records)).2 =
        bracket "Reading records" records.length records.length ++
        bracket "Resolving references" s.nodeCount s.nodeCount ++
        bracket "Computing dominators" s.nodeCount (s.reachableCount * s.dominatorPasses) ++
        bracket "Computing retained sizes" s.reachableCount s.reachableCount ∧
      Phase.ofNotifications (never.run (load records)).2 =
        [⟨"Reading records", records.length, records.length, true⟩,
         ⟨"Resolving references", s.nodeCount, s.nodeCount, true⟩,
         ⟨"Computing dominators", s.nodeCount, s.reachableCount * s.dominatorPasses, true⟩,
         ⟨"Computing retained sizes", s.reachableCount, s.reachableCount, true⟩]) ∧
    (∀ m, (never.run (load records)).1 = .error (.malformed m) →
      (never.run (load records)).2 =
        .start "Reading records" records.length :: List.replicate m.position (.advance 1)) ∧
    ∀ plan : CancelPlan, (plan.run (load records)).2 <+: (never.run (load records)).2 ∧
      ((plan.run (load records)).1 = .error .cancelled →
        ((plan.run (load records)).2.foldl plan.note plan.begin).raised = true) ∧
      ((plan.run (load records)).1 ≠ .error .cancelled → plan.run (load records) = never.run (load records)) := by
  obtain ⟨events, run, -⟩ := exists_runs_polling records.length records
  refine ⟨?_, ?_, fun plan => ⟨run_isPrefix run plan, ?_, run_of_ne_cancelled run⟩⟩
  · intro s loaded
    rw [run_never] at loaded
    have whole : (never.run (load records)).2 = _ := told_load loaded
    obtain ⟨built, l⟩ := loaded_of_load loaded
    obtain ⟨d, image⟩ := HeapGraph.imageOf_of_build built
    refine ⟨image.size_eq, l.tree.reachable_eq_ncard, whole, ?_⟩
    rw [whole, Phase.ofNotifications]
    simp only [List.foldl_append, Phase.foldl_note_bracket]
    rfl
  · intro m failed
    rw [run_never] at failed
    obtain ⟨-, refused⟩ := load_runs_refused (refused_of_load failed)
    rw [load, run_never_eq refused]
    simp
  · exact raised_of_cancelled run (load_ne_cancelled _ records)

theorem counts_twoEntryLoop (loaded : (loadExpecting 6 HeapGraph.twoEntryLoop).outcome.1 = .ok s) :
    s.nodeCount = 4 ∧ s.reachableCount = 3 ∧ s.dominatorPasses = 2 := by
  have known : ((HeapGraph.build 6 HeapGraph.twoEntryLoop).outcome.1 >>= fun g =>
      (g.dominators none).outcome.1.map fun t => (g.size, t.reachable, t.passes)) = .ok (4, 3, 2) := by
    decide +kernel
  obtain ⟨built, -⟩ := analysis_of_load loaded
  obtain ⟨g, also, counts⟩ := Except.bind_eq_ok.mp known
  obtain rfl := Except.ok.inj (also.symm.trans built)
  rw [dominators_of_load loaded] at counts
  simpa [nodeCount, reachableCount, dominatorPasses] using Except.ok.inj counts

/-- The sweeps over a loop go beyond what was announced; a stream that repeats the loop ends within its
first stage, and a token that is raised after seven units ends the load in its second stage. -/
theorem notifications_of_load_twoEntryLoop :
    (∃ s, (never.run (load HeapGraph.twoEntryLoop)).1 = .ok s ∧
      (never.run (load HeapGraph.twoEntryLoop)).2 = bracket "Reading records" 6 6 ++
        bracket "Resolving references" 4 4 ++ bracket "Computing dominators" 4 6 ++
        bracket "Computing retained sizes" 3 3) ∧
    (never.run (load (HeapGraph.twoEntryLoop ++ HeapGraph.twoEntryLoop))).1 =
      .error (.malformed ⟨8, ⟨3⟩, .duplicateId⟩) ∧
    (never.run (load (HeapGraph.twoEntryLoop ++ HeapGraph.twoEntryLoop))).2 =
      .start "Reading records" 12 :: List.replicate 8 (.advance 1) ∧
    ((atUnits 7).run (load HeapGraph.twoEntryLoop)).1 = .error .cancelled ∧
    ((atUnits 7).run (load HeapGraph.twoEntryLoop)).2 <+: (never.run (load HeapGraph.twoEntryLoop)).2 ∧
    (((atUnits 7).run (load HeapGraph.twoEntryLoop)).2.foldl (atUnits 7).note (atUnits 7).begin).raised = true := by
  obtain ⟨s, loaded⟩ := exists_load_twoEntryLoop
  obtain ⟨size, reachable, passes⟩ := counts_twoEntryLoop loaded
  obtain ⟨ended, -, cancelled⟩ := notifications_of_load HeapGraph.twoEntryLoop
  have run : (never.run (load HeapGraph.twoEntryLoop)).1 = .ok s := (run_never _).trans loaded
  obtain ⟨-, -, stages, -⟩ := ended s run
  rw [size, reachable, passes] at stages
  have refused : (never.run (load (HeapGraph.twoEntryLoop ++ HeapGraph.twoEntryLoop))).1 =
      .error (.malformed ⟨8, ⟨3⟩, .duplicateId⟩) := by
    rw [run_never]
    exact load_of_refused rfl
  have repeated := (notifications_of_load (HeapGraph.twoEntryLoop ++ HeapGraph.twoEntryLoop)).2.1 _ refused
  have stopped : ((atUnits 7).run (load HeapGraph.twoEntryLoop)).1 = .error .cancelled := by
    obtain ⟨tail, unpolled, run⟩ := load_runs (analysis_of_load loaded).1 (dominators_of_load loaded)
    have passed : 0 < s.tree.passes := by
      show 0 < s.dominatorPasses
      omega
    apply run_of_stops run
    refine (stops_loadEvents_iff _ _ _ _ (by decide) passed unpolled).mpr ?_
    have objects : s.graph.size = 4 := size
    have length : HeapGraph.twoEntryLoop.length = 6 := rfl
    omega
  obtain ⟨beginning, raised, -⟩ := cancelled (atUnits 7)
  exact ⟨⟨s, run, stages⟩, refused, repeated, stopped, beginning, raised stopped⟩

end Snapshot

end Retention
