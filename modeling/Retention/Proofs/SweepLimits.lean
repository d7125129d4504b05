import Retention.Proofs.ImmediateDominators

namespace Retention

namespace Sweep

/-- Sweeps change something `k` times, and the next one nothing any more. -/
inductive Settles (preds : Array (List Nat)) : Estimates → Nat → Estimates → Prop where
  | still {e : Estimates} : (swept preds e).changed = [] → Settles preds e 0 e
  | sweep {e final : Estimates} {k : Nat} : (swept preds e).changed ≠ [] →
      Settles preds (swept preds e).estimates k final → Settles preds e (k + 1) final

variable {preds : Array (List Nat)} {e final : Estimates} {bound passes k n : Nat}
  {failure : Nat → List Nat → LoadError}

/-- Sweeps that are not cut off settle. -/
theorem settle_cases (preds : Array (List Nat)) (bound : Nat) (failure : Nat → List Nat → LoadError) (passes : Nat)
    (e : Estimates) :
    (∃ k final, Settles preds e k final ∧
        (settle preds bound failure passes e).Returns (.ok (final, passes + k + 1))) ∨
      ∃ error, (settle preds bound failure passes e).Returns (.error error) := by
  -- Induction on the sweeps that the bound still allows for.
  induction left : bound - passes using Nat.strongRecOn generalizing passes e with
  | ind left ih =>
    by_cases changed : (swept preds e).changed = []
    · exact .inl ⟨0, e, .still changed, (settle_still changed).returns⟩
    · by_cases spent : bound ≤ passes + 1
      · exact .inr ⟨_, (settle_spent changed spent).returns⟩
      · have more := Nat.lt_of_not_le spent
        cases ih (bound - (passes + 1)) (by omega) (passes + 1) (swept preds e).estimates rfl with
        | inl done =>
          obtain ⟨k, final, settles, returns⟩ := done
          rw [Nat.add_right_comm passes 1 k] at returns
          exact .inl ⟨k + 1, final, .sweep changed settles, settle_more changed more returns⟩
        | inr failed =>
          obtain ⟨error, returns⟩ := failed
          exact .inr ⟨error, settle_more changed more returns⟩

theorem settles_of_returns (h : (settle preds bound failure 0 e).Returns (.ok (final, n))) :
    ∃ k, n = k + 1 ∧ Settles preds e k final := by
  cases settle_cases preds bound failure 0 e with
  | inl done =>
    obtain ⟨k, other, settles, also⟩ := done
    obtain ⟨rfl, rfl⟩ := Prod.mk.inj (Except.ok.inj (h.unique also))
    exact ⟨k, by omega, settles⟩
  | inr failed =>
    obtain ⟨error, also⟩ := failed
    cases h.unique also

/-- A bound that allows for one more sweep than change something is not noticed, nor is any bound when
the first sweep changes nothing. -/
theorem Settles.returns (h : Settles preds e k final) (enough : passes + k < bound ∨ k = 0) :
    (settle preds bound failure passes e).Returns (.ok (final, passes + k + 1)) := by
  induction h generalizing passes with
  | still unchanged => exact (settle_still unchanged).returns
  | @sweep e final k changed _ ih =>
    have later := @ih (passes + 1) (by omega)
    rw [Nat.add_right_comm passes 1 k] at later
    exact settle_more changed (by omega) later

/-- What sweeps settle on, another sweep leaves as it is. -/
theorem Settles.swept_eq (h : Settles preds e k final) : swept preds final = ⟨final, []⟩ := by
  induction h with
  | still unchanged => exact swept_of_stable (stable_of_unchanged unchanged).2
  | sweep _ _ ih => exact ih

theorem Settles.sweeping (numbered : Numbered preds) (h : Settles preds e k final) (before : Sweeping preds e n 1) :
    Sweeping preds final (n + k) 1 := by
  induction h generalizing n with
  | still _ => exact before
  | @sweep e final k _ _ ih =>
    rw [← Nat.add_assoc, Nat.add_right_comm]
    exact ih (sweeping_swept numbered before)

end Sweep

namespace HeapGraph

variable {g : HeapGraph} {order : List Nat} {e : Estimates} {k v : Nat}

/-- The super-root and the objects that a search from it finds, in reverse postorder: each has its place
here for a number. -/
abbrev numbering (g : HeapGraph) : List Nat := g.strongGraph.reversePostorder g.superRoot

/-- The predecessors of each number. -/
abbrev sources (g : HeapGraph) : Array (List Nat) := predecessors g.strongGraph g.numbering

theorem WellFormed.numbering (wf : g.WellFormed) : g.strongGraph.IsReversePostorder g.superRoot g.numbering :=
  Digraph.isReversePostorder_reversePostorder wf.closed g.superRoot

theorem size_sources (g : HeapGraph) : g.sources.size = g.numbering.length := size_predecessors _ _

namespace Analysed

theorem nodup_ids (a : g.Analysed order e) : (order.tail.map g.idOf).Nodup := by
  have inside : ∀ v ∈ order.tail, v < g.size := fun v hv => a.wf.stronglyReachable_lt (a.mem_tail.mp hv)
  refine List.Nodup.map_on ?_ (a.ord.nodup.sublist (List.tail_sublist order))
  intro u hu v hv same
  exact a.wf.idOf_inj (inside u hu) (inside v hv) same

end Analysed

/-- The sweeps over a heap change something `k` times and settle on estimates that tell its dominators. -/
structure SettlesOn (g : HeapGraph) (k : Nat) (e : Estimates) : Prop where
  analysed : g.Analysed g.numbering e
  settles : Sweep.Settles g.sources (.initial g.numbering.length) k e
  few : k ≤ g.numbering.length

theorem WellFormed.exists_settlesOn (wf : g.WellFormed) : ∃ k e, g.SettlesOn k e := by
  obtain ⟨e, n, -, few, exact, settled⟩ := wf.numbering.exists_settled wf.closed
  obtain ⟨k, rfl, settles⟩ := Sweep.settles_of_returns
    (settled _ (g.unsettledError g.numbering.toArray) (Nat.le_refl n))
  exact ⟨k, e, ⟨wf, wf.numbering, exact⟩, settles, Nat.le_of_succ_le_succ few⟩

/-- Sweeps that are cut off leave no tree. -/
theorem dominators_cut_off {limit : Option Nat} {error : LoadError}
    (failed : (Sweep.settle g.sources (limit.getD (g.numbering.length + 3)) (g.unsettledError g.numbering.toArray) 0
      (.initial g.numbering.length)).Returns (.error error)) : (g.dominators limit).Returns (.error error) := by
  unfold dominators
  refine (Load.runs_forM_poll _).returns.bind ?_
  refine (Load.runsBy_notify trivial).bind ?_
  exact failed.bind_error _

namespace SettlesOn

/-- A limit that allows for one more sweep than change something is not noticed. -/
theorem returns (h : g.SettlesOn k e) (limit : Option Nat)
    (enough : k < limit.getD (g.numbering.length + 3) ∨ k = 0) :
    (g.dominators limit).Returns (.ok (g.treeOf g.numbering.toArray e (k + 1))) := by
  apply dominators_returns limit h.analysed
  intro failure
  have settled : (Sweep.settle g.sources (limit.getD (g.numbering.length + 3)) failure 0
      (.initial g.numbering.length)).Returns (.ok (e, 0 + k + 1)) := h.settles.returns (by omega)
  rwa [Nat.zero_add] at settled

theorem returns_unlimited (h : g.SettlesOn k e) :
    (g.dominators none).Returns (.ok (g.treeOf g.numbering.toArray e (k + 1))) := by
  have few := h.few
  exact h.returns none (.inl (by show k < g.numbering.length + 3; omega))

/-- The last sweep leaves no number without an estimate. -/
theorem isDefined (h : g.SettlesOn k e) {r : Nat} (hr : r < g.numbering.length) : e.isDefined r = true := by
  have numbered := h.analysed.ord.numbered h.analysed.wf.closed
  have settles := h.settles
  rw [← size_sources] at settles hr
  have last := Sweep.sweeping_swept numbered (settles.sweeping numbered (Sweeping.initial numbered))
  rw [settles.swept_eq] at last
  exact (last.defined r).mpr ⟨hr, .inr (Nat.succ_pos _)⟩

theorem passes_le (h : g.SettlesOn k e) : k + 1 ≤ (g.treeOf g.numbering.toArray e (k + 1)).reachable + 2 := by
  have few := h.few
  have numbered : (g.treeOf g.numbering.toArray e (k + 1)).reachable + 1 = g.numbering.length :=
    h.analysed.reachable_treeOf
  omega

end SettlesOn

/-- The sweeps settle within three more than there are objects reached, whatever larger limit they are
given. The last of them finds an estimate at every number and changes none, and the tree is read off these
estimates. -/
theorem dominators_settle {expected : Nat} {records : List Record} {g : HeapGraph}
    (h : (build expected records).outcome.1 = .ok g) :
    ∃ tree k e, (g.dominators none).outcome.1 = .ok tree ∧ tree.passes = k + 1 ∧ tree.passes ≤ tree.reachable + 3 ∧
      Sweep.Settles g.sources (.initial g.numbering.length) k e ∧
      (Sweep.pass g.sources e).outcome.1 = .ok ⟨e, []⟩ ∧
      (∀ r < g.numbering.length, e.isDefined r = true) ∧
      tree = g.treeOf g.numbering.toArray e tree.passes ∧
      ∀ limit, tree.reachable + 3 ≤ limit → (g.dominators (some limit)).outcome.1 = .ok tree := by
  obtain ⟨k, e, settles⟩ := (WellFormed.of_build h).exists_settlesOn
  have few := settles.passes_le
  refine ⟨g.treeOf g.numbering.toArray e (k + 1), k, e, settles.returns_unlimited.outcome_eq, rfl, ?_,
    settles.settles, ?_, fun r => settles.isDefined, rfl, ?_⟩
  · show k + 1 ≤ _
    omega
  · rw [(Sweep.pass_runs g.sources e).returns.outcome_eq, settles.settles.swept_eq]
  · intro limit room
    exact (settles.returns (some limit) (.inl (by show k < limit; omega))).outcome_eq

/-- Two sweeps: the first one finds every estimate, and the second one changes none. -/
theorem dominators_settle_twoEntryLoop :
    ∃ g tree, (build 6 twoEntryLoop).outcome.1 = .ok g ∧ (g.dominators none).outcome.1 = .ok tree ∧
      tree.passes = 2 ∧ tree.reachable = 3 ∧
      tree = g.treeOf g.numbering.toArray #[some 0, some 0, some 1, some 1] 2 ∧
      Sweep.Settles g.sources (.initial 4) 1 #[some 0, some 0, some 1, some 1] ∧
      (Sweep.pass g.sources #[some 0, some 0, some 1, some 1]).outcome.1 = .ok ⟨#[some 0, some 0, some 1, some 1], []⟩ ∧
      ∀ limit, 6 ≤ limit → (g.dominators (some limit)).outcome.1 = .ok tree := by
  have counted : (build 6 twoEntryLoop).outcome.1.map (fun g => decide (g.numbering.length = 4 ∧
      (Sweep.swept g.sources (.initial 4)).estimates = #[some 0, some 0, some 1, some 1] ∧
      (g.dominators none).outcome.1.map (fun tree => (tree.passes, tree.reachable)) = .ok (2, 3))) = .ok true := by
    decide +kernel
  obtain ⟨g, built, length, first, counts⟩ := Except.exists_of_test counted
  obtain ⟨tree, k, e, found, passes, -, settles, still, -, read, limited⟩ := dominators_settle built
  rw [found] at counts
  obtain ⟨two, three⟩ := Prod.mk.inj (Except.ok.inj counts)
  obtain rfl : k = 1 := by omega
  rw [length] at settles
  obtain rfl : e = #[some 0, some 0, some 1, some 1] := by
    cases settles with
    | sweep _ last =>
      cases last with
      | still _ => exact first
  rw [three] at limited
  exact ⟨g, tree, built, found, two, three, two ▸ read, settles, still, limited⟩

end HeapGraph

end Retention
