import Retention.Proofs.AcceptedRecords
import Retention.Proofs.LoadedSnapshots

namespace Retention

namespace Snapshot

variable {α β : Type} {s : Snapshot} {id : ObjectId} {i : Nat} {condition : Prop} {answer : Except QueryError α}

/-- A question is answered exactly under the condition; else the object counts as not reachable. -/
def AnsweredWhen (condition : Prop) (id : ObjectId) (answer : Except QueryError α) : Prop :=
  ((∃ a, answer = .ok a) ↔ condition) ∧ (¬ condition → answer = .error (.notReachable id))

theorem AnsweredWhen.of_cases (given : condition → ∃ a, answer = .ok a)
    (refused : ¬ condition → answer = .error (.notReachable id)) : AnsweredWhen condition id answer := by
  refine ⟨⟨fun answered => ?_, given⟩, refused⟩
  by_contra unmet
  obtain ⟨a, ha⟩ := answered
  rw [refused unmet] at ha
  cases ha

/-- What is derived from an answer is answered when it is. -/
theorem AnsweredWhen.bind (h : AnsweredWhen condition id answer) {next : α → Except QueryError β}
    (total : ∀ a, ∃ b, next a = .ok b) : AnsweredWhen condition id (answer >>= next) := by
  apply AnsweredWhen.of_cases
  · intro met
    obtain ⟨a, rfl⟩ := h.1.mpr met
    exact total a
  · intro unmet
    rw [h.2 unmet]
    rfl

theorem placeOf_eq_error (unknown : s.graph.lookup id = none) : s.placeOf id = .error (.unknownId id) := by
  rw [placeOf, unknown]

theorem reachability_eq_ok (found : s.graph.lookup id = some i) : s.reachability id = .ok (s.reachabilityAt i) := by
  rw [reachability, placeOf_eq_ok found]
  rfl

namespace Loaded

theorem reachablePlaceOf_answered (l : s.Loaded) (found : s.graph.lookup id = some i) :
    AnsweredWhen (s.graph.StronglyReachable i) id (s.reachablePlaceOf id) := by
  apply AnsweredWhen.of_cases
  · exact fun reached => ⟨i, l.reachablePlaceOf_eq_ok found reached⟩
  · intro unreached
    rw [reachablePlaceOf, placeOf_eq_ok found]
    show (if s.tree.isReachable i then pure i else throw (QueryError.notReachable id)) = _
    rw [if_neg (mt l.tree.isReachable_iff.mp unreached)]
    rfl

theorem retainedSize_answered (l : s.Loaded) (found : s.graph.lookup id = some i) :
    AnsweredWhen (s.graph.StronglyReachable i) id (s.retainedSize id) :=
  (l.reachablePlaceOf_answered found).bind fun _ => ⟨_, rfl⟩

theorem dominator_answered (l : s.Loaded) (found : s.graph.lookup id = some i) :
    AnsweredWhen (s.graph.StronglyReachable i) id (s.dominator id) := by
  refine (l.reachablePlaceOf_answered found).bind fun i => ?_
  split <;> exact ⟨_, rfl⟩

theorem dominatorsOf_answered (l : s.Loaded) (found : s.graph.lookup id = some i) :
    AnsweredWhen (s.graph.StronglyReachable i) id (s.dominatorsOf id) :=
  (l.reachablePlaceOf_answered found).bind fun _ => ⟨_, rfl⟩

theorem path_answered (l : s.Loaded) (searched : ∀ i, s.trailOf i = s.graph.fullSearch.trailOf i)
    (found : s.graph.lookup id = some i) : AnsweredWhen (s.graph.Reachable i) id (s.path id) := by
  rw [← l.wf.exists_trail_iff, ← searched]
  apply AnsweredWhen.of_cases
  · intro met
    obtain ⟨t, ht⟩ := met
    exact ⟨_, path_eq_ok found ht⟩
  · intro unmet
    have missing : s.trailOf i = none := Option.eq_none_iff_forall_ne_some.mpr fun t ht => unmet ⟨t, ht⟩
    unfold path
    refine Except.bind_eq_error.mpr (.inr ⟨i, placeOf_eq_ok found, ?_⟩)
    rw [missing]
    rfl

/-- The kind of reachability follows from the references that lead to the object. -/
theorem reachabilityAt_iff (l : s.Loaded) (searched : ∀ i, s.trailOf i = s.graph.fullSearch.trailOf i) (i : Nat) :
    (s.reachabilityAt i = .strong ↔ s.graph.StronglyReachable i) ∧
      (s.reachabilityAt i = .weak ↔ s.graph.Reachable i ∧ ¬ s.graph.StronglyReachable i) ∧
      (s.reachabilityAt i = .unreachable ↔ ¬ s.graph.Reachable i) := by
  have led : (s.trailOf i).isSome = true ↔ s.graph.Reachable i := by
    rw [Option.isSome_iff_exists, searched, l.wf.exists_trail_iff]
  unfold reachabilityAt
  by_cases strong : s.graph.StronglyReachable i
  · simp [l.tree.isReachable_iff.mpr strong, strong, strong.reachable]
  · have unmarked : ¬ s.tree.isReachable i = true := mt l.tree.isReachable_iff.mp strong
    by_cases reached : s.graph.Reachable i
    · simp [unmarked, led.mpr reached, strong, reached]
    · have unled : ¬ (s.trailOf i).isSome = true := mt led.mp reached
      rw [if_neg unmarked, if_neg unled]
      simp [strong, reached]

end Loaded

/-- What a snapshot says about the reachability of an object is what its references say, every other
answer agrees with it, and ids that no object record defines are unknown. -/
theorem answers_by_reachability {plan : CancelPlan} {expected : Nat} {records : List Record}
    (loaded : (plan.run (loadExpecting expected records)).1 = .ok s) :
    (HeapGraph.build expected records).outcome.1 = .ok s.graph ∧
    (∀ id ∈ records.filterMap Record.defined?, ∃ i, s.graph.lookup id = some i ∧
      (∃ view, s.lookup id = .ok view ∧ s.reachability id = .ok view.reachability) ∧
      (s.reachability id = .ok .strong ↔ s.graph.StronglyReachable i) ∧
      (s.reachability id = .ok .weak ↔ s.graph.Reachable i ∧ ¬ s.graph.StronglyReachable i) ∧
      (s.reachability id = .ok .unreachable ↔ ¬ s.graph.Reachable i) ∧
      AnsweredWhen (s.reachability id = .ok .strong) id (s.retainedSize id) ∧
      AnsweredWhen (s.reachability id = .ok .strong) id (s.dominator id) ∧
      AnsweredWhen (s.reachability id = .ok .strong) id (s.dominatorsOf id) ∧
      AnsweredWhen (s.reachability id = .ok .strong ∨ s.reachability id = .ok .weak) id (s.path id) ∧
      ∃ children, s.children id = .ok children ∧ (s.reachability id ≠ .ok .strong → children = [])) ∧
    ∀ id ∉ records.filterMap Record.defined?, s.lookup id = .error (.unknownId id) ∧
      s.reachability id = .error (.unknownId id) ∧ s.retainedSize id = .error (.unknownId id) ∧
      s.dominator id = .error (.unknownId id) ∧ s.dominatorsOf id = .error (.unknownId id) ∧
      s.path id = .error (.unknownId id) ∧ s.children id = .error (.unknownId id) := by
  have outcome := outcome_of_run loaded
  obtain ⟨built, l⟩ := loaded_of_load outcome
  obtain ⟨d, image⟩ := HeapGraph.imageOf_of_build built
  refine ⟨built, ?_, ?_⟩
  · intro id defined
    obtain ⟨i, found⟩ := Option.isSome_iff_exists.mp (image.isSome_lookup_iff.mpr defined)
    obtain ⟨strong, weak, unreachable⟩ := l.reachabilityAt_iff (trailOf_of_load outcome) i
    have led : s.graph.Reachable i ↔ s.reachabilityAt i = .strong ∨ s.reachabilityAt i = .weak := by
      rw [strong, weak]
      have above := HeapGraph.StronglyReachable.reachable (g := s.graph) (i := i)
      tauto
    have retained := l.retainedSize_answered found
    have dominator := l.dominator_answered found
    have dominators := l.dominatorsOf_answered found
    have path := l.path_answered (trailOf_of_load outcome) found
    rw [← strong] at retained dominator dominators
    rw [led] at path
    obtain ⟨n, -, view⟩ := l.lookup_eq_ok found
    simp only [reachability_eq_ok found, Except.ok.injEq, ne_eq]
    refine ⟨i, found, ⟨_, view, rfl⟩, strong, weak, unreachable, retained, dominator, dominators, path, _,
      children_eq_ok found, ?_⟩
    intro other
    rw [l.tree.childrenOf_unreached (mt strong.mpr other)]
    rfl
  · intro id undefined
    have unknown : s.graph.lookup id = none := by
      rw [← Option.not_isSome_iff_eq_none, image.isSome_lookup_iff]
      exact undefined
    have place := placeOf_eq_error unknown
    have reachable : s.reachablePlaceOf id = .error (.unknownId id) := by
      rw [reachablePlaceOf, place]
      rfl
    rw [lookup, reachability, retainedSize, dominator, dominatorsOf, path, children, place, reachable]
    exact ⟨rfl, rfl, rfl, rfl, rfl, rfl, rfl⟩

/-- The loop of two objects, and an object that refers to it but that nothing refers to. -/
def watchedLoop : List Record :=
  HeapGraph.twoEntryLoop ++ [.object .instanceObject ⟨⟨5⟩, none, 3, [⟨.field "watched", some ⟨2⟩, true⟩]⟩]

theorem build_watchedLoop {g : HeapGraph} (built : (HeapGraph.build 7 watchedLoop).outcome.1 = .ok g) :
    g.roots = [1] ∧ g.size = 5 ∧ g.lookup ⟨1⟩ = some 1 ∧ g.lookup ⟨3⟩ = some 0 ∧ g.lookup ⟨4⟩ = some 3 ∧
      g.lookup ⟨5⟩ = some 4 ∧ 0 ∈ (g.node? 1).elim [] Node.successors ∧ (∃ r ∈ g.referencesOf 0, r.resolved = some 3) ∧
      ∀ u ∈ List.range 5, 3 ∉ (g.node? u).elim [] Node.successors ∧ ∀ r ∈ g.referencesOf u, r.resolved ≠ some 4 := by
  have known : (HeapGraph.build 7 watchedLoop).outcome.1.map (fun g =>
      decide (g.roots = [1] ∧ g.size = 5 ∧ g.lookup ⟨1⟩ = some 1 ∧ g.lookup ⟨3⟩ = some 0 ∧ g.lookup ⟨4⟩ = some 3 ∧
        g.lookup ⟨5⟩ = some 4 ∧ 0 ∈ (g.node? 1).elim [] Node.successors ∧ (∃ r ∈ g.referencesOf 0, r.resolved = some 3) ∧
        ∀ u ∈ List.range 5, 3 ∉ (g.node? u).elim [] Node.successors ∧
          ∀ r ∈ g.referencesOf u, r.resolved ≠ some 4)) = .ok true := rfl
  rw [built] at known
  exact of_decide_eq_true (Except.ok.inj known)

/-- One object of the loop is held, the object that it refers to weakly is not, and the last one is
out of reach. -/
theorem reachable_watchedLoop {g : HeapGraph} (built : (HeapGraph.build 7 watchedLoop).outcome.1 = .ok g) :
    g.StronglyReachable 0 ∧ (g.Reachable 3 ∧ ¬ g.StronglyReachable 3) ∧ ¬ g.Reachable 4 := by
  obtain ⟨roots, size, -, -, -, -, held, weak, edges⟩ := build_watchedLoop built
  have inside : ∀ {u : Nat}, u < g.size → u ∈ List.range 5 := fun hu => List.mem_range.mpr (size ▸ hu)
  have root : g.RootPath 1 [1] := .root (roots ▸ List.mem_singleton_self 1)
  have strong : g.StronglyReachable 0 := ⟨_, .step root (HeapGraph.holds_iff.mpr held)⟩
  refine ⟨strong, ⟨?_, ?_⟩, ?_⟩
  · obtain ⟨r, hr, resolved⟩ := weak
    exact .step strong.reachable hr resolved
  · intro reached
    obtain ⟨path, hp⟩ := reached
    cases hp with
    | root hr =>
      rw [roots] at hr
      exact absurd hr (by decide)
    | step _ hold => exact (edges _ (inside (HeapGraph.holds_lt hold))).1 (HeapGraph.holds_iff.mp hold)
  · intro reached
    cases reached with
    | root hr =>
      rw [roots] at hr
      exact absurd hr (by decide)
    | step _ hr resolved => exact (edges _ (inside (HeapGraph.lt_of_mem_referencesOf hr))).2 _ hr resolved

theorem exists_load_watchedLoop : ∃ s, (loadExpecting 7 watchedLoop).outcome.1 = .ok s :=
  exists_load_of_small rfl (by decide +kernel)

theorem answers_by_reachability_watchedLoop : ∃ s,
    (CancelPlan.never.run (loadExpecting 7 watchedLoop)).1 = .ok s ∧
    s.reachability ⟨3⟩ = .ok .strong ∧ (∃ size, s.retainedSize ⟨3⟩ = .ok size) ∧
    s.reachability ⟨4⟩ = .ok .weak ∧ s.retainedSize ⟨4⟩ = .error (.notReachable ⟨4⟩) ∧
    (∃ steps, s.path ⟨4⟩ = .ok steps) ∧
    s.reachability ⟨5⟩ = .ok .unreachable ∧ s.path ⟨5⟩ = .error (.notReachable ⟨5⟩) ∧ s.children ⟨5⟩ = .ok [] ∧
    s.reachability ⟨9⟩ = .error (.unknownId ⟨9⟩) := by
  obtain ⟨s, loaded⟩ := exists_load_watchedLoop
  rw [← CancelPlan.run_never] at loaded
  obtain ⟨built, known, unknown⟩ := answers_by_reachability loaded
  obtain ⟨-, -, -, third, fourth, fifth, -⟩ := build_watchedLoop built
  obtain ⟨strong, weak, unreachable⟩ := reachable_watchedLoop built
  obtain ⟨_, at3, -, strong3, -, -, size3, -⟩ := known ⟨3⟩ (by decide)
  obtain ⟨_, at4, -, strong4, weak4, -, size4, -, -, path4, -⟩ := known ⟨4⟩ (by decide)
  obtain ⟨_, at5, -, -, -, unreachable5, -, -, -, path5, children, asked, childless⟩ := known ⟨5⟩ (by decide)
  obtain rfl := Option.some.inj (at3.symm.trans third)
  obtain rfl := Option.some.inj (at4.symm.trans fourth)
  obtain rfl := Option.some.inj (at5.symm.trans fifth)
  have isStrong := strong3.mpr strong
  have isWeak := weak4.mpr weak
  have isUnreachable := unreachable5.mpr unreachable
  have noPath : ¬ (s.reachability ⟨5⟩ = .ok .strong ∨ s.reachability ⟨5⟩ = .ok .weak) := by
    rw [isUnreachable]
    simp
  have empty : children = [] := childless fun h => noPath (.inl h)
  exact ⟨s, loaded, isStrong, size3.1.mpr isStrong, isWeak, size4.2 (mt strong4.mp weak.2), path4.1.mpr (.inr isWeak),
    isUnreachable, path5.2 noPath, empty ▸ asked, (unknown ⟨9⟩ (by decide)).2.1⟩

end Snapshot

end Retention
