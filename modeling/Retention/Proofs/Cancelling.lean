import Retention.Proofs.LoadEvents

namespace Retention

/-- What an event tells the observer; a poll tells nothing. -/
def Event.told? : Event → Option Notification
  | .notify n => some n
  | .poll => none

/-- What events tell the observer. -/
def told (events : List Event) : List Notification := events.filterMap Event.told?

@[simp] theorem told_nil : told [] = [] := rfl

@[simp] theorem told_notify (n : Notification) (events : List Event) :
    told (.notify n :: events) = n :: told events := rfl

@[simp] theorem told_poll (events : List Event) : told (.poll :: events) = told events := rfl

@[simp] theorem told_append (events later : List Event) : told (events ++ later) = told events ++ told later :=
  List.filterMap_append

@[simp] theorem told_polls (k : Nat) : told (List.replicate k .poll) = [] := by
  simp [told, Event.told?]

namespace CancelPlan

variable {plan : CancelPlan} {w : CancelWatch} {events : List Event} {n k units : Nat}

/-- The watch after events. -/
def after (plan : CancelPlan) (w : CancelWatch) (events : List Event) : CancelWatch := (told events).foldl plan.note w

/-- One of the polls finds the token raised. -/
def stops (plan : CancelPlan) : CancelWatch → List Event → Bool
  | _, [] => false
  | w, .notify n :: events => plan.stops (plan.note w n) events
  | w, .poll :: events => w.raised || plan.stops w events

theorem snd_replay (plan : CancelPlan) (s : LoadState) (events : List Event) :
    (plan.replay s events).2 = plan.stops s.watch events := by
  induction events generalizing s with
  | nil => rfl
  | cons event events ih =>
    cases event with
    | notify n => exact ih (s.tell plan n)
    | poll => cases raised : s.watch.raised <;> simp [replay, stops, raised, ih]

/-- A poll finds the token raised among the first events, or among the later ones. -/
theorem stops_append (plan : CancelPlan) (w : CancelWatch) (events later : List Event) :
    plan.stops w (events ++ later) = (plan.stops w events || plan.stops (plan.after w events) later) := by
  induction events generalizing w with
  | nil => rfl
  | cons event events ih =>
    cases event with
    | notify n => exact ih (plan.note w n)
    | poll => simp only [List.cons_append, stops, ih, Bool.or_assoc, after, told_poll]

theorem stops_of_unpolled (unpolled : ∀ event ∈ events, event ≠ .poll) : plan.stops w events = false := by
  induction events generalizing w with
  | nil => rfl
  | cons event events ih =>
    cases event with
    | notify n => exact ih fun event there => unpolled event (List.mem_cons_of_mem _ there)
    | poll => exact absurd rfl (unpolled .poll List.mem_cons_self)

/-- A token stays raised, so any poll finds it. -/
theorem stops_of_raised (raised : w.raised = true) : plan.stops w events = true ↔ .poll ∈ events := by
  induction events generalizing w with
  | nil => simp [stops]
  | cons event events ih =>
    cases event with
    | notify n =>
      have still : (plan.note w n).raised = true := by cases n <;> simp [note, raised]
      simp [stops, ih still]
    | poll => simp [stops, raised]

theorem stops_never (events : List Event) : never.stops never.begin events = false :=
  (snd_replay never (.begin never) events).symm.trans (replay_never rfl events)

/-- A replay tells of the events up to one, and ends there only if the token is raised. -/
theorem replay_front (plan : CancelPlan) (s : LoadState) (events : List Event) :
    ∃ front rest, events = front ++ rest ∧
      (plan.replay s events).1 = ⟨s.told ++ (told front).toArray, plan.after s.watch front⟩ ∧
      ((plan.replay s events).2 = true → (plan.after s.watch front).raised = true) ∧
      ((plan.replay s events).2 = false → rest = []) := by
  induction events generalizing s with
  | nil => exact ⟨[], [], by simp [replay, after]⟩
  | cons event events ih =>
    cases event with
    | notify n =>
      obtain ⟨front, rest, split, same, stopped, through⟩ := ih (s.tell plan n)
      refine ⟨.notify n :: front, rest, by rw [split, List.cons_append], ?_, stopped, through⟩
      rw [replay, same]
      simp [LoadState.tell, after]
    | poll =>
      cases raised : s.watch.raised with
      | true => exact ⟨[], .poll :: events, by simp [replay, raised, after]⟩
      | false =>
        obtain ⟨front, rest, split, same, stopped, through⟩ := ih s
        have on : plan.replay s (.poll :: events) = plan.replay s events := by simp [replay, raised]
        rw [on]
        exact ⟨.poll :: front, rest, by rw [split, List.cons_append], same, stopped, through⟩

section Runs

variable {α : Type} {load : Load α} {result : Except LoadError α}

/-- Under a plan a load does the first of its events: all of them, or those before a poll that finds the
token raised. -/
theorem run_front (run : load.Runs result events) (plan : CancelPlan) :
    ∃ front rest, events = front ++ rest ∧
      plan.run load = (if plan.stops plan.begin events then .error .cancelled else result, told front) ∧
      (plan.stops plan.begin events = true → (plan.after plan.begin front).raised = true) ∧
      (plan.stops plan.begin events = false → rest = []) := by
  obtain ⟨front, rest, split, same, stopped, through⟩ := replay_front plan (.begin plan) events
  rw [snd_replay] at stopped through
  refine ⟨front, rest, split, ?_, stopped, through⟩
  rw [CancelPlan.run, run plan, snd_replay, same]
  exact Prod.ext rfl (by simp [LoadState.begin])

theorem run_of_stops (run : load.Runs result events) (h : plan.stops plan.begin events = true) :
    (plan.run load).1 = .error .cancelled := by
  obtain ⟨front, rest, -, same, -⟩ := run_front run plan
  simp [same, h]

/-- A load that no poll ends tells all it has to tell. -/
theorem run_of_unstopped (run : load.Runs result events) (h : plan.stops plan.begin events = false) :
    plan.run load = (result, told events) := by
  obtain ⟨front, rest, split, same, -, through⟩ := run_front run plan
  obtain rfl := through h
  rw [same, h, split, List.append_nil]
  rfl

theorem run_never_eq (run : load.Runs result events) : never.run load = (result, told events) :=
  run_of_unstopped run (stops_never events)

theorem run_eq_never (run : load.Runs result events) (h : plan.stops plan.begin events = false) :
    plan.run load = never.run load := (run_of_unstopped run h).trans (run_never_eq run).symm

theorem run_eq_cancelled_iff (run : load.Runs result events) (completes : result ≠ .error .cancelled) :
    (plan.run load).1 = .error .cancelled ↔ plan.stops plan.begin events = true := by
  refine ⟨fun cancelled => ?_, run_of_stops run⟩
  by_contra on
  rw [run_of_unstopped run (Bool.eq_false_iff.mpr on)] at cancelled
  exact completes cancelled

theorem run_of_ne_cancelled (run : load.Runs result events) (on : (plan.run load).1 ≠ .error .cancelled) :
    plan.run load = never.run load :=
  run_eq_never run (Bool.eq_false_iff.mpr fun h => on (run_of_stops run h))

end Runs

/-- The token is raised as soon as `n` units are announced. -/
def atUnits (n : Nat) : CancelPlan := { never with afterUnits := some n }

/-- So many units have been told, and the token is raised if they are at least `n`. -/
structure Counts (n : Nat) (w : CancelWatch) (units : Nat) : Prop where
  units_eq : w.units = units
  raised_iff : w.raised = true ↔ n ≤ units

theorem counts_begin (positive : 0 < n) : Counts n (atUnits n).begin 0 where
  units_eq := rfl
  raised_iff := by
    simp [begin, atUnits, never]
    omega

namespace Counts

theorem note_start (h : Counts n w units) (description : String) (announced : Nat) :
    Counts n ((atUnits n).note w (.start description announced)) units where
  units_eq := h.units_eq
  raised_iff := by simp [note, atUnits, never, h.raised_iff]

theorem note_done (h : Counts n w units) : Counts n ((atUnits n).note w .done) units where
  units_eq := h.units_eq
  raised_iff := by simp [note, atUnits, never, h.raised_iff]

theorem note_advance (h : Counts n w units) : Counts n ((atUnits n).note w (.advance k)) (units + k) where
  units_eq := by simp [note, h.units_eq]
  raised_iff := by
    simp [note, atUnits, h.raised_iff, h.units_eq]
    omega

/-- The polls of `k` items come after `units`, `units + 1`, … and `units + k - 1` units. -/
theorem through_ticks (h : Counts n w units) (k : Nat) :
    Counts n ((atUnits n).after w (ticks k)) (units + k) ∧
      ((atUnits n).stops w (ticks k) = true ↔ 0 < k ∧ n < units + k) := by
  induction k generalizing w units with
  | zero => exact ⟨h, by simp [ticks, CancelPlan.stops]⟩
  | succ k ih =>
    obtain ⟨counts, stops⟩ := ih h.note_advance
    have total : units + 1 + k = units + (k + 1) := by omega
    refine ⟨total ▸ counts, ?_⟩
    rw [ticks, CancelPlan.stops, CancelPlan.stops, Bool.or_eq_true, stops, h.raised_iff]
    omega

theorem through_phase (h : Counts n w units) (description : String) (announced k : Nat) :
    Counts n ((atUnits n).after w (phase description announced k)) (units + k) ∧
      ((atUnits n).stops w (phase description announced k) = true ↔ 0 < k ∧ n < units + k) := by
  obtain ⟨counts, stops⟩ := (h.note_start description announced).through_ticks k
  constructor
  · have last : (atUnits n).after w (phase description announced k) =
        (atUnits n).note ((atUnits n).after ((atUnits n).note w (.start description announced)) (ticks k)) .done := by
      simp [after, phase]
    rw [last]
    exact counts.note_done
  · rw [phase, CancelPlan.stops, stops_append]
    simp [CancelPlan.stops, stops]

/-- Polls alone announce nothing. -/
theorem through_polls (h : Counts n w units) (k : Nat) :
    (atUnits n).after w (List.replicate k .poll) = w ∧
      ((atUnits n).stops w (List.replicate k .poll) = true ↔ 0 < k ∧ n ≤ units) := by
  induction k with
  | zero => simp [after, CancelPlan.stops]
  | succ k ih =>
    refine ⟨ih.1, ?_⟩
    rw [List.replicate_succ, CancelPlan.stops, Bool.or_eq_true, ih.2, h.raised_iff]
    omega

end Counts

end CancelPlan

theorem HeapGraph.IsDominatorTree.reachable_eq_ncard {g : HeapGraph} {t : DominatorTree} (tree : g.IsDominatorTree t) :
    t.reachable = {i | g.StronglyReachable i}.ncard := by
  have members : {i | g.StronglyReachable i} = (t.members.toFinset : Set Nat) := by
    ext i
    simp only [Set.mem_ofPred_eq, List.coe_toFinset, DominatorTree.mem_members]
    exact tree.isReachable_iff.symm
  rw [members, Set.ncard_coe_finset, List.toFinset_card_of_nodup t.nodup_members, t.reachable_eq_length]

namespace Snapshot

open CancelPlan

variable {g : HeapGraph} {t : DominatorTree} {expected n : Nat} {records : List Record} {m : MalformedRecord}

/-- A load that nobody cancels fails on a refused record or on sizes that do not fit. -/
theorem load_error_cases {error : LoadError} (failed : (loadExpecting expected records).outcome.1 = .error error) :
    error = .overflow ∨
      ∃ m, error = .malformed m ∧ (HeapGraph.build expected records).outcome.1 = .error (.malformed m) := by
  cases HeapGraph.build_cases expected records with
  | inl done =>
    obtain ⟨g, -, built, -⟩ := done
    rcases load_cases built with ⟨⟨s, loaded⟩, -⟩ | ⟨overflow, -⟩
    · rw [loaded] at failed
      cases failed
    · exact .inl (Except.error.inj (failed.symm.trans overflow))
  | inr refused =>
    obtain ⟨⟨m, refused⟩, -⟩ := refused
    exact .inr ⟨m, Except.error.inj (failed.symm.trans (load_of_refused refused)), refused⟩

theorem load_ne_cancelled (expected : Nat) (records : List Record) :
    (loadExpecting expected records).outcome.1 ≠ .error .cancelled := by
  intro cancelled
  rcases load_error_cases cancelled with same | ⟨m, same, -⟩ <;> cases same

theorem refused_of_load (failed : (loadExpecting expected records).outcome.1 = .error (.malformed m)) :
    (HeapGraph.build expected records).outcome.1 = .error (.malformed m) := by
  rcases load_error_cases failed with same | ⟨m, same, refused⟩
  · cases same
  · rwa [same]

theorem stops_loadEvents_iff (expected length size reachable : Nat) {passes : Nat} {tail : List Event}
    (positive : 0 < n) (passed : 0 < passes) (unpolled : ∀ event ∈ tail, event ≠ .poll) :
    (atUnits n).stops (atUnits n).begin (loadEvents expected length size reachable passes tail) = true ↔
      n < length + size + reachable * passes := by
  obtain ⟨read, reading⟩ := (counts_begin positive).through_phase "Reading records" expected length
  obtain ⟨resolved, resolving⟩ := read.through_phase "Resolving references" size size
  obtain ⟨discovered, discovering⟩ := resolved.through_polls reachable
  obtain ⟨-, sweeping⟩ := resolved.through_phase "Computing dominators" size (reachable * passes)
  simp only [loadEvents, stops_append, Bool.or_eq_true, reading, resolving, discovering, discovered, sweeping,
    stops_of_unpolled unpolled, Bool.false_eq_true, or_false]
  have visits : 0 < reachable * passes ↔ 0 < reachable := by simp [passed]
  omega

theorem stops_refused_iff (expected position : Nat) (positive : 0 < n) :
    (atUnits n).stops (atUnits n).begin
      (.notify (.start "Reading records" expected) :: (ticks position ++ [.poll])) = true ↔ n ≤ position := by
  obtain ⟨read, reading⟩ := ((counts_begin positive).note_start "Reading records" expected).through_ticks position
  simp only [stops, stops_append, Bool.or_eq_true, reading, read.raised_iff, Bool.false_eq_true, or_false]
  omega

theorem size_of_build_nil (built : (HeapGraph.build expected []).outcome.1 = .ok g) : g.size = 0 := by
  have known : (HeapGraph.build expected []).outcome.1.map HeapGraph.size = .ok 0 := rfl
  rw [built] at known
  exact Except.ok.inj known

/-- Only the load of an empty stream does not look at its token at all. -/
theorem exists_runs_polling (expected : Nat) (records : List Record) :
    ∃ events, (loadExpecting expected records).Runs (loadExpecting expected records).outcome.1 events ∧
      (.poll ∈ events ↔ records ≠ []) := by
  cases HeapGraph.build_cases expected records with
  | inl done =>
    obtain ⟨g, -, built, -⟩ := done
    obtain ⟨t, found, tree⟩ := (HeapGraph.WellFormed.of_build built).exists_tree
    obtain ⟨tail, unpolled, run⟩ := load_runs built found
    refine ⟨_, run, ?_⟩
    cases records with
    | nil =>
      have empty := size_of_build_nil built
      have nothing : t.reachable = 0 := by
        rw [t.reachable_eq_length, DominatorTree.members, tree.size_idom, empty]
        rfl
      have quiet : .poll ∉ tail := fun there => unpolled .poll there rfl
      simpa [loadEvents, phase, ticks, empty, nothing] using quiet
    | cons record records => simp [loadEvents, phase, ticks]
  | inr failed =>
    obtain ⟨⟨m, refused⟩, -⟩ := failed
    obtain ⟨inside, run⟩ := load_runs_refused refused
    have nonempty : records ≠ [] := List.ne_nil_of_length_pos (by omega)
    exact ⟨_, run, by simp [nonempty]⟩

/-- A load ends as cancelled exactly if its token is looked at once more after it was raised: before
the next record, object, discovery or visit of a sweep. Else it goes as if nobody had cancelled it. -/
theorem run_cancelled_iff (expected : Nat) (records : List Record) :
    (∀ n g t, 1 ≤ n → (HeapGraph.build expected records).outcome.1 = .ok g →
      (g.dominators none).outcome.1 = .ok t →
      (((atUnits n).run (loadExpecting expected records)).1 = .error .cancelled ↔
        n < records.length + g.size + {i | g.StronglyReachable i}.ncard * t.passes) ∧
      (records.length + g.size + {i | g.StronglyReachable i}.ncard * t.passes ≤ n →
        (atUnits n).run (loadExpecting expected records) = never.run (loadExpecting expected records))) ∧
    (∀ n m, 1 ≤ n → (never.run (loadExpecting expected records)).1 = .error (.malformed m) →
      (((atUnits n).run (loadExpecting expected records)).1 = .error .cancelled ↔ n ≤ m.position) ∧
      (m.position < n →
        (atUnits n).run (loadExpecting expected records) = never.run (loadExpecting expected records))) ∧
    (∀ plan : CancelPlan, plan.before = true →
      ((plan.run (loadExpecting expected records)).1 = .error .cancelled ↔ records ≠ [])) ∧
    ∀ (plan : CancelPlan) error, (plan.run (loadExpecting expected records)).1 = .error error →
      ∀ (α : Type) (question : Snapshot → Except QueryError α),
        SnapshotSlot.ask ⟨(plan.run (loadExpecting expected records)).1⟩ question = .error .buildIncomplete := by
  have completes := load_ne_cancelled expected records
  refine ⟨?_, ?_, ?_, ?_⟩
  · intro n g t positive built found
    have tree := (HeapGraph.WellFormed.of_build built).isDominatorTree found
    rw [← tree.reachable_eq_ncard]
    obtain ⟨tail, unpolled, run⟩ := load_runs built found
    obtain ⟨passed, -⟩ := (HeapGraph.WellFormed.of_build built).dominators_runs found
    have threshold := stops_loadEvents_iff expected records.length g.size t.reachable positive passed unpolled
    refine ⟨(run_eq_cancelled_iff run completes).trans threshold, fun past => run_eq_never run ?_⟩
    rw [Bool.eq_false_iff, ne_eq, threshold]
    omega
  · intro n m positive failed
    rw [run_never] at failed
    obtain ⟨-, run⟩ := load_runs_refused (refused_of_load failed)
    have threshold := stops_refused_iff expected m.position positive
    refine ⟨(run_eq_cancelled_iff run completes).trans threshold, fun past => run_eq_never run ?_⟩
    rw [Bool.eq_false_iff, ne_eq, threshold]
    omega
  · intro plan raised
    obtain ⟨events, run, polls⟩ := exists_runs_polling expected records
    rw [run_eq_cancelled_iff run completes, stops_of_raised raised, polls]
  · intro plan error failed α question
    rw [failed]
    rfl

/-- On a loop of two objects the last poll comes before the last unit; a stream that repeats it is
refused at its ninth record. -/
theorem run_cancelled_iff_twoEntryLoop :
    (∃ g t, (HeapGraph.build 6 HeapGraph.twoEntryLoop).outcome.1 = .ok g ∧ (g.dominators none).outcome.1 = .ok t ∧
      ((atUnits (9 + {i | g.StronglyReachable i}.ncard * t.passes)).run
        (loadExpecting 6 HeapGraph.twoEntryLoop)).1 = .error .cancelled ∧
      (atUnits (10 + {i | g.StronglyReachable i}.ncard * t.passes)).run (loadExpecting 6 HeapGraph.twoEntryLoop) =
        never.run (loadExpecting 6 HeapGraph.twoEntryLoop)) ∧
    (never.run (loadExpecting 12 (HeapGraph.twoEntryLoop ++ HeapGraph.twoEntryLoop))).1 =
      .error (.malformed ⟨8, ⟨3⟩, .duplicateId⟩) ∧
    ((atUnits 8).run (loadExpecting 12 (HeapGraph.twoEntryLoop ++ HeapGraph.twoEntryLoop))).1 = .error .cancelled ∧
    (atUnits 9).run (loadExpecting 12 (HeapGraph.twoEntryLoop ++ HeapGraph.twoEntryLoop)) =
      never.run (loadExpecting 12 (HeapGraph.twoEntryLoop ++ HeapGraph.twoEntryLoop)) ∧
    (CancelPlan.run { never with before := true } (loadExpecting 6 HeapGraph.twoEntryLoop)).1 = .error .cancelled ∧
    SnapshotSlot.ask ⟨(CancelPlan.run { never with before := true } (loadExpecting 6 HeapGraph.twoEntryLoop)).1⟩
      (fun s => s.retainedSize ⟨1⟩) = .error .buildIncomplete := by
  obtain ⟨g, built⟩ : ∃ g, (HeapGraph.build 6 HeapGraph.twoEntryLoop).outcome.1 = .ok g := ⟨_, rfl⟩
  obtain ⟨-, size, -⟩ := build_twoEntryLoop built
  obtain ⟨t, found, -⟩ := (HeapGraph.WellFormed.of_build built).exists_tree
  obtain ⟨within, -, raised, unanswered⟩ := run_cancelled_iff 6 HeapGraph.twoEntryLoop
  have last := within (9 + {i | g.StronglyReachable i}.ncard * t.passes) g t (by omega) built found
  have past := within (10 + {i | g.StronglyReachable i}.ncard * t.passes) g t (by omega) built found
  have length : HeapGraph.twoEntryLoop.length = 6 := rfl
  rw [size, length] at last past
  have stopped := (raised { never with before := true } rfl).mpr (by decide)
  have refused : (never.run (loadExpecting 12 (HeapGraph.twoEntryLoop ++ HeapGraph.twoEntryLoop))).1 =
      .error (.malformed ⟨8, ⟨3⟩, .duplicateId⟩) := by
    rw [run_never]
    exact load_of_refused rfl
  have repeated := (run_cancelled_iff 12 (HeapGraph.twoEntryLoop ++ HeapGraph.twoEntryLoop)).2.1
  exact ⟨⟨g, t, built, found, last.1.mpr (by omega), past.2 (by omega)⟩, refused,
    (repeated 8 _ (by decide) refused).1.mpr (by decide), (repeated 9 _ (by decide) refused).2 (by decide), stopped,
    unanswered _ _ stopped _ _⟩

end Snapshot

end Retention
