import Mathlib.Tactic.ByContra
import Retention.Load
import Retention.Proofs.FailingRuns

namespace Retention

/-- One observable step of a load. -/
inductive Event where
  | notify (notification : Notification)
  | poll
  deriving DecidableEq

/-- What is done while `k` items are gone through: a poll before each, a unit after it. -/
def ticks : Nat → List Event
  | 0 => []
  | k + 1 => .poll :: .notify (.advance 1) :: ticks k

theorem ticks_add (j k : Nat) : ticks (j + k) = ticks j ++ ticks k := by
  induction j with
  | zero => simp [ticks]
  | succ j ih =>
    rw [Nat.add_right_comm]
    simp [ticks, ih]

/-- What is done in a stage that goes through `k` items. -/
def phase (description : String) (announced k : Nat) : List Event :=
  .notify (.start description announced) :: (ticks k ++ [.notify .done])

namespace CancelPlan

/-- Follows events up to the first poll that finds the token raised, and says whether there is one. -/
def replay (plan : CancelPlan) : LoadState → List Event → LoadState × Bool
  | s, [] => (s, false)
  | s, .notify n :: rest => plan.replay (s.tell plan n) rest
  | s, .poll :: rest => if s.watch.raised then (s, true) else plan.replay s rest

theorem replay_append (plan : CancelPlan) (s : LoadState) (events later : List Event) :
    plan.replay s (events ++ later) =
      if (plan.replay s events).2 then plan.replay s events else plan.replay (plan.replay s events).1 later := by
  induction events generalizing s with
  | nil => rfl
  | cons event events ih =>
    cases event with
    | notify n => exact ih (s.tell plan n)
    | poll =>
      by_cases raised : s.watch.raised = true
      · simp [replay, raised]
      · simp [replay, raised, ih s]

/-- Nothing that is told raises the token of a load that nobody cancels. -/
theorem replay_never {s : LoadState} (quiet : s.watch.raised = false) (events : List Event) :
    (never.replay s events).2 = false := by
  induction events generalizing s with
  | nil => rfl
  | cons event events ih =>
    cases event with
    | notify n =>
      apply ih
      cases n <;> simp [LoadState.tell, note, never, quiet]
    | poll => simp [replay, quiet, ih quiet]

end CancelPlan

namespace Load

variable {α β σ : Type} {load : Load α} {next : α → Load β} {result : Except LoadError α}
  {later : Except LoadError β} {events rest : List Event} {kind : Event → Prop}

/-- Under every plan, and wherever another load has come to, the load does these events up to the first
poll that finds the token raised. It is cancelled there, and has this result if there is no such poll. -/
def Runs (load : Load α) (result : Except LoadError α) (events : List Event) : Prop :=
  ∀ plan s, load.runFrom plan s =
    (if (plan.replay s events).2 then .error .cancelled else result, (plan.replay s events).1)

theorem runs_pure (a : α) : (pure a : Load α).Runs (.ok a) [] := fun _ _ => rfl

theorem runs_throw (error : LoadError) : (throw error : Load α).Runs (.error error) [] := fun _ _ => rfl

theorem runs_notify (n : Notification) : (notify n).Runs (.ok ()) [.notify n] := fun _ _ => rfl

theorem runs_poll : poll.Runs (.ok ()) [.poll] := by
  intro plan s
  have looked : poll.runFrom plan s = (if s.watch.raised then .error .cancelled else .ok (), s) := by
    show ((if s.watch.raised then throw .cancelled else pure () : Load Unit).runFrom plan s) = _
    cases s.watch.raised <;> rfl
  rw [looked]
  cases raised : s.watch.raised <;> simp [CancelPlan.replay, raised]

theorem runFrom_bind (load : Load α) (next : α → Load β) (plan : CancelPlan) (s : LoadState) :
    (load >>= next).runFrom plan s =
      match load.runFrom plan s with
      | (.ok a, last) => (next a).runFrom plan last
      | (.error error, last) => (.error error, last) := by
  simp only [runFrom, ReaderT.run_bind, ExceptT.run_bind, StateT.run_bind]
  rcases (ReaderT.run load plan).run.run s with ⟨result, last⟩
  cases result <;> rfl

/-- One load after another does first what the first one does, then what the other one does. -/
theorem Runs.bind {a : α} (h : load.Runs (.ok a) events) (k : (next a).Runs later rest) :
    (load >>= next).Runs later (events ++ rest) := by
  intro plan s
  rw [runFrom_bind, h plan s, CancelPlan.replay_append]
  cases stopped : (plan.replay s events).2 with
  | true => simp [stopped]
  | false => exact k plan _

theorem Runs.bind_error {error : LoadError} (h : load.Runs (.error error) events) (next : α → Load β) :
    (load >>= next).Runs (.error error) events := by
  intro plan s
  rw [runFrom_bind, h plan s]
  cases (plan.replay s events).2 <;> rfl

/-- What is told before all else. -/
theorem Runs.notify_bind {next : Unit → Load β} {n : Notification} (k : (next ()).Runs later rest) :
    (notify n >>= next).Runs later (.notify n :: rest) := (runs_notify n).bind k

theorem Runs.poll_bind {next : Unit → Load β} (k : (next ()).Runs later rest) :
    (poll >>= next).Runs later (.poll :: rest) := runs_poll.bind k

theorem runs_forM_poll (items : List α) :
    (items.forM fun _ => poll).Runs (.ok ()) (List.replicate items.length .poll) := by
  induction items with
  | nil => exact runs_pure ()
  | cons item items ih =>
    show (poll >>= fun _ => items.forM fun _ => poll).Runs _ _
    exact ih.poll_bind

/-- A step that may fail does nothing else. -/
theorem Runs.lift_bind {step : Except LoadError α} {a : α} (taken : step = .ok a) (k : (next a).Runs later rest) :
    ((liftM step : Load α) >>= next).Runs later rest := by
  subst taken
  exact k

theorem runs_lift_error {step : Except LoadError α} {error : LoadError} (refused : step = .error error)
    (next : α → Load β) : ((liftM step : Load α) >>= next).Runs (.error error) [] := by
  subst refused
  exact runs_throw error

section Each

variable {step : σ → α → Except LoadError σ} {state mid last : σ} {items : List α} {item : α}

/-- Going through items without a failure. -/
theorem runs_each (h : items.foldlM step state = .ok last) :
    (each step state items).Runs (.ok last) (ticks items.length) := by
  induction items generalizing state with
  | nil =>
    obtain rfl := Except.ok.inj h
    exact runs_pure state
  | cons item items ih =>
    rw [List.foldlM_cons] at h
    obtain ⟨mid, taken, h⟩ := Except.bind_eq_ok.mp h
    unfold each
    rw [List.foldlM_cons]
    simp only [bind_assoc, pure_bind]
    exact .poll_bind (.lift_bind taken (.notify_bind (ih h)))

theorem runs_each_ok (step : σ → α → σ) (state : σ) (items : List α) :
    (each (fun s a => .ok (step s a)) state items).Runs (.ok (items.foldl step state)) (ticks items.length) :=
  runs_each List.foldlM_pure

/-- A failure ends the run after the poll before the item that fails. -/
theorem runs_each_error {error : LoadError} (h : items.foldlM step state = .ok mid)
    (refused : step mid item = .error error) (later : List α) :
    (each step state (items ++ item :: later)).Runs (.error error) (ticks items.length ++ [.poll]) := by
  have first : (each step mid (item :: later)).Runs (.error error) [.poll] := by
    unfold each
    rw [List.foldlM_cons]
    simp only [bind_assoc, pure_bind]
    exact .poll_bind (runs_lift_error refused _)
  have split : each step state (items ++ item :: later) =
      each step state items >>= fun mid => each step mid (item :: later) := List.foldlM_append
  rw [split]
  exact (runs_each h).bind first

end Each

/-- The load has this result, and all that it does is of a kind. -/
def RunsBy (load : Load α) (kind : Event → Prop) (result : Except LoadError α) : Prop :=
  ∃ events, load.Runs result events ∧ ∀ event ∈ events, kind event

/-- The load has this result, whatever it does on the way. -/
abbrev Returns (load : Load α) (result : Except LoadError α) : Prop := load.RunsBy (fun _ => True) result

/-- The load has this result and polls nowhere. -/
abbrev RunsUnpolled (load : Load α) (result : Except LoadError α) : Prop := load.RunsBy (· ≠ .poll) result

theorem Runs.returns (h : load.Runs result events) : load.Returns result := ⟨events, h, fun _ _ => trivial⟩

theorem RunsBy.returns (h : load.RunsBy kind result) : load.Returns result := by
  obtain ⟨events, run, -⟩ := h
  exact run.returns

theorem runsBy_pure (a : α) : (pure a : Load α).RunsBy kind (.ok a) := ⟨[], runs_pure a, by simp⟩

theorem runsBy_throw (error : LoadError) : (throw error : Load α).RunsBy kind (.error error) :=
  ⟨[], runs_throw error, by simp⟩

theorem runsBy_notify {n : Notification} (h : kind (.notify n)) : (notify n).RunsBy kind (.ok ()) :=
  ⟨[.notify n], runs_notify n, by simpa using h⟩

namespace RunsBy

theorem bind {a : α} (h : load.RunsBy kind (.ok a)) (k : (next a).RunsBy kind later) :
    (load >>= next).RunsBy kind later := by
  obtain ⟨events, first, here⟩ := h
  obtain ⟨rest, second, there⟩ := k
  refine ⟨events ++ rest, first.bind second, ?_⟩
  intro event he
  exact (List.mem_append.mp he).elim (here event) (there event)

theorem bind_error {error : LoadError} (h : load.RunsBy kind (.error error)) (next : α → Load β) :
    (load >>= next).RunsBy kind (.error error) := by
  obtain ⟨events, run, here⟩ := h
  exact ⟨events, run.bind_error next, here⟩

/-- The result of two loads, one after the other, is that of their results. -/
theorem bind_result {after : α → Except LoadError β} (h : load.RunsBy kind result)
    (k : ∀ a, (next a).RunsBy kind (after a)) : (load >>= next).RunsBy kind (result >>= after) := by
  cases result with
  | error error => exact h.bind_error next
  | ok a => exact h.bind (k a)

theorem foldlM {step : σ → α → Load σ} {bare : σ → α → Except LoadError σ}
    (h : ∀ s a, (step s a).RunsBy kind (bare s a)) (state : σ) (items : List α) :
    (items.foldlM step state).RunsBy kind (items.foldlM bare state) := by
  induction items generalizing state with
  | nil => exact runsBy_pure state
  | cons item items ih =>
    rw [List.foldlM_cons, List.foldlM_cons]
    exact (h state item).bind_result ih

theorem outcome_eq (h : load.RunsBy kind result) : load.outcome.1 = result := by
  obtain ⟨events, run, -⟩ := h
  have quiet : (CancelPlan.never.replay (.begin .never) events).2 = false := CancelPlan.replay_never rfl events
  simp [outcome, CancelPlan.run, run .never, quiet]

theorem unique {other : Except LoadError α} (h : load.RunsBy kind result) (k : load.RunsBy kind other) :
    result = other := h.outcome_eq.symm.trans k.outcome_eq

end RunsBy

theorem Runs.of_outcome (h : load.Runs result events) : load.Runs load.outcome.1 events := by
  rwa [h.returns.outcome_eq]

/-- Going through items one by one returns what the bare steps do. -/
theorem returns_each (step : σ → α → Except LoadError σ) (state : σ) (items : List α) :
    (each step state items).Returns (items.foldlM step state) := by
  cases taken : items.foldlM step state with
  | ok last => exact (runs_each taken).returns
  | error error =>
    obtain ⟨front, item, rest, mid, rfl, before, failed⟩ := exists_failing taken
    exact (runs_each_error before failed rest).returns

end Load

/-- A plan that lets a load succeed has not changed its result. -/
theorem CancelPlan.outcome_of_run {α : Type} {plan : CancelPlan} {load : Load α} {result : Except LoadError α} {a : α}
    (returns : load.Returns result) (h : (plan.run load).1 = .ok a) : load.outcome.1 = .ok a := by
  obtain ⟨events, run, -⟩ := id returns
  have under : (if (plan.replay (.begin plan) events).2 then .error .cancelled else result) = .ok a := by
    rwa [CancelPlan.run, run plan] at h
  rw [returns.outcome_eq]
  split at under
  · cases under
  · exact under

theorem CancelPlan.run_never {α : Type} (load : Load α) : (never.run load).1 = load.outcome.1 := rfl

end Retention
