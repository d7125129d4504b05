import Retention.Proofs.Sweeps

namespace Retention

open Estimates

variable {preds : Array (List Nat)} {e : Estimates} {s : Sweep} {sweeps d m r v : Nat}

/-- No visit would change an estimate. -/
def Stable (preds : Array (List Nat)) (e : Estimates) : Prop :=
  ∀ r, 0 < r → r < preds.size → ∀ m, e.meetAll (preds.getD r []) = some m → (e[r]?).join = some m

namespace Sweep

theorem estimates_visit (hm : s.estimates.meetAll (preds.getD r []) = some m) :
    (s.visit preds r).estimates = s.estimates.assign r m := by
  unfold visit
  rw [hm]
  by_cases same : (s.estimates[r]?).join = some m
  · simp only [same, if_true]
    exact (assign_same same).symm
  · simp only [same, if_false]
    rfl

theorem visit_eq_or_changed (preds : Array (List Nat)) (s : Sweep) (r : Nat) :
    s.visit preds r = s ∨ (s.visit preds r).changed = r :: s.changed := by
  unfold visit
  split
  · exact .inl rfl
  · split
    · exact .inl rfl
    · exact .inr rfl

theorem changed_suffix (preds : Array (List Nat)) (s : Sweep) (visits : List Nat) :
    s.changed <:+ (visits.foldl (visit preds) s).changed := by
  induction visits generalizing s with
  | nil => exact List.suffix_refl _
  | cons r rest ih =>
    have later := ih (s.visit preds r)
    rw [List.foldl_cons]
    cases visit_eq_or_changed preds s r with
    | inl same =>
      rw [same] at later ⊢
      exact later
    | inr more =>
      rw [more] at later
      exact (List.suffix_cons r s.changed).trans later

/-- A run without changes has left every vertex as it was. -/
theorem visit_eq_of_unchanged {visits : List Nat}
    (h : (visits.foldl (visit preds) s).changed = []) :
    visits.foldl (visit preds) s = s ∧ ∀ r ∈ visits, s.visit preds r = s := by
  induction visits generalizing s with
  | nil => exact ⟨rfl, fun r hr => absurd hr List.not_mem_nil⟩
  | cons r rest ih =>
    cases visit_eq_or_changed preds s r with
    | inl same =>
      rw [List.foldl_cons, same] at h ⊢
      have later := ih h
      refine ⟨later.1, ?_⟩
      intro x hx
      cases List.mem_cons.mp hx with
      | inl hx => exact hx ▸ same
      | inr hx => exact later.2 x hx
    | inr more =>
      have later := changed_suffix preds (s.visit preds r) rest
      rw [List.foldl_cons] at h
      rw [h, more] at later
      exact absurd (List.suffix_nil.mp later) (List.cons_ne_nil r s.changed)

theorem foldl_visit_of_stable (h : Stable preds s.estimates) {visits : List Nat}
    (hv : ∀ r ∈ visits, 0 < r ∧ r < preds.size) : visits.foldl (visit preds) s = s := by
  induction visits with
  | nil => rfl
  | cons r rest ih =>
    have hr := hv r List.mem_cons_self
    have same : s.visit preds r = s := by
      unfold visit
      split
      · rfl
      · rename_i m hm
        rw [if_pos (h r hr.1 hr.2 m hm)]
    rw [List.foldl_cons, same]
    exact ih fun x hx => hv x (List.mem_cons_of_mem _ hx)

end Sweep

namespace Sweeping

theorem visit (numbered : Numbered preds) (h : Sweeping preds s.estimates sweeps r) (hr : 0 < r)
    (hs : r < preds.size) : Sweeping preds (s.visit preds r).estimates sweeps (r + 1) := by
  obtain ⟨m, hm⟩ := h.exists_meetsAt numbered hr hs
  rw [Sweep.estimates_visit hm.found]
  exact h.assign numbered hr hs hm

theorem visits (numbered : Numbered preds) {count : Nat} (h : Sweeping preds s.estimates sweeps r)
    (hr : 0 < r) (hc : r + count = preds.size) :
    Sweeping preds ((List.range' r count).foldl (Sweep.visit preds) s).estimates sweeps preds.size := by
  induction count generalizing r s with
  | zero => exact hc ▸ h
  | succ count ih =>
    rw [List.range'_succ, List.foldl_cons]
    exact ih (h.visit numbered hr (by omega)) (by omega) (by omega)

/-- Once a stable state is reached, chains hold the dominators and nothing else. -/
theorem mem_chain_iff_unavoidable (numbered : Numbered preds) (h : Sweeping preds e sweeps 1)
    (hs : 0 < sweeps) (stable : Stable preds e) (hv : v < preds.size) :
    d ∈ e.chain v ↔ Unavoidable preds d v := by
  have all : ∀ p, p < preds.size → e.isDefined p := fun p hp => (h.defined p).mpr ⟨hp, .inr hs⟩
  have step : ∀ p v, v < preds.size → p ∈ preds.getD v [] → d ≠ v → d ∉ e.chain p → d ∉ e.chain v := by
    intro p v hv hp hne away
    rcases Nat.eq_zero_or_pos v with rfl | hpos
    · exact fun hc => hne (mem_chain_zero.mp hc)
    · have hdp := all p (numbered.inside v p hp)
      obtain ⟨m, hm⟩ := exists_meetAll hp hdp
      have estimate := stable v hpos hv m hm
      rw [h.falling v hpos (all v hv), Option.some.injEq] at estimate
      rw [mem_chain_of_pos hpos, estimate, mem_chain_meetAll hm]
      rintro (hc | hc)
      · exact hne hc
      · exact away (hc p hp hdp)
  constructor
  · intro hd k hb
    induction hb with
    | entry hne => exact hne (mem_chain_zero.mp hd)
    | @forward k p v _ hp hpv hne ih =>
      exact step p v hv hp hne (ih (numbered.inside v p hp)) hd
    | @backward k p v _ hp hne ih =>
      exact step p v hv hp hne (ih (numbered.inside v p hp)) hd
  · exact h.mem_chain_of_unavoidable (all v hv)

/-- When every way past a vertex has had its sweeps, nothing is left to change. -/
theorem stable (h : Sweeping preds e sweeps 1) {K : Nat} (hK : K < sweeps)
    (ways : ∀ d v, ¬ Unavoidable preds d v → ∃ k ≤ K, Bypass preds d k v) : Stable preds e := by
  intro r hr hs m hm
  have hd : e.isDefined r := (h.defined r).mpr ⟨hs, .inr (by omega)⟩
  rw [h.falling r hr hd, Option.some.injEq]
  apply eq_of_same_chain (e := e)
  intro u
  rw [mem_chain_meetAll hm]
  constructor
  · intro hu p hp hdp
    -- A predecessor without `u` on its chain gives a way to `r` past `u`, which has been cleared.
    by_contra away
    have avoidable : ¬ Unavoidable preds u p := fun hc => away (h.mem_chain_of_unavoidable hdp hc)
    have hle := le_of_mem_chain hu
    have hlt := e.climb_lt hr
    have past : ¬ Unavoidable preds u r := fun hc => avoidable (hc.of_pred (by omega) hp)
    obtain ⟨k, hk, hb⟩ := ways u r past
    exact h.cleared u k r hs hb (.inl (by omega)) (mem_chain_of_climb hr hu)
  · exact h.shrinking r hr hd u

end Sweeping

namespace Sweep

/-- All visits of one sweep. -/
def swept (preds : Array (List Nat)) (e : Estimates) : Sweep :=
  (List.range' 1 (preds.size - 1)).foldl (visit preds) ⟨e, []⟩

theorem pass_runs (preds : Array (List Nat)) (e : Estimates) :
    (pass preds e).Runs (.ok (swept preds e)) (ticks (preds.size - 1)) := by
  have run := Load.runs_each_ok (visit preds) ⟨e, []⟩ (List.range' 1 (preds.size - 1))
  rwa [List.length_range'] at run

theorem sweeping_swept (numbered : Numbered preds) (h : Sweeping preds e sweeps 1) :
    Sweeping preds (swept preds e).estimates (sweeps + 1) 1 := by
  have hn := numbered.nonempty
  have hc : 1 + (preds.size - 1) = preds.size := by omega
  exact (Sweeping.visits (s := ⟨e, []⟩) numbered h Nat.one_pos hc).wrap

theorem stable_of_unchanged (h : (swept preds e).changed = []) :
    (swept preds e).estimates = e ∧ Stable preds e := by
  have same := visit_eq_of_unchanged h
  refine ⟨congrArg Sweep.estimates same.1, ?_⟩
  intro r hr hs m hm
  have hv := same.2 r (List.mem_range'_1.mpr ⟨hr, by omega⟩)
  by_contra hne
  have changed : (visit preds ⟨e, []⟩ r).changed = [r] := by
    unfold visit
    simp only [hm, hne, if_false]
  rw [hv] at changed
  exact absurd changed (by simp)

theorem swept_of_stable (h : Stable preds e) : swept preds e = ⟨e, []⟩ := by
  apply foldl_visit_of_stable (s := ⟨e, []⟩) h
  intro r hr
  have hm := List.mem_range'_1.mp hr
  omega

variable {bound passes : Nat} {failure : Nat → List Nat → LoadError} {result : Except LoadError (Estimates × Nat)}

theorem settle_still (still : (swept preds e).changed = []) :
    (settle preds bound failure passes e).Runs (.ok (e, passes + 1)) (ticks (preds.size - 1)) := by
  rw [settle, ← List.append_nil (ticks _)]
  refine (pass_runs preds e).bind ?_
  rw [still, (stable_of_unchanged still).1]
  exact Load.runs_pure _

theorem settle_spent (changed : (swept preds e).changed ≠ []) (spent : bound ≤ passes + 1) :
    (settle preds bound failure passes e).Runs (.error (failure (passes + 1) (swept preds e).changed.reverse))
      (ticks (preds.size - 1)) := by
  rw [settle, ← List.append_nil (ticks _)]
  refine (pass_runs preds e).bind ?_
  simp only [List.isEmpty_eq_false_iff.mpr changed, spent, if_true, Bool.false_eq_true, if_false]
  exact Load.runs_throw _

theorem settle_more_runs {events : List Event} (changed : (swept preds e).changed ≠ []) (more : passes + 1 < bound)
    (later : (settle preds bound failure (passes + 1) (swept preds e).estimates).Runs result events) :
    (settle preds bound failure passes e).Runs result (ticks (preds.size - 1) ++ events) := by
  rw [settle]
  refine (pass_runs preds e).bind ?_
  simp only [List.isEmpty_eq_false_iff.mpr changed, Nat.not_le_of_lt more, Bool.false_eq_true, if_false]
  exact later

theorem settle_more (changed : (swept preds e).changed ≠ []) (more : passes + 1 < bound)
    (later : (settle preds bound failure (passes + 1) (swept preds e).estimates).Returns result) :
    (settle preds bound failure passes e).Returns result := by
  obtain ⟨events, run, -⟩ := later
  exact (settle_more_runs changed more run).returns

/-- The sweeps settle as soon as the ways past all vertices have had their turn, and no bound that
allows for these sweeps is noticed. -/
theorem exists_settled (numbered : Numbered preds) {K : Nat}
    (ways : ∀ d v, ¬ Unavoidable preds d v → ∃ k ≤ K, Bypass preds d k v)
    (h : Sweeping preds e sweeps 1) (hs : sweeps ≤ K + 1) :
    ∃ e' n, sweeps < n ∧ n ≤ K + 2 ∧ Sweeping preds e' n 1 ∧ Stable preds e' ∧
      ∀ bound failure, n ≤ bound → (settle preds bound failure sweeps e).Returns (.ok (e', n)) := by
  -- Induction on the sweeps that may still change something.
  induction left : K + 1 - sweeps generalizing sweeps e with
  | zero =>
    have stable := h.stable (K := K) (by omega) ways
    have same := swept_of_stable stable
    have next := sweeping_swept numbered h
    rw [same] at next
    refine ⟨e, sweeps + 1, by omega, by omega, next, stable, ?_⟩
    intro bound failure _
    exact (settle_still (by rw [same])).returns
  | succ left ih =>
    have next := sweeping_swept numbered h
    by_cases hc : (swept preds e).changed = []
    · obtain ⟨same, stable⟩ := stable_of_unchanged hc
      rw [same] at next
      exact ⟨e, sweeps + 1, by omega, by omega, next, stable, fun bound failure _ => (settle_still hc).returns⟩
    · obtain ⟨e', n, hn, hK, last, stable, returns⟩ := ih next (by omega) (by omega)
      refine ⟨e', n, by omega, hK, last, stable, ?_⟩
      intro bound failure hb
      exact settle_more hc (by omega) (returns bound failure hb)

end Sweep

end Retention
