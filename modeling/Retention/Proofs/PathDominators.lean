import Retention.Proofs.LiveAnswers
import Retention.Proofs.QueryAnswers
import Retention.Proofs.ShortestPaths

namespace Retention

namespace HeapGraph

variable {g : HeapGraph} {d u v : Nat}

/-- What all paths to an object have in common they have before they come to it. -/
theorem OnEveryPath.of_holds (h : g.OnEveryPath d v) (hold : g.Holds u v) (other : d ≠ v) : g.OnEveryPath d u := by
  intro path hp
  cases List.mem_append.mp (h _ (.step hp hold)) with
  | inl before => exact before
  | inr last => exact absurd (List.mem_singleton.mp last) other

end HeapGraph

namespace TrailSearch

variable {g : HeapGraph} {follow : OutEdge → Bool} {s : TrailSearch} {rest : List Trail} {i : Nat} {t : Trail}

/-- A trail was found together with the trail to every stop of it. -/
theorem Growing.found_suffix (h : Growing g follow s rest) (ht : s.trailOf i = some t) :
    ∀ stop before, stop :: before <:+ t → s.trailOf stop.place = some (stop :: before) := by
  induction t generalizing i with
  | nil =>
    intro stop before within
    exact absurd (List.suffix_nil.mp within) (List.cons_ne_nil _ _)
  | cons last front ih =>
    intro stop before within
    cases List.suffix_cons_iff.mp within with
    | inl whole =>
      obtain ⟨via, _, ended⟩ := h.ends i _ ht
      obtain ⟨rfl, rfl⟩ := List.cons.inj whole
      obtain ⟨rfl, rfl⟩ := List.cons.inj ended
      exact ht
    | inr earlier =>
      cases h.found i _ ht with
      | inl root =>
        obtain ⟨r, -, same⟩ := root
        rw [(List.cons.inj same).2] at earlier
        exact absurd (List.suffix_nil.mp earlier) (List.cons_ne_nil _ _)
      | inr grown =>
        obtain ⟨u, known, e, hu, -, -, same⟩ := grown
        obtain rfl : front = known := (List.cons.inj same).2
        exact ih hu stop before earlier

/-- A trail does not come to the same object twice. -/
theorem Growing.nodup_places (h : Growing g follow s rest) (ht : s.trailOf i = some t) : (t.map Stop.place).Nodup := by
  have known := h.found_suffix ht
  clear ht
  induction t with
  | nil => exact List.nodup_nil
  | cons stop before ih =>
    rw [List.map_cons, List.nodup_cons]
    refine ⟨?_, ih fun other front within => known other front (within.trans (List.suffix_cons stop before))⟩
    intro again
    -- The object would have been found by this trail and by a shorter one.
    obtain ⟨other, there, same⟩ := List.mem_map.mp again
    obtain ⟨later, front, rfl⟩ := List.append_of_mem there
    have first := known other front ((List.suffix_append later _).trans (List.suffix_cons _ _))
    rw [same, known stop _ (List.suffix_refl _)] at first
    have lengths := congrArg List.length (Option.some.inj first)
    simp only [List.length_cons, List.length_append] at lengths
    omega

end TrailSearch

namespace Snapshot

open HeapGraph TrailSearch

variable {s : Snapshot} {id : ObjectId} {i d : Nat} {t : Trail}

/-- The ids of the steps of a trail that are flagged, from its end. -/
def flagged (s : Snapshot) (awaited : Option Nat) (t : Trail) : List ObjectId :=
  ((s.steps awaited t).filter PathStep.isDominator).map PathStep.id

theorem flagged_met (s : Snapshot) (stop : Stop) (before : Trail) :
    s.flagged (some stop.place) (stop :: before) =
      s.graph.idOf stop.place :: s.flagged (s.idomPlaceAt stop.place) before := by
  simp [flagged, steps_cons]

theorem flagged_other {awaited : Option Nat} {stop : Stop} (other : awaited ≠ some stop.place) (before : Trail) :
    s.flagged awaited (stop :: before) = s.flagged awaited before := by
  simp [flagged, steps_cons, other]

theorem flagged_none (s : Snapshot) (t : Trail) : s.flagged none t = [] := by
  induction t with
  | nil => rfl
  | cons stop before ih => exact (flagged_other (by simp) before).trans ih

namespace Loaded

/-- At a dominator the chain above it is awaited next, if its nearest object is on the trail before. -/
theorem flagged_dominator (l : s.Loaded) (reached : s.graph.StronglyReachable d) {stop : Stop} (here : stop.place = d)
    {before : Trail} (above : ∀ e, s.tree.idomOf d = some (.node e) →
      s.flagged (some e) before = s.idsOf (e :: s.tree.chainOf e)) :
    s.flagged (some d) (stop :: before) = s.idsOf (d :: s.tree.chainOf d) := by
  subst here
  rw [flagged_met, l.tree.chainOf_eq l.wf reached, idomPlaceAt]
  cases idom : s.tree.idomOf stop.place with
  | none => exact absurd reached ((l.tree.unreached _).mp idom)
  | some dominator =>
    cases dominator with
    | superRoot => exact congrArg _ (flagged_none s before)
    | node e => exact congrArg _ (above e idom)

/-- A trail of strong references meets each dominator of its end, and the nearest of them first. -/
theorem flagged_of_trail (l : s.Loaded) {search : TrailSearch} {rest : List Trail}
    (grow : Growing s.graph OutEdge.strong search rest) (ht : search.trailOf i = some t) :
    ∀ d, s.graph.OnEveryPath d i → s.flagged (some d) t = s.idsOf (d :: s.tree.chainOf d) := by
  refine grow.induct (P := fun i t => ∀ d, s.graph.OnEveryPath d i →
    s.flagged (some d) t = s.idsOf (d :: s.tree.chainOf d)) ?_ ?_ ht
  · intro r hr d every
    obtain rfl : d = r := List.mem_singleton.mp (every _ (.root hr))
    refine l.flagged_dominator ⟨_, .root hr⟩ rfl ?_
    intro e idom
    -- Nothing else is on the path that consists of the root alone.
    obtain ⟨-, other, above, -⟩ := (l.tree.below d e).mp idom
    exact absurd (List.mem_singleton.mp (above _ (.root hr))) other
  · intro u t e hu he strong _ ih d every
    have hold := mem_outEdges_holds he strong
    by_cases here : d = e.target
    · subst here
      refine l.flagged_dominator ⟨_, .step (rootPath_of_trail grow hu) hold⟩ rfl ?_
      intro above idom
      obtain ⟨-, other, every, -⟩ := (l.tree.below _ above).mp idom
      exact ih above (every.of_holds hold other)
    · have other : some d ≠ some e.target := fun same => here (Option.some.inj same)
      rw [extend, flagged_other other]
      exact ih d (every.of_holds hold here)

/-- Without strong references that reach it, an object has no dominators to be met. -/
theorem flagged_unreached (l : s.Loaded) (unreached : ¬ s.graph.StronglyReachable i) (via : Option Nat)
    (before : Trail) : s.flagged (some i) (⟨i, via⟩ :: before) = [s.graph.idOf i] := by
  have idom := (l.tree.unreached i).mpr unreached
  have nothing : s.idomPlaceAt i = none := by rw [idomPlaceAt, idom]
  rw [flagged_met s ⟨i, via⟩ before, nothing, flagged_none]

/-- The objects on a trail have different ids. -/
theorem nodup_ids (l : s.Loaded) {rest : List Trail}
    (grow : Growing s.graph (fun _ => true) s.graph.fullSearch rest) (ht : s.graph.fullSearch.trailOf i = some t) :
    (t.map fun stop => s.graph.idOf stop.place).Nodup := by
  have ids : t.map (fun stop => s.graph.idOf stop.place) = s.idsOf (t.map Stop.place) := by
    rw [idsOf, List.map_map]
    rfl
  have inside : ∀ place ∈ t.map Stop.place, place < s.graph.size := by
    intro place hp
    obtain ⟨stop, hs, rfl⟩ := List.mem_map.mp hp
    exact l.wf.trail_lt ht stop hs
  rw [ids]
  exact (grow.nodup_places ht).map_on fun a ha b hb same => l.wf.idOf_inj (inside a ha) (inside b hb) same

end Loaded

theorem exists_trail_of_path {steps : List PathStep} (h : s.path id = .ok steps) :
    ∃ i t, s.graph.lookup id = some i ∧ s.trailOf i = some t ∧ steps = (s.steps (some i) t).reverse := by
  unfold path at h
  obtain ⟨i, placed, rest⟩ := Except.bind_eq_ok.mp h
  cases found : s.graph.lookup id with
  | none =>
    rw [placeOf_eq_error found] at placed
    cases placed
  | some j =>
    rw [placeOf_eq_ok found] at placed
    obtain rfl := Except.ok.inj placed
    cases ht : s.trailOf j with
    | none =>
      rw [ht] at rest
      cases rest
    | some t =>
      rw [ht] at rest
      exact ⟨j, t, rfl, ht, (Except.ok.inj rest).symm⟩

/-- No object is twice on a path. The steps of a path that are flagged are the dominators of its end,
from the root down, and the end itself; where strong references do not reach the end, it is the only
one. -/
theorem path_flags_dominators {plan : CancelPlan} {expected : Nat} {records : List Record}
    (loaded : (plan.run (loadExpecting expected records)).1 = .ok s) :
    (HeapGraph.build expected records).outcome.1 = .ok s.graph ∧
    ∀ id steps, s.path id = .ok steps → (steps.map PathStep.id).Nodup ∧ ∃ i, s.graph.lookup id = some i ∧
      (s.graph.StronglyReachable i → ∃ chain, s.dominatorsOf id = .ok chain ∧
        (steps.filter PathStep.isDominator).map PathStep.id = chain.reverse ++ [id]) ∧
      (¬ s.graph.StronglyReachable i → (steps.filter PathStep.isDominator).map PathStep.id = [id]) := by
  have outcome := outcome_of_run loaded
  obtain ⟨built, l⟩ := loaded_of_load outcome
  have nodup := nodup_roots_of_build built
  refine ⟨built, fun id steps asked => ?_⟩
  obtain ⟨i, t, found, ht, rfl⟩ := exists_trail_of_path asked
  obtain ⟨grow, -, kept, -⟩ := l.wf.fullSearch_ends
  have full := ht
  rw [trailOf_of_load outcome] at full
  have named : s.graph.idOf i = id := l.wf.idOf_of_lookup found
  have flags : ((s.steps (some i) t).reverse.filter PathStep.isDominator).map PathStep.id =
      (s.flagged (some i) t).reverse := by
    rw [List.filter_reverse, List.map_reverse]
    rfl
  refine ⟨?_, i, found, ?_, ?_⟩
  · rw [List.map_reverse, List.nodup_reverse, map_id_steps]
    exact l.nodup_ids grow full
  · intro reached
    refine ⟨_, l.dominatorsOf_eq_ok found reached, ?_⟩
    obtain ⟨path, hp⟩ := reached
    obtain ⟨strong, hs, -⟩ := l.wf.exists_least_trail nodup hp
    obtain rfl := Option.some.inj (full.symm.trans (kept i strong hs))
    have chain := l.flagged_of_trail l.wf.strongSearch_ends.1 hs i (.refl _ i)
    rw [flags, chain, idsOf, List.map_cons, List.reverse_cons, named]
    rfl
  · intro unreached
    obtain ⟨via, before, rfl⟩ := grow.ends i t full
    rw [flags, l.flagged_unreached unreached, named]
    rfl

/-- All paths start at the one root, and the root alone is on each of the paths to the loop. -/
theorem dominatorsOf_watchedLoop (l : s.Loaded) (built : (HeapGraph.build 7 watchedLoop).outcome.1 = .ok s.graph) :
    s.dominatorsOf ⟨3⟩ = .ok [⟨1⟩] := by
  obtain ⟨roots, -, first, third, -, -, held, -⟩ := build_watchedLoop built
  have root : s.graph.RootPath 1 [1] := .root (roots ▸ List.mem_singleton_self 1)
  have path : s.graph.RootPath 0 ([1] ++ [0]) := .step root (holds_iff.mpr held)
  have start : ∀ i, s.graph.OnEveryPath 1 i := by
    intro i path hp
    induction hp with
    | root hr =>
      rw [roots] at hr
      exact List.mem_singleton.mpr (List.mem_singleton.mp hr).symm
    | step _ _ ih => exact List.mem_append_left _ ih
  have above : s.tree.idomOf 0 = some (.node 1) := by
    refine (l.tree.below 0 1).mpr ⟨⟨_, path⟩, by decide, start 0, ?_⟩
    intro w other every
    have on : w = 1 ∨ w = 0 := by simpa using every _ path
    rw [on.resolve_right other]
    exact .refl _ 1
  have top : s.tree.idomOf 1 = some .superRoot :=
    (l.tree.shared 1).mpr ⟨⟨_, root⟩, fun w every => List.mem_singleton.mp (every _ root)⟩
  have ended : s.tree.chainOf 1 = [] := by rw [l.tree.chainOf_eq l.wf ⟨_, root⟩, top]
  have chain : s.tree.chainOf 0 = [1] := by
    rw [l.tree.chainOf_eq l.wf ⟨_, path⟩, above]
    exact congrArg _ ended
  have named : s.graph.idOf 1 = ⟨1⟩ := l.wf.idOf_of_lookup first
  rw [l.dominatorsOf_eq_ok third ⟨_, path⟩, chain, idsOf, List.map_singleton, named]

theorem path_flags_dominators_watchedLoop : ∃ s,
    (CancelPlan.never.run (loadExpecting 7 watchedLoop)).1 = .ok s ∧
    (∃ steps, s.path ⟨3⟩ = .ok steps ∧ s.dominatorsOf ⟨3⟩ = .ok [⟨1⟩] ∧
      (steps.filter PathStep.isDominator).map PathStep.id = [⟨1⟩, ⟨3⟩]) ∧
    ∃ steps, s.path ⟨4⟩ = .ok steps ∧ (steps.filter PathStep.isDominator).map PathStep.id = [⟨4⟩] := by
  obtain ⟨s, outcome⟩ := exists_load_watchedLoop
  obtain ⟨built, l⟩ := loaded_of_load outcome
  obtain ⟨-, -, -, third, fourth, -⟩ := build_watchedLoop built
  obtain ⟨strong, ⟨weak, unheld⟩, -⟩ := reachable_watchedLoop built
  obtain ⟨steps, asked⟩ := (l.path_answered (trailOf_of_load outcome) third).1.mpr strong.reachable
  obtain ⟨others, also⟩ := (l.path_answered (trailOf_of_load outcome) fourth).1.mpr weak
  have loaded : (CancelPlan.never.run (loadExpecting 7 watchedLoop)).1 = .ok s := by rw [CancelPlan.run_never, outcome]
  obtain ⟨-, flags⟩ := path_flags_dominators loaded
  obtain ⟨-, i, at3, chained, -⟩ := flags ⟨3⟩ steps asked
  obtain ⟨-, j, at4, -, single⟩ := flags ⟨4⟩ others also
  obtain rfl := Option.some.inj (third.symm.trans at3)
  obtain rfl := Option.some.inj (fourth.symm.trans at4)
  obtain ⟨chain, dominators, flagged⟩ := chained strong
  have known := dominatorsOf_watchedLoop l built
  obtain rfl := Except.ok.inj (dominators.symm.trans known)
  exact ⟨s, loaded, ⟨steps, asked, known, flagged⟩, others, also, single unheld⟩

end Snapshot

end Retention
