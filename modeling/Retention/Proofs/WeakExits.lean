import Retention.Proofs.ShortestPaths

namespace Retention

namespace HeapGraph

open TrailSearch

/-- Stages of the search along strong references: where the search stands, what is left of the wave, and
the objects found so far in the order in which they were found. -/
inductive Discovery (g : HeapGraph) : TrailSearch → List Trail → List Nat → Prop where
  | start : Discovery g g.blankSearch (g.roots.map fun r => [⟨r, none⟩]) []
  | skip {s : TrailSearch} {stop : Stop} {before : Trail} {rest : List Trail} {order : List Nat} :
    Discovery g s ((stop :: before) :: rest) order → s.trailOf stop.place ≠ none →
      Discovery g (s.arrive OutEdge.strong (stop :: before)) rest order
  | find {s : TrailSearch} {stop : Stop} {before : Trail} {rest : List Trail} {order : List Nat} :
    Discovery g s ((stop :: before) :: rest) order → s.trailOf stop.place = none →
      Discovery g (s.arrive OutEdge.strong (stop :: before)) rest (order ++ [stop.place])
  | turn {s : TrailSearch} {order : List Nat} :
    Discovery g s [] order → Discovery g { s with next := #[] } s.next.toList order

/-- The order in which the search along strong references finds objects. -/
def DiscoveryOrder (g : HeapGraph) (order : List Nat) : Prop := g.Discovery g.strongSearch [] order

/-- Where the trail to an object goes on along references that are not strong. -/
def weakExits (g : HeapGraph) (s : TrailSearch) (u : Nat) : List Trail :=
  (s.trailOf u).elim [] fun t => ((g.outEdges u).filter fun e => !e.strong).map (extend t)

variable {g : HeapGraph} {i u v : Nat} {s after : TrailSearch} {t : Trail} {rest : List Trail} {e : OutEdge}
  {order : List Nat}

/-- The order tells which objects were found, how far their trails go, and what was kept for later. -/
structure Discovered (g : HeapGraph) (s : TrailSearch) (order : List Nat) : Prop where
  mem_iff : ∀ i, i ∈ order ↔ ∃ t, s.trailOf i = some t
  nodup : order.Nodup
  sorted : order.Pairwise fun u v => ∀ front t, s.trailOf u = some front → s.trailOf v = some t →
    front.length ≤ t.length
  waiting : s.waiting.toList = order.flatMap (g.weakExits s)

theorem Discovered.find (h : g.Discovered s order) (find : Finds g OutEdge.strong s t i after)
    (early : ∀ u front, s.trailOf u = some front → front.length ≤ t.length) : g.Discovered after (order ++ [i]) := by
  have unlisted : i ∉ order := by
    intro listed
    obtain ⟨known, hk⟩ := (h.mem_iff i).mp listed
    rw [find.unfound] at hk
    cases hk
  have other : ∀ u ∈ order, after.trailOf u = s.trailOf u := by
    intro u hu
    have apart : u ≠ i := fun same => unlisted (same ▸ hu)
    rw [find.trailOf_eq, if_neg apart]
  refine ⟨?_, ?_, ?_, ?_⟩
  · intro k
    rw [List.mem_append, List.mem_singleton, h.mem_iff, find.trailOf_eq]
    by_cases same : k = i <;> simp [same]
  · simpa [List.nodup_append, h.nodup] using fun u hu (same : u = i) => unlisted (same ▸ hu)
  · rw [List.pairwise_append]
    refine ⟨h.sorted.imp_of_mem ?_, List.pairwise_singleton _ i, ?_⟩
    · intro u v hu hv sorted
      rw [other u hu, other v hv]
      exact sorted
    · intro u hu k hk front t' found found'
      obtain rfl := List.mem_singleton.mp hk
      rw [other u hu] at found
      obtain rfl := Option.some.inj (find.found.symm.trans found')
      exact early u front found
  · have same : order.flatMap (g.weakExits after) = order.flatMap (g.weakExits s) := by
      refine List.flatMap_congr fun u hu => ?_
      rw [weakExits, weakExits, other u hu]
    have new : g.weakExits after i = ((g.outEdges i).filter fun e => !e.strong).map (extend t) := by
      rw [weakExits, find.found, Option.elim_some]
    rw [find.waiting_eq, List.flatMap_append, List.flatMap_singleton, same, new, h.waiting]

theorem Discovered.length_le (h : g.Discovered s order) {front : Trail} (hu : s.trailOf u = some front)
    (hv : s.trailOf v = some t) (le : order.idxOf u ≤ order.idxOf v) : front.length ≤ t.length := by
  have listed := (h.mem_iff u).mpr ⟨front, hu⟩
  have listed' := (h.mem_iff v).mpr ⟨t, hv⟩
  rcases Nat.lt_or_eq_of_le le with less | same
  · have sorted := List.pairwise_iff_getElem.mp h.sorted _ _ (List.idxOf_lt_length_of_mem listed)
      (List.idxOf_lt_length_of_mem listed') less
    rw [List.getElem_idxOf, List.getElem_idxOf] at sorted
    exact sorted front t hu hv
  · obtain rfl := (List.idxOf_inj listed).mp same
    exact Nat.le_of_eq (congrArg List.length (Option.some.inj (hu.symm.trans hv)))

theorem discovered_blankSearch (g : HeapGraph) : g.Discovered g.blankSearch [] :=
  ⟨by simp [trailOf_blankSearch], List.nodup_nil, List.Pairwise.nil, rfl⟩

/-- At every stage the search takes up trails in order, and the order tells what it has found. -/
theorem Discovery.discovered (wf : g.WellFormed) (nodup : g.roots.Nodup) (h : g.Discovery s rest order) :
    Growing g OutEdge.strong s rest ∧ (∃ n, Ranked g g.trailRank s rest n) ∧ g.Discovered s order := by
  induction h with
  | start => exact ⟨g.growing_blankSearch _, ⟨1, ranked_blankSearch nodup⟩, g.discovered_blankSearch⟩
  | @skip s stop before rest order _ known ih =>
    obtain ⟨grow, ⟨n, ranked⟩, found⟩ := ih
    refine ⟨grow.arrive wf, ⟨n, wf.ranked_arrive grow ranked⟩, ?_⟩
    cases (grow.arrival_cons wf).2 with
    | inl skip =>
      obtain ⟨_, -, same⟩ := skip
      rwa [same]
    | inr find => exact absurd find.unfound known
  | @find s stop before rest order _ unfound ih =>
    obtain ⟨grow, ⟨n, ranked⟩, found⟩ := ih
    refine ⟨grow.arrive wf, ⟨n, wf.ranked_arrive grow ranked⟩, ?_⟩
    cases (grow.arrival_cons wf).2 with
    | inl skip =>
      obtain ⟨known, hk, -⟩ := skip
      exact absurd (hk.symm.trans unfound) (by simp)
    | inr find =>
      refine found.find find fun u front hu => ?_
      have early := ((ranked.early u front hu).2 _ List.mem_cons_self).noLater.length_le
      rwa [length_trailRank, length_trailRank] at early
  | turn _ ih =>
    obtain ⟨grow, ⟨n, ranked⟩, found⟩ := ih
    exact ⟨grow.turn, ⟨n + 1, ranked.turn⟩, found.mem_iff, found.nodup, found.sorted, found.waiting⟩

theorem DiscoveryOrder.discovered (h : g.DiscoveryOrder order) (wf : g.WellFormed) (nodup : g.roots.Nodup) :
    g.Discovered g.strongSearch order := (Discovery.discovered wf nodup h).2.2

/-- The search along strong references goes through such stages to its end. -/
theorem WellFormed.exists_discoveryOrder (wf : g.WellFormed) : ∃ order, g.DiscoveryOrder order := by
  have whole := wf.strongSearch_preserves (P := fun s rest => ∃ order, g.Discovery s rest order)
    (by
      intro s t rest grow h
      obtain ⟨order, stage⟩ := h
      obtain ⟨stop, before, rfl, -, arrival⟩ := grow.arrival wf
      cases arrival with
      | inl skip =>
        obtain ⟨known, hk, -⟩ := skip
        exact ⟨order, .skip stage (by simp [hk])⟩
      | inr find => exact ⟨order ++ [stop.place], .find stage find.unfound⟩)
    (fun s _ h => h.imp fun order stage => .turn stage)
    ⟨[], .start⟩
  exact whole.2.1

theorem WellFormed.exists_strongTrail_iff (wf : g.WellFormed) :
    (∃ t, g.strongSearch.trailOf i = some t) ↔ g.StronglyReachable i := by
  obtain ⟨grow, cover, idle⟩ := wf.strongSearch_ends
  constructor
  · intro h
    obtain ⟨t, ht⟩ := h
    exact ⟨_, rootPath_of_trail grow ht⟩
  · intro reached
    obtain ⟨path, hp⟩ := reached
    induction hp with
    | root hi =>
      obtain ⟨t, ht, -⟩ := cover.root hi
      exact ⟨t, ht⟩
    | step _ hold ih =>
      obtain ⟨t, ht⟩ := ih
      obtain ⟨r, hr, strong, resolved⟩ := hold
      obtain ⟨e, he, rfl, also⟩ := exists_outEdge hr resolved
      obtain ⟨known, hk, -⟩ := cover.target idle ht he (also.trans strong)
      exact ⟨known, hk⟩

theorem WellFormed.strongTrail_eq_none (wf : g.WellFormed) (unreached : ¬ g.StronglyReachable i) :
    g.strongSearch.trailOf i = none := by
  cases ht : g.strongSearch.trailOf i with
  | none => rfl
  | some t => exact absurd (wf.exists_strongTrail_iff.mp ⟨t, ht⟩) unreached

/-- What trails beyond the strongly reachable objects are compared by: when the object that they leave was
found, then the ids of the objects that follow. -/
def exitRank (g : HeapGraph) (order : List Nat) : Trail → List Nat
  | [] => []
  | stop :: before =>
    if g.strongSearch.trailOf stop.place = some (stop :: before) then [order.idxOf stop.place]
    else g.exitRank order before ++ [(g.idOf stop.place).value.toNat]

theorem exitRank_goesOn (other : g.strongSearch.trailOf e.target ≠ some (extend t e)) :
    RankGoesOn g (g.exitRank order) t e := if_neg other

namespace WellFormed

variable (wf : g.WellFormed)

include wf

theorem exitRank_strongTrail (hu : g.strongSearch.trailOf u = some t) : g.exitRank order t = [order.idxOf u] := by
  obtain ⟨via, before, rfl⟩ := wf.strongSearch_ends.1.ends u t hu
  rw [exitRank, if_pos hu]

/-- A trail of the search along strong references comes from such a trail by a strong reference. -/
theorem strongTrail_of_extend {stop : Stop} {before : Trail} (he : e ∈ g.outEdges stop.place)
    (ht : g.strongSearch.trailOf e.target = some (extend (stop :: before) e)) :
    g.strongSearch.trailOf stop.place = some (stop :: before) ∧ e.strong = true := by
  obtain ⟨grow, -⟩ := wf.strongSearch_ends
  cases grow.found _ _ ht with
  | inl root =>
    obtain ⟨r, -, same⟩ := root
    cases (Stop.mk.inj (List.cons.inj same).1).2
  | inr grown =>
    obtain ⟨u, front, e', hu, he', strong, same⟩ := grown
    obtain ⟨last, rfl⟩ := List.cons.inj same
    obtain ⟨via, earlier, start⟩ := grow.ends u _ hu
    obtain ⟨rfl, rfl⟩ := List.cons.inj start
    obtain ⟨r, hr, -, isStrong⟩ := mem_outEdges.mp he
    obtain ⟨r', hr', -, isStrong'⟩ := mem_outEdges.mp he'
    have position : e.via = e'.via := Option.some.inj (Stop.mk.inj last).2
    rw [position, hr'] at hr
    obtain rfl := Option.some.inj hr
    exact ⟨hu, isStrong.symm.trans (isStrong'.trans strong)⟩

theorem exitRank_goesOn_weak (hu : g.strongSearch.trailOf u = some t) (he : e ∈ g.outEdges u)
    (weak : e.strong = false) : RankGoesOn g (g.exitRank order) t e := by
  obtain ⟨via, before, rfl⟩ := wf.strongSearch_ends.1.ends u t hu
  apply exitRank_goesOn
  intro ht
  have strong := (wf.strongTrail_of_extend he ht).2
  rw [weak] at strong
  cases strong

theorem exists_exit_of_mem {q : Trail} (hq : q ∈ g.weakExits g.strongSearch u) :
    ∃ t e, g.strongSearch.trailOf u = some t ∧ RankGoesOn g (g.exitRank order) t e ∧ q = extend t e := by
  unfold weakExits at hq
  cases hu : g.strongSearch.trailOf u with
  | none => simp [hu] at hq
  | some t =>
    rw [hu] at hq
    obtain ⟨e, he, rfl⟩ := List.mem_map.mp hq
    obtain ⟨edge, weak⟩ := List.mem_filter.mp he
    exact ⟨t, e, rfl, wf.exitRank_goesOn_weak hu edge (by simpa using weak), rfl⟩

theorem sorted_weakExits (order : List Nat) (u : Nat) :
    (g.weakExits g.strongSearch u).Pairwise (InOrder (g.exitRank order)) := by
  unfold weakExits
  cases hu : g.strongSearch.trailOf u with
  | none => exact List.Pairwise.nil
  | some t =>
    rw [Option.elim_some, List.pairwise_map]
    refine ((g.pairwise_outEdges u).filter _).imp_of_mem ?_
    intro a b ha hb sorted
    obtain ⟨edge, weak⟩ := List.mem_filter.mp ha
    obtain ⟨edge', weak'⟩ := List.mem_filter.mp hb
    exact inOrder_extend (wf.exitRank_goesOn_weak hu edge (by simpa using weak))
      (wf.exitRank_goesOn_weak hu edge' (by simpa using weak')) sorted

/-- What was kept for later comes by the objects that it leaves, as they were found. -/
theorem sorted_waiting (found : g.Discovered g.strongSearch order) :
    g.strongSearch.waiting.toList.Pairwise (InOrder (g.exitRank order)) := by
  rw [found.waiting, List.pairwise_flatMap]
  refine ⟨fun u _ => wf.sorted_weakExits order u, ?_⟩
  rw [List.pairwise_iff_getElem]
  intro a b ha hb less q hq q' hq'
  obtain ⟨t, e, hu, goesOn, rfl⟩ := wf.exists_exit_of_mem hq
  obtain ⟨t', e', hu', goesOn', rfl⟩ := wf.exists_exit_of_mem hq'
  have rank : g.exitRank order t = [order.idxOf order[a]] := wf.exitRank_strongTrail hu
  have rank' : g.exitRank order t' = [order.idxOf order[b]] := wf.exitRank_strongTrail hu'
  refine inOrder_extend_of_lt goesOn goesOn' (by rw [rank, rank']; rfl) ?_
  rw [rank, rank', found.nodup.idxOf_getElem, found.nodup.idxOf_getElem]
  exact List.cons_lt_cons_iff.mpr (.inl less)

theorem ranked_waiting (found : g.Discovered g.strongSearch order) :
    Ranked g (g.exitRank order) { g.strongSearch with next := #[], waiting := #[] }
      g.strongSearch.waiting.toList 2 := by
  have long : ∀ q ∈ g.strongSearch.waiting.toList, (g.exitRank order q).length = 2 := by
    intro q hq
    rw [found.waiting] at hq
    obtain ⟨u, -, leaving⟩ := List.mem_flatMap.mp hq
    obtain ⟨t, e, hu, goesOn, rfl⟩ := wf.exists_exit_of_mem leaving
    rw [goesOn, wf.exitRank_strongTrail hu]
    rfl
  refine ⟨long, fun q hq => absurd hq List.not_mem_nil, wf.sorted_waiting found, List.Pairwise.nil, ?_⟩
  intro u t hu
  have short : (g.exitRank order t).length = 1 := by
    rw [wf.exitRank_strongTrail hu]
    rfl
  refine ⟨by omega, fun q hq => .inl ?_⟩
  rw [long q hq]
  omega

end WellFormed

/-- A trail that has left does not come before the one that is known. -/
def LeavesInOrder (g : HeapGraph) (order : List Nat) (known q : Trail) : Prop :=
  2 ≤ (g.exitRank order q).length → InOrder (g.exitRank order) known q

/-- The search goes on beyond the strongly reachable objects, whose trails it keeps. -/
structure Leaving (g : HeapGraph) (order : List Nat) (s : TrailSearch) (rest : List Trail) : Prop where
  grow : Growing g (fun _ => true) s rest
  kept : ∀ i t, g.strongSearch.trailOf i = some t → s.trailOf i = some t
  ranked : ∃ n, 2 ≤ n ∧ Ranked g (g.exitRank order) s rest n
  cover : Covering g (fun _ => true) (g.LeavesInOrder order) s rest

theorem WellFormed.exitRanked_arrive {n : Nat} (wf : g.WellFormed) (grow : Growing g (fun _ => true) s (t :: rest))
    (kept : ∀ i known, g.strongSearch.trailOf i = some known → s.trailOf i = some known) (beyond : 2 ≤ n)
    (ranked : Ranked g (g.exitRank order) s (t :: rest) n) :
    Ranked g (g.exitRank order) (s.arrive (fun _ => true) t) rest n := by
  have long := ranked.queued t List.mem_cons_self
  have unfound : ∀ i, s.trailOf i = none → g.strongSearch.trailOf i = none := by
    intro i hi
    cases hk : g.strongSearch.trailOf i with
    | none => rfl
    | some known => exact absurd (kept i known hk) (by simp [hi])
  apply ranked.arrive wf grow
  · intro stop before same hi e he _
    subst same
    apply exitRank_goesOn
    intro ht
    have known := (wf.strongTrail_of_extend he ht).1
    rw [unfound _ hi] at known
    cases known
  · intro stop before same hi u front hu equal
    subst same
    obtain ⟨via, earlier, rfl⟩ := grow.ends u front hu
    obtain ⟨_, _, start, inside⟩ := (grow.found u _ hu).exists_stop wf
    obtain ⟨rfl, -⟩ := List.cons.inj start
    rw [equal.symm] at long
    -- The rank of a trail that has not left yet is too short; any other tells the object at its end.
    simp only [exitRank, unfound _ hi, reduceCtorEq, if_false] at equal long
    split at equal
    · rename_i strong
      rw [if_pos strong, List.length_singleton] at long
      omega
    · have last := List.cons.inj (List.append_inj_right' equal rfl)
      exact wf.idOf_inj inside (grow.arrival_cons wf).1 (ObjectId.eq_of_value (UInt64.toNat_inj.mp last.1))

theorem Leaving.arrive (wf : g.WellFormed) (h : g.Leaving order s (t :: rest)) :
    g.Leaving order (s.arrive (fun _ => true) t) rest := by
  obtain ⟨n, beyond, ranked⟩ := h.ranked
  have early : ∀ i known, s.trailOf i = some known → g.LeavesInOrder order known t :=
    fun i known hi _ => (ranked.early i known hi).2 t List.mem_cons_self
  refine ⟨h.grow.arrive wf, fun i known hi => h.grow.keeps wf (h.kept i known hi), ?_, ?_⟩
  · exact ⟨n, beyond, wf.exitRanked_arrive h.grow h.kept beyond ranked⟩
  · exact h.cover.arrive wf h.grow (fun _ => inOrder_refl _ t) early

theorem Leaving.turn (h : g.Leaving order s []) : g.Leaving order { s with next := #[] } s.next.toList := by
  obtain ⟨n, beyond, ranked⟩ := h.ranked
  exact ⟨h.grow.turn, h.kept, ⟨n + 1, Nat.le_succ_of_le beyond, ranked.turn⟩, h.cover.turn⟩

namespace WellFormed

variable (wf : g.WellFormed)

include wf

/-- Where the search along strong references ends, the search beyond can start. -/
theorem leaving_waiting (found : g.Discovered g.strongSearch order) :
    g.Leaving order { g.strongSearch with next := #[], waiting := #[] } g.strongSearch.waiting.toList := by
  obtain ⟨grow, cover, idle⟩ := wf.strongSearch_ends
  refine ⟨grow.widen, fun i t hi => hi, ⟨2, Nat.le_refl 2, wf.ranked_waiting found⟩, ?_⟩
  apply (cover.widen idle).imp
  intro u known q hu _ long
  refine .inl ?_
  rw [wf.exitRank_strongTrail hu]
  exact long

theorem leaving_fullSearch (found : g.Discovered g.strongSearch order) : g.Leaving order g.fullSearch [] := by
  have whole : g.Leaving order g.fullSearch [] ∧ g.fullSearch.next = #[] := by
    apply spread_preserves (P := g.Leaving order)
    · exact fun s t rest h => h.arrive wf
    · exact fun s h => h.turn
    · exact wf.leaving_waiting found
    · exact fun _ => wf.strongSearch_ends.2.2
  exact whole.1

end WellFormed

end HeapGraph

end Retention
