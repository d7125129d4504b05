import Retention.Proofs.RootPaths
import Retention.Trail

namespace Retention

namespace HeapGraph

/-- Roots lead to the object at `i` along references, strong or not. -/
inductive Reachable (g : HeapGraph) : Nat → Prop where
  | root {i : Nat} : i ∈ g.roots → Reachable g i
  | step {i j : Nat} {r : Reference} : Reachable g i → r ∈ g.referencesOf i → r.resolved = some j → Reachable g j

variable {g : HeapGraph} {i j : Nat}

theorem StronglyReachable.reachable (h : g.StronglyReachable i) : g.Reachable i := by
  obtain ⟨path, hp⟩ := h
  induction hp with
  | root hr => exact .root hr
  | step _ hold ih =>
    obtain ⟨r, hr, -, resolved⟩ := hold
    exact .step ih hr resolved

/-- The resolved references of the object at `i`, in the order of its references. -/
def resolvedEdges (g : HeapGraph) (i : Nat) : List OutEdge :=
  (g.referencesOf i).zipIdx.filterMap fun (r, via) => r.resolved.map fun target => ⟨target, via, r.strong⟩

theorem outEdges_eq (g : HeapGraph) (i : Nat) : g.outEdges i =
    (g.resolvedEdges i).mergeSort fun a b => decide (g.idOf a.target ≤ g.idOf b.target) := rfl

theorem mem_outEdges {e : OutEdge} : e ∈ g.outEdges i ↔
    ∃ r, (g.referencesOf i)[e.via]? = some r ∧ r.resolved = some e.target ∧ r.strong = e.strong := by
  rw [outEdges_eq, List.mem_mergeSort, resolvedEdges, List.mem_filterMap]
  constructor
  · intro h
    obtain ⟨⟨r, via⟩, hr, he⟩ := h
    obtain ⟨target, ht, rfl⟩ := Option.map_eq_some_iff.mp he
    exact ⟨r, List.mem_zipIdx_iff_getElem?.mp hr, ht, rfl⟩
  · intro h
    obtain ⟨r, hr, ht, hs⟩ := h
    refine ⟨(r, e.via), List.mem_zipIdx_iff_getElem?.mpr hr, ?_⟩
    simp only [ht, hs, Option.map_some]

theorem exists_outEdge {r : Reference} (hr : r ∈ g.referencesOf i) (ht : r.resolved = some j) :
    ∃ e ∈ g.outEdges i, e.target = j ∧ e.strong = r.strong := by
  obtain ⟨via, hv⟩ := List.getElem?_of_mem hr
  exact ⟨⟨j, via, r.strong⟩, mem_outEdges.mpr ⟨r, hv, ht, rfl⟩, rfl, rfl⟩

theorem WellFormed.outEdge_lt (wf : g.WellFormed) {e : OutEdge} (he : e ∈ g.outEdges i) : e.target < g.size := by
  obtain ⟨r, hr, ht, -⟩ := mem_outEdges.mp he
  exact wf.resolved_lt (List.mem_of_getElem? hr) ht

end HeapGraph

namespace TrailSearch

variable {g : HeapGraph} {follow : OutEdge → Bool} {le : Trail → Trail → Prop} {s after : TrailSearch}
  {t : Trail} {rest : List Trail} {i : Nat}

/-- The trail to the object at `i`, if it was found. -/
def trailOf (s : TrailSearch) (i : Nat) : Option Trail := (s.trails[i]?).join

/-- What holds through every arrival and whenever a wave is over holds when the search ends. -/
theorem spread_preserves {P : TrailSearch → List Trail → Prop}
    (step : ∀ s t rest, P s (t :: rest) → P (s.arrive follow t) rest)
    (turn : ∀ s, P s [] → P { s with next := #[] } s.next.toList) {trails : List Trail}
    (start : P { s with next := #[] } trails) (idle : trails = [] → s.next = #[]) :
    P (s.spread follow trails) [] ∧ (s.spread follow trails).next = #[] := by
  have wave : ∀ (trails : List Trail) (s : TrailSearch), P s trails → P (trails.foldl (arrive follow) s) [] := by
    intro trails
    induction trails with
    | nil => exact fun s hs => hs
    | cons t rest ih => exact fun s hs => ih _ (step s t rest hs)
  fun_induction spread follow s trails with
  | case1 s =>
    have none := idle rfl
    have same : ({ s with next := #[] } : TrailSearch) = s := by rw [← none]
    exact ⟨same ▸ start, none⟩
  | case2 s t rest after ih =>
    apply ih
    · exact turn _ (wave _ _ start)
    · intro none
      exact Array.toList_eq_nil_iff.mp none

/-- The search has the edges of exactly those objects that it has not found. -/
structure Tracks (s : TrailSearch) (g : HeapGraph) : Prop where
  size_eq : s.trails.size = g.size
  fresh : ∀ i, s.pool.get? i = if i < g.size ∧ s.trailOf i = none then some (g.outEdges i) else none

/-- A search finds the object at `i` by the trail and goes on along its edges. -/
structure Finds (g : HeapGraph) (follow : OutEdge → Bool) (s : TrailSearch) (t : Trail) (i : Nat)
    (after : TrailSearch) : Prop where
  unfound : s.trailOf i = none
  tracks : after.Tracks g
  trailOf_eq : ∀ k, after.trailOf k = if k = i then some t else s.trailOf k
  next_eq : after.next.toList = s.next.toList ++ ((g.outEdges i).filter follow).map (extend t)
  waiting_eq : after.waiting.toList = s.waiting.toList ++ ((g.outEdges i).filter fun e => !follow e).map (extend t)

theorem Finds.keeps (h : Finds g follow s t i after) {k : Nat} {known : Trail} (hk : s.trailOf k = some known) :
    after.trailOf k = some known := by
  have hne : k ≠ i := by
    intro same
    rw [same, h.unfound] at hk
    cases hk
  rw [h.trailOf_eq, if_neg hne, hk]

theorem Finds.found (h : Finds g follow s t i after) : after.trailOf i = some t := by
  rw [h.trailOf_eq, if_pos rfl]

/-- All that an arrival does: nothing at an object that was found before, else it finds the object. -/
theorem Tracks.arrive (h : s.Tracks g) (follow : OutEdge → Bool) {stop : Stop} (hi : stop.place < g.size)
    (before : Trail) :
    (∃ known, s.trailOf stop.place = some known ∧ s.arrive follow (stop :: before) = s) ∨
      Finds g follow s (stop :: before) stop.place (s.arrive follow (stop :: before)) := by
  have fresh := h.fresh stop.place
  cases hk : s.trailOf stop.place with
  | some known =>
    rw [hk, if_neg (by simp)] at fresh
    refine .inl ⟨known, rfl, ?_⟩
    simp only [TrailSearch.arrive, fresh]
  | none =>
    rw [hk, if_pos ⟨hi, rfl⟩] at fresh
    have trailOf_eq : ∀ k, (s.arrive follow (stop :: before)).trailOf k =
        if k = stop.place then some (stop :: before) else s.trailOf k := by
      intro k
      simp only [TrailSearch.arrive, fresh, trailOf, Array.getElem?_setIfInBounds]
      by_cases same : k = stop.place
      · rw [if_pos same.symm, if_pos same, if_pos (by rw [h.size_eq]; exact hi), Option.join_some]
      · rw [if_neg (Ne.symm same), if_neg same]
    refine .inr ⟨hk, ⟨?_, ?_⟩, trailOf_eq, ?_, ?_⟩
    · simp only [TrailSearch.arrive, fresh, Array.size_setIfInBounds, h.size_eq]
    · intro k
      have pool : (s.arrive follow (stop :: before)).pool = s.pool.erase stop.place := by
        simp only [TrailSearch.arrive, fresh]
      rw [pool, trailOf_eq k]
      by_cases same : k = stop.place
      · rw [same, Pool.get?_erase_self, if_pos rfl, if_neg (by simp)]
      · rw [Pool.get?_erase_of_ne _ (Ne.symm same), if_neg same, h.fresh k]
    · simp only [TrailSearch.arrive, fresh, Array.toList_appendList]
    · simp only [TrailSearch.arrive, fresh, Array.toList_appendList]

/-- The trail is a root, or goes on from a trail that was found along an allowed edge. -/
def Grown (s : TrailSearch) (g : HeapGraph) (allowed : OutEdge → Bool) (t : Trail) : Prop :=
  (∃ r ∈ g.roots, t = [⟨r, none⟩]) ∨
    ∃ u before e, s.trailOf u = some before ∧ e ∈ g.outEdges u ∧ allowed e = true ∧ t = extend before e

theorem Grown.mono {allowed allowed' : OutEdge → Bool} (h : s.Grown g allowed t)
    (keeps : ∀ k known, s.trailOf k = some known → after.trailOf k = some known)
    (wider : ∀ e, allowed e = true → allowed' e = true) : after.Grown g allowed' t := by
  cases h with
  | inl root => exact .inl root
  | inr grown =>
    obtain ⟨u, before, e, hu, he, ok, rfl⟩ := grown
    exact .inr ⟨u, before, e, keeps u before hu, he, wider e ok, rfl⟩

theorem Grown.exists_stop {allowed : OutEdge → Bool} (wf : g.WellFormed) (h : s.Grown g allowed t) :
    ∃ stop before, t = stop :: before ∧ stop.place < g.size := by
  cases h with
  | inl root =>
    obtain ⟨r, hr, rfl⟩ := root
    exact ⟨_, _, rfl, wf.roots_lt r hr⟩
  | inr grown =>
    obtain ⟨u, before, e, -, he, -, rfl⟩ := grown
    exact ⟨_, _, rfl, wf.outEdge_lt he⟩

/-- Everything that a search has found or is going to look at has grown from what it has found. -/
structure Growing (g : HeapGraph) (follow : OutEdge → Bool) (s : TrailSearch) (rest : List Trail) : Prop where
  tracks : s.Tracks g
  ends : ∀ i t, s.trailOf i = some t → ∃ via before, t = ⟨i, via⟩ :: before
  found : ∀ i t, s.trailOf i = some t → s.Grown g follow t
  queued : ∀ t ∈ rest, s.Grown g follow t
  next : ∀ t ∈ s.next.toList, s.Grown g follow t
  waiting : ∀ t ∈ s.waiting.toList, s.Grown g (fun _ => true) t

/-- The next trail that a growing search takes up arrives somewhere in the heap. -/
theorem Growing.arrival (wf : g.WellFormed) (h : Growing g follow s (t :: rest)) :
    ∃ stop before, t = stop :: before ∧ stop.place < g.size ∧
      ((∃ known, s.trailOf stop.place = some known ∧ s.arrive follow t = s) ∨
        Finds g follow s t stop.place (s.arrive follow t)) := by
  obtain ⟨stop, before, rfl, hi⟩ := (h.queued t List.mem_cons_self).exists_stop wf
  exact ⟨stop, before, rfl, hi, h.tracks.arrive follow hi before⟩

theorem Growing.arrival_cons {stop : Stop} {before : Trail} (wf : g.WellFormed)
    (h : Growing g follow s ((stop :: before) :: rest)) : stop.place < g.size ∧
      ((∃ known, s.trailOf stop.place = some known ∧ s.arrive follow (stop :: before) = s) ∨
        Finds g follow s (stop :: before) stop.place (s.arrive follow (stop :: before))) := by
  obtain ⟨_, _, same, arrival⟩ := h.arrival wf
  obtain ⟨rfl, rfl⟩ := List.cons.inj same
  exact arrival

theorem Growing.arrive (wf : g.WellFormed) (h : Growing g follow s (t :: rest)) :
    Growing g follow (s.arrive follow t) rest := by
  have queued : ∀ t ∈ rest, s.Grown g follow t := fun t ht => h.queued t (List.mem_cons_of_mem _ ht)
  obtain ⟨stop, before, rfl, -, arrival⟩ := h.arrival wf
  cases arrival with
  | inl skip =>
    obtain ⟨known, -, same⟩ := skip
    rw [same]
    exact ⟨h.tracks, h.ends, h.found, queued, h.next, h.waiting⟩
  | inr find =>
    have keeps : ∀ k known, s.trailOf k = some known →
        (s.arrive follow (stop :: before)).trailOf k = some known := fun k known hk => find.keeps hk
    have lift : ∀ {allowed : OutEdge → Bool} {t : Trail}, s.Grown g allowed t →
        (s.arrive follow (stop :: before)).Grown g allowed t := fun grown => grown.mono keeps fun e he => he
    refine ⟨find.tracks, ?_, ?_, fun t ht => lift (queued t ht), ?_, ?_⟩
    · intro k t hk
      rw [find.trailOf_eq] at hk
      split at hk
      · obtain rfl := Option.some.inj hk
        exact ⟨stop.via, before, by subst k; rfl⟩
      · exact h.ends k t hk
    · intro k t hk
      rw [find.trailOf_eq] at hk
      split at hk
      · obtain rfl := Option.some.inj hk
        exact lift (h.queued _ List.mem_cons_self)
      · exact lift (h.found k t hk)
    · intro t ht
      rw [find.next_eq] at ht
      cases List.mem_append.mp ht with
      | inl ht => exact lift (h.next t ht)
      | inr ht =>
        obtain ⟨e, he, rfl⟩ := List.mem_map.mp ht
        obtain ⟨he, ok⟩ := List.mem_filter.mp he
        exact .inr ⟨stop.place, _, e, find.found, he, ok, rfl⟩
    · intro t ht
      rw [find.waiting_eq] at ht
      cases List.mem_append.mp ht with
      | inl ht => exact lift (h.waiting t ht)
      | inr ht =>
        obtain ⟨e, he, rfl⟩ := List.mem_map.mp ht
        exact .inr ⟨stop.place, _, e, find.found, List.mem_of_mem_filter he, rfl, rfl⟩

/-- What holds of the roots and goes on along allowed edges holds of every trail that was found. -/
theorem Growing.induct {P : Nat → Trail → Prop} (h : Growing g follow s rest)
    (root : ∀ r ∈ g.roots, P r [⟨r, none⟩])
    (step : ∀ u t e, s.trailOf u = some t → e ∈ g.outEdges u → follow e = true →
      s.trailOf e.target = some (extend t e) → P u t → P e.target (extend t e))
    {i : Nat} {t : Trail} (ht : s.trailOf i = some t) : P i t := by
  -- By the length of the trail: what comes before its last stop was found as a trail itself.
  induction t generalizing i with
  | nil =>
    obtain ⟨via, before, none⟩ := h.ends i [] ht
    cases none
  | cons stop before ih =>
    obtain ⟨via, front, last⟩ := h.ends i _ ht
    obtain ⟨rfl, rfl⟩ := List.cons.inj last
    cases h.found i _ ht with
    | inl first =>
      obtain ⟨r, hr, same⟩ := first
      obtain ⟨here, rfl⟩ := List.cons.inj same
      obtain ⟨rfl, rfl⟩ := Stop.mk.inj here
      exact root i hr
    | inr grown =>
      obtain ⟨u, front, e, hu, he, ok, same⟩ := grown
      obtain ⟨here, rfl⟩ := List.cons.inj same
      obtain ⟨rfl, rfl⟩ := Stop.mk.inj here
      exact step u _ e hu he ok ht (ih hu)

/-- The end of the trail was found, by a trail that stands in the relation to it. -/
def Settled (s : TrailSearch) (le : Trail → Trail → Prop) (t : Trail) : Prop :=
  ∃ stop before known, t = stop :: before ∧ s.trailOf stop.place = some known ∧ le known t

/-- Roots and edges of what was found are settled, or the search is still going to look at them. -/
structure Covering (g : HeapGraph) (follow : OutEdge → Bool) (le : Trail → Trail → Prop) (s : TrailSearch)
    (rest : List Trail) : Prop where
  roots : ∀ r ∈ g.roots, s.Settled le [⟨r, none⟩] ∨ [⟨r, none⟩] ∈ rest
  followed : ∀ u t e, s.trailOf u = some t → e ∈ g.outEdges u → follow e = true →
    s.Settled le (extend t e) ∨ extend t e ∈ rest ∨ extend t e ∈ s.next.toList
  kept : ∀ u t e, s.trailOf u = some t → e ∈ g.outEdges u → follow e = false →
    s.Settled le (extend t e) ∨ extend t e ∈ s.waiting.toList

theorem Covering.skip (h : Covering g follow le s (t :: rest)) (settled : s.Settled le t) :
    Covering g follow le s rest := by
  have popped : ∀ q ∈ t :: rest, s.Settled le q ∨ q ∈ rest := by
    intro q hq
    cases List.mem_cons.mp hq with
    | inl same => exact .inl (same ▸ settled)
    | inr later => exact .inr later
  constructor
  · intro r hr
    exact (h.roots r hr).elim .inl (popped _)
  · intro u known e hu he ok
    have pending := h.followed u known e hu he ok
    rcases pending with done | queued | later
    · exact .inl done
    · exact (popped _ queued).imp_right .inl
    · exact .inr (.inr later)
  · exact h.kept

theorem Covering.find (h : Covering g follow le s (t :: rest)) (find : Finds g follow s t i after)
    (settled : after.Settled le t) : Covering g follow le after rest := by
  have keeps : ∀ {q}, s.Settled le q → after.Settled le q := by
    intro q done
    obtain ⟨stop, before, known, same, hk, hle⟩ := done
    exact ⟨stop, before, known, same, find.keeps hk, hle⟩
  -- Before the trail is dropped from the queue, only the edges of the object that was found are new.
  refine Covering.skip ⟨?_, ?_, ?_⟩ settled
  · intro r hr
    exact (h.roots r hr).imp_left keeps
  · intro u known e hu he ok
    rw [find.next_eq]
    rw [find.trailOf_eq] at hu
    split at hu
    · obtain rfl := Option.some.inj hu
      subst u
      exact .inr (.inr (List.mem_append_right _ (List.mem_map_of_mem (List.mem_filter.mpr ⟨he, ok⟩))))
    · exact (h.followed u known e hu he ok).imp keeps (Or.imp_right (List.mem_append_left _))
  · intro u known e hu he ok
    rw [find.waiting_eq]
    rw [find.trailOf_eq] at hu
    split at hu
    · obtain rfl := Option.some.inj hu
      subst u
      exact .inr (List.mem_append_right _ (List.mem_map_of_mem (List.mem_filter.mpr ⟨he, by simp [ok]⟩)))
    · exact (h.kept u known e hu he ok).imp keeps (List.mem_append_left _)

theorem Covering.imp {le' : Trail → Trail → Prop} (h : Covering g follow le s rest)
    (weaken : ∀ i known q, s.trailOf i = some known → le known q → le' known q) : Covering g follow le' s rest := by
  have settled : ∀ {q}, s.Settled le q → s.Settled le' q := by
    intro q done
    obtain ⟨stop, before, known, same, hk, hle⟩ := done
    exact ⟨stop, before, known, same, hk, weaken _ known q hk hle⟩
  exact ⟨fun r hr => (h.roots r hr).imp_left settled, fun u t e hu he ok => (h.followed u t e hu he ok).imp_left settled,
    fun u t e hu he ok => (h.kept u t e hu he ok).imp_left settled⟩

theorem Covering.arrive (wf : g.WellFormed) (grow : Growing g follow s (t :: rest))
    (h : Covering g follow le s (t :: rest)) (refl : le t t)
    (early : ∀ i known, s.trailOf i = some known → le known t) : Covering g follow le (s.arrive follow t) rest := by
  obtain ⟨stop, before, rfl, -, arrival⟩ := grow.arrival wf
  cases arrival with
  | inl skip =>
    obtain ⟨known, hk, same⟩ := skip
    rw [same]
    exact h.skip ⟨stop, before, known, rfl, hk, early _ known hk⟩
  | inr find => exact h.find find ⟨stop, before, _, rfl, find.found, refl⟩

theorem Growing.keeps (wf : g.WellFormed) (h : Growing g follow s (t :: rest)) {known : Trail}
    (hi : s.trailOf i = some known) : (s.arrive follow t).trailOf i = some known := by
  obtain ⟨stop, before, rfl, -, arrival⟩ := h.arrival wf
  cases arrival with
  | inl skip =>
    obtain ⟨other, -, same⟩ := skip
    rwa [same]
  | inr find => exact find.keeps hi

theorem Growing.turn (h : Growing g follow s []) : Growing g follow { s with next := #[] } s.next.toList :=
  ⟨⟨h.tracks.size_eq, h.tracks.fresh⟩, h.ends, h.found, h.next, fun t ht => by simp at ht, h.waiting⟩

theorem settled_cons_iff {stop : Stop} {before : Trail} : s.Settled le (stop :: before) ↔
    ∃ known, s.trailOf stop.place = some known ∧ le known (stop :: before) := by
  constructor
  · intro h
    obtain ⟨other, front, known, same, hk, hle⟩ := h
    obtain ⟨rfl, rfl⟩ := List.cons.inj same
    exact ⟨known, hk, hle⟩
  · intro h
    obtain ⟨known, hk, hle⟩ := h
    exact ⟨stop, before, known, rfl, hk, hle⟩

theorem Covering.root (h : Covering g follow le s []) {r : Nat} (hr : r ∈ g.roots) :
    ∃ known, s.trailOf r = some known ∧ le known [⟨r, none⟩] :=
  settled_cons_iff.mp ((h.roots r hr).resolve_right List.not_mem_nil)

/-- When the search ends, all edges to follow have been followed. -/
theorem Covering.target (h : Covering g follow le s []) (idle : s.next = #[]) {u : Nat} {e : OutEdge}
    (hu : s.trailOf u = some t) (he : e ∈ g.outEdges u) (ok : follow e = true) :
    ∃ known, s.trailOf e.target = some known ∧ le known (extend t e) := by
  have pending := h.followed u t e hu he ok
  rw [idle] at pending
  exact settled_cons_iff.mp (pending.resolve_right (by simp))

theorem Covering.turn (h : Covering g follow le s []) :
    Covering g follow le { s with next := #[] } s.next.toList where
  roots := fun r hr => .inl ((h.roots r hr).resolve_right List.not_mem_nil)
  followed := fun u t e hu he ok =>
    (h.followed u t e hu he ok).imp_right fun pending => .inl (pending.resolve_left List.not_mem_nil)
  kept := h.kept

/-- Where a search along some edges ends, one along all edges can start. -/
theorem Growing.widen (h : Growing g follow s []) :
    Growing g (fun _ => true) { s with next := #[], waiting := #[] } s.waiting.toList where
  tracks := ⟨h.tracks.size_eq, h.tracks.fresh⟩
  ends := h.ends
  found := fun i t hi => (h.found i t hi).mono (fun _ _ known => known) fun _ _ => rfl
  queued := h.waiting
  next := fun t ht => by simp at ht
  waiting := fun t ht => by simp at ht

theorem Covering.widen (h : Covering g follow le s []) (idle : s.next = #[]) :
    Covering g (fun _ => true) le { s with next := #[], waiting := #[] } s.waiting.toList where
  roots := fun r hr => .inl ((h.roots r hr).resolve_right List.not_mem_nil)
  followed := by
    intro u t e hu he _
    cases ok : follow e with
    | true => exact .inl (settled_cons_iff.mpr (h.target idle hu he ok))
    | false => exact (h.kept u t e hu he ok).imp_right .inl
  kept := fun u t e hu he no => by simp at no

end TrailSearch

namespace HeapGraph

open TrailSearch

variable {g : HeapGraph} {i : Nat}

/-- A search that has found nothing. -/
def blankSearch (g : HeapGraph) : TrailSearch :=
  ⟨Pool.ofArray ((Array.range g.size).map g.outEdges), Array.replicate g.size none, #[], #[]⟩

/-- The search along strong references. -/
def strongSearch (g : HeapGraph) : TrailSearch :=
  g.blankSearch.spread OutEdge.strong (g.roots.map fun r => [⟨r, none⟩])

/-- The search goes on along all references from where the strong ones have led. -/
def fullSearch (g : HeapGraph) : TrailSearch :=
  { g.strongSearch with waiting := #[] }.spread (fun _ => true) g.strongSearch.waiting.toList

theorem trails_eq (g : HeapGraph) : g.trails = g.fullSearch.trails := rfl

theorem trailOf_blankSearch (g : HeapGraph) (i : Nat) : g.blankSearch.trailOf i = none := by
  unfold trailOf blankSearch
  rw [Array.getElem?_replicate]
  split <;> rfl

theorem growing_blankSearch (g : HeapGraph) (follow : OutEdge → Bool) :
    Growing g follow g.blankSearch (g.roots.map fun r => [⟨r, none⟩]) := by
  have unfound : ∀ i t, g.blankSearch.trailOf i ≠ some t := by
    intro i t
    rw [trailOf_blankSearch]
    simp
  refine ⟨⟨Array.size_replicate, ?_⟩, ?_, ?_, ?_, ?_, ?_⟩
  · intro i
    rw [trailOf_blankSearch]
    simp only [blankSearch, Pool.get?, Pool.ofArray, Array.getElem?_map]
    by_cases hi : i < g.size <;> simp [hi]
  · exact fun i t hi => absurd hi (unfound i t)
  · exact fun i t hi => absurd hi (unfound i t)
  · intro t ht
    obtain ⟨r, hr, rfl⟩ := List.mem_map.mp ht
    exact .inl ⟨r, hr, rfl⟩
  · exact fun t ht => by simp [blankSearch] at ht
  · exact fun t ht => by simp [blankSearch] at ht

theorem covering_blankSearch (g : HeapGraph) (follow : OutEdge → Bool) (le : Trail → Trail → Prop) :
    Covering g follow le g.blankSearch (g.roots.map fun r => [⟨r, none⟩]) := by
  have unfound : ∀ i t, g.blankSearch.trailOf i ≠ some t := by
    intro i t
    rw [trailOf_blankSearch]
    simp
  exact ⟨fun r hr => .inr (List.mem_map_of_mem hr), fun u t e hu => absurd hu (unfound u t),
    fun u t e hu => absurd hu (unfound u t)⟩

namespace WellFormed

/-- What the search along strong references keeps up from wave to wave, besides growing. -/
theorem strongSearch_preserves (wf : g.WellFormed) {P : TrailSearch → List Trail → Prop}
    (step : ∀ s t rest, Growing g OutEdge.strong s (t :: rest) → P s (t :: rest) →
      P (s.arrive OutEdge.strong t) rest)
    (turn : ∀ s, Growing g OutEdge.strong s [] → P s [] → P { s with next := #[] } s.next.toList)
    (start : P g.blankSearch (g.roots.map fun r => [⟨r, none⟩])) :
    Growing g OutEdge.strong g.strongSearch [] ∧ P g.strongSearch [] ∧ g.strongSearch.next = #[] := by
  have whole := spread_preserves (P := fun s rest => Growing g OutEdge.strong s rest ∧ P s rest)
    (fun s t rest h => ⟨h.1.arrive wf, step s t rest h.1 h.2⟩) (fun s h => ⟨h.1.turn, turn s h.1 h.2⟩)
    (s := g.blankSearch) ⟨g.growing_blankSearch _, start⟩ (fun _ => rfl)
  exact ⟨whole.1.1, whole.1.2, whole.2⟩

theorem strongSearch_ends (wf : g.WellFormed) : Growing g OutEdge.strong g.strongSearch [] ∧
    Covering g OutEdge.strong (fun _ _ => True) g.strongSearch [] ∧ g.strongSearch.next = #[] := by
  apply wf.strongSearch_preserves
  · intro s t rest grow cover
    exact cover.arrive wf grow trivial fun _ _ _ => trivial
  · exact fun s _ cover => cover.turn
  · exact g.covering_blankSearch _ _

theorem fullSearch_ends (wf : g.WellFormed) : Growing g (fun _ => true) g.fullSearch [] ∧
    Covering g (fun _ => true) (fun _ _ => True) g.fullSearch [] ∧
    (∀ i t, g.strongSearch.trailOf i = some t → g.fullSearch.trailOf i = some t) ∧ g.fullSearch.next = #[] := by
  obtain ⟨grow, cover, idle⟩ := wf.strongSearch_ends
  have whole : (Growing g (fun _ => true) g.fullSearch [] ∧
      Covering g (fun _ => true) (fun _ _ => True) g.fullSearch [] ∧
      ∀ i t, g.strongSearch.trailOf i = some t → g.fullSearch.trailOf i = some t) ∧ g.fullSearch.next = #[] := by
    apply spread_preserves (P := fun s rest => Growing g (fun _ => true) s rest ∧
      Covering g (fun _ => true) (fun _ _ => True) s rest ∧
      ∀ i t, g.strongSearch.trailOf i = some t → s.trailOf i = some t)
    · intro s t rest h
      refine ⟨h.1.arrive wf, h.2.1.arrive wf h.1 trivial fun _ _ _ => trivial, ?_⟩
      intro i known hi
      exact h.1.keeps wf (h.2.2 i known hi)
    · exact fun s h => ⟨h.1.turn, h.2.1.turn, h.2.2⟩
    · exact ⟨grow.widen, cover.widen idle, fun i t hi => hi⟩
    · exact fun _ => idle
  exact ⟨whole.1.1, whole.1.2.1, whole.1.2.2, whole.2⟩

/-- Trails lead to exactly the objects that roots lead to. -/
theorem exists_trail_iff (wf : g.WellFormed) : (∃ t, g.fullSearch.trailOf i = some t) ↔ g.Reachable i := by
  obtain ⟨grow, cover, -, idle⟩ := wf.fullSearch_ends
  constructor
  · intro h
    obtain ⟨t, ht⟩ := h
    refine grow.induct (P := fun i _ => g.Reachable i) (fun r hr => .root hr) ?_ ht
    intro u t e _ he _ _ reached
    obtain ⟨r, hr, resolved, -⟩ := mem_outEdges.mp he
    exact .step reached (List.mem_of_getElem? hr) resolved
  · intro reached
    induction reached with
    | root hi =>
      obtain ⟨t, ht, -⟩ := cover.root hi
      exact ⟨t, ht⟩
    | step _ hr resolved ih =>
      obtain ⟨t, ht⟩ := ih
      obtain ⟨e, he, rfl, -⟩ := exists_outEdge hr resolved
      obtain ⟨known, hk, -⟩ := cover.target idle ht he rfl
      exact ⟨known, hk⟩

/-- The objects that a trail goes through are those of the heap. -/
theorem trail_lt (wf : g.WellFormed) {t : Trail} (ht : g.fullSearch.trailOf i = some t) :
    ∀ stop ∈ t, stop.place < g.size := by
  obtain ⟨grow, -⟩ := wf.fullSearch_ends
  refine grow.induct (P := fun _ t => ∀ stop ∈ t, stop.place < g.size) ?_ ?_ ht
  · intro r hr stop hs
    rw [List.mem_singleton.mp hs]
    exact wf.roots_lt r hr
  · intro u t e _ he _ _ inside stop hs
    cases List.mem_cons.mp hs with
    | inl last =>
      rw [last]
      exact wf.outEdge_lt he
    | inr earlier => exact inside stop earlier

end WellFormed

end HeapGraph

end Retention
