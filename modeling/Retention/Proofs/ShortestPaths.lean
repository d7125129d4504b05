import Retention.Proofs.AcceptedRecords
import Retention.Proofs.LoadedSnapshots
import Retention.Proofs.RankedSearches

namespace Retention

namespace HeapGraph

open TrailSearch

variable {g : HeapGraph} {i u v : Nat} {path other : List Nat} {s : TrailSearch} {t : Trail} {rest : List Trail}

/-- What paths of the same length are compared by: the registration of the root that they start at,
then the ids of the objects that follow. -/
def pathRank (g : HeapGraph) : List Nat → List Nat
  | [] => []
  | root :: later => g.roots.idxOf root :: later.map fun i => (g.idOf i).value.toNat

@[simp] theorem length_pathRank (g : HeapGraph) (path : List Nat) : (g.pathRank path).length = path.length := by
  cases path <;> simp [pathRank]

theorem pathRank_append (hp : path ≠ []) (v : Nat) :
    g.pathRank (path ++ [v]) = g.pathRank path ++ [(g.idOf v).value.toNat] := by
  cases path with
  | nil => exact absurd rfl hp
  | cons root later => simp [pathRank]

theorem RootPath.ne_nil (h : g.RootPath i path) : path ≠ [] := by
  cases h <;> simp

/-- Paths of one rank end at one object. -/
theorem WellFormed.eq_of_pathRank (wf : g.WellFormed) (hu : g.RootPath u path) (hv : g.RootPath v other)
    (same : g.pathRank path = g.pathRank other) : u = v := by
  have lengths := congrArg List.length same
  cases hu with
  | root hr =>
    cases hv with
    | root _ =>
      have index : g.roots.idxOf u = g.roots.idxOf v := (List.cons.inj same).1
      exact (List.idxOf_inj hr).mp index
    | step before _ =>
      simp only [length_pathRank, List.length_append, List.length_singleton, Nat.right_eq_add] at lengths
      exact absurd (List.length_eq_zero_iff.mp lengths) before.ne_nil
  | step before hold =>
    cases hv with
    | root _ =>
      simp only [length_pathRank, List.length_append, List.length_singleton, Nat.add_eq_right] at lengths
      exact absurd (List.length_eq_zero_iff.mp lengths) before.ne_nil
    | step before' hold' =>
      rw [pathRank_append before.ne_nil, pathRank_append before'.ne_nil] at same
      have last := List.cons.inj (List.append_inj_right' same rfl)
      have ids : g.idOf u = g.idOf v := ObjectId.eq_of_value (UInt64.toNat_inj.mp last.1)
      exact wf.idOf_inj (wf.target_lt hold) (wf.target_lt hold') ids

/-- The objects that a trail goes through, from its root on. -/
def placesOf (t : Trail) : List Nat := (t.map Stop.place).reverse

@[simp] theorem length_placesOf (t : Trail) : (placesOf t).length = t.length := by
  simp [placesOf]

theorem placesOf_extend (t : Trail) (e : OutEdge) : placesOf (extend t e) = placesOf t ++ [e.target] := by
  simp [placesOf, extend]

/-- What trails are compared by: the rank of the path that they go along. -/
def trailRank (g : HeapGraph) (t : Trail) : List Nat := g.pathRank (placesOf t)

@[simp] theorem length_trailRank (g : HeapGraph) (t : Trail) : (g.trailRank t).length = t.length := by
  simp [trailRank]

theorem trailRank_goesOn (ht : placesOf t ≠ []) (e : OutEdge) : RankGoesOn g g.trailRank t e := by
  unfold RankGoesOn trailRank
  rw [placesOf_extend, pathRank_append ht]

theorem mem_outEdges_holds {e : OutEdge} (he : e ∈ g.outEdges u) (strong : e.strong = true) : g.Holds u e.target := by
  obtain ⟨r, hr, resolved, same⟩ := mem_outEdges.mp he
  exact ⟨r, List.mem_of_getElem? hr, same.trans strong, resolved⟩

/-- Trails along strong references are paths from roots. -/
theorem rootPath_of_trail (grow : Growing g OutEdge.strong s rest) (hi : s.trailOf i = some t) :
    g.RootPath i (placesOf t) := by
  refine grow.induct (P := fun i t => g.RootPath i (placesOf t)) (fun r hr => .root hr) ?_ hi
  intro u t e _ he strong _ before
  rw [placesOf_extend]
  exact .step before (mem_outEdges_holds he strong)

theorem rootPath_of_grown (grow : Growing g OutEdge.strong s rest) {stop : Stop} {before : Trail}
    (grown : s.Grown g OutEdge.strong (stop :: before)) : g.RootPath stop.place (placesOf (stop :: before)) := by
  cases grown with
  | inl root =>
    obtain ⟨r, hr, same⟩ := root
    obtain ⟨rfl, rfl⟩ := List.cons.inj same
    exact .root hr
  | inr grown =>
    obtain ⟨u, front, e, hu, he, strong, same⟩ := grown
    obtain ⟨rfl, rfl⟩ := List.cons.inj same
    have whole : g.RootPath e.target (placesOf (extend before e)) := by
      rw [placesOf_extend]
      exact .step (rootPath_of_trail grow hu) (mem_outEdges_holds he strong)
    exact whole

theorem WellFormed.ranked_arrive {n : Nat} (wf : g.WellFormed) (grow : Growing g OutEdge.strong s (t :: rest))
    (ranked : Ranked g g.trailRank s (t :: rest) n) : Ranked g g.trailRank (s.arrive OutEdge.strong t) rest n := by
  have grown := grow.queued t List.mem_cons_self
  apply ranked.arrive wf grow
  · intro stop before same _ e _ _
    rw [same] at grown ⊢
    exact trailRank_goesOn (rootPath_of_grown grow grown).ne_nil e
  · intro stop before same _ u front hu equal
    rw [same] at grown equal
    exact wf.eq_of_pathRank (rootPath_of_trail grow hu) (rootPath_of_grown grow grown) equal

theorem ranked_blankSearch (nodup : g.roots.Nodup) :
    Ranked g g.trailRank g.blankSearch (g.roots.map fun r => [⟨r, none⟩]) 1 where
  queued := by
    intro t ht
    obtain ⟨r, -, rfl⟩ := List.mem_map.mp ht
    rfl
  next := fun t ht => absurd ht List.not_mem_nil
  sorted := by
    rw [List.pairwise_map, List.pairwise_iff_getElem]
    intro a b ha hb less
    refine .inr ⟨rfl, .inl ?_⟩
    simpa [trailRank, placesOf, pathRank, nodup.idxOf_getElem, List.cons_lt_cons_iff] using less
  sorted_next := List.Pairwise.nil
  early := by
    intro i t hi
    rw [trailOf_blankSearch] at hi
    cases hi

namespace WellFormed

/-- The search along strong references settles every object by a trail that no other comes before. -/
theorem strongSearch_covering (wf : g.WellFormed) (nodup : g.roots.Nodup) :
    Growing g OutEdge.strong g.strongSearch [] ∧
      Covering g OutEdge.strong (InOrder g.trailRank) g.strongSearch [] ∧ g.strongSearch.next = #[] := by
  have whole : Growing g OutEdge.strong g.strongSearch [] ∧
      ((∃ n, Ranked g g.trailRank g.strongSearch [] n) ∧
        Covering g OutEdge.strong (InOrder g.trailRank) g.strongSearch []) ∧ g.strongSearch.next = #[] := by
    apply wf.strongSearch_preserves (P := fun s rest => (∃ n, Ranked g g.trailRank s rest n) ∧
      Covering g OutEdge.strong (InOrder g.trailRank) s rest)
    · intro s t rest grow h
      obtain ⟨⟨n, ranked⟩, cover⟩ := h
      have early : ∀ i known, s.trailOf i = some known → InOrder g.trailRank known t :=
        fun i known hi => (ranked.early i known hi).2 t List.mem_cons_self
      exact ⟨⟨n, wf.ranked_arrive grow ranked⟩, cover.arrive wf grow (inOrder_refl _ t) early⟩
    · intro s _ h
      obtain ⟨⟨n, ranked⟩, cover⟩ := h
      exact ⟨⟨n + 1, ranked.turn⟩, cover.turn⟩
    · exact ⟨⟨1, ranked_blankSearch nodup⟩, g.covering_blankSearch _ _⟩
  exact ⟨whole.1, whole.2.1.2, whole.2.2⟩

/-- No path from a root is shorter than the trail, and none of the same length has a lower rank. -/
theorem exists_least_trail (wf : g.WellFormed) (nodup : g.roots.Nodup) (hp : g.RootPath i path) :
    ∃ t, g.strongSearch.trailOf i = some t ∧ (t.length < path.length ∨ t.length = path.length ∧
      g.pathRank (placesOf t) ≤ g.pathRank path) := by
  obtain ⟨grow, cover, idle⟩ := wf.strongSearch_covering nodup
  have least : ∃ t, g.strongSearch.trailOf i = some t ∧ NoLater (g.trailRank t) (g.pathRank path) := by
    induction hp with
    | root hi =>
      obtain ⟨t, ht, first⟩ := cover.root hi
      exact ⟨t, ht, first.noLater⟩
    | step before hold ih =>
      obtain ⟨t, ht, least⟩ := ih
      obtain ⟨r, hr, strong, resolved⟩ := hold
      obtain ⟨e, he, rfl, also⟩ := exists_outEdge hr resolved
      obtain ⟨known, hk, first⟩ := cover.target idle ht he (also.trans strong)
      have goesOn := trailRank_goesOn (g := g) (rootPath_of_trail grow ht).ne_nil e
      refine ⟨known, hk, first.noLater.trans ?_⟩
      rw [goesOn, pathRank_append before.ne_nil]
      exact least.append _
  obtain ⟨t, ht, least⟩ := least
  refine ⟨t, ht, ?_⟩
  simpa only [NoLater, trailRank, length_pathRank, length_placesOf] using least

end WellFormed

/-- The label of the earliest strong reference from the object at `u` to the object at `v`. -/
def heldLabel (g : HeapGraph) (u v : Nat) : Option RefLabel :=
  ((g.referencesOf u).find? fun r => r.strong && r.resolved == some v).map Reference.label

/-- The trail takes the earliest strong reference to each of its objects. -/
theorem WellFormed.label_of_trail (wf : g.WellFormed) (nodup : g.roots.Nodup) {e : OutEdge}
    (hu : g.strongSearch.trailOf u = some t) (he : e ∈ g.outEdges u) (strong : e.strong = true)
    (hv : g.strongSearch.trailOf e.target = some (extend t e)) :
    ((g.referencesOf u)[e.via]?).map Reference.label = g.heldLabel u e.target := by
  obtain ⟨grow, cover, idle⟩ := wf.strongSearch_covering nodup
  obtain ⟨r, hr, resolved, also⟩ := mem_outEdges.mp he
  have found : ((g.referencesOf u).find? fun r => r.strong && r.resolved == some e.target) = some r := by
    apply cover.earliest idle hu hv hr
    · simp [resolved, also, strong]
    · intro q hq
      simpa [and_comm] using hq
    · intro via _ first
      exact first.lastVia_le (by rw [trailRank, trailRank, placesOf_extend, placesOf_extend])
  rw [heldLabel, found, hr]

end HeapGraph

theorem zipWith_tail_concat {α β : Type} (f : α → α → β) {items : List α} {u : α} (last : items.getLast? = some u)
    (v : α) : (items ++ [v]).zipWith f (items ++ [v]).tail = items.zipWith f items.tail ++ [f u v] := by
  induction items with
  | nil => simp at last
  | cons a rest ih =>
    cases rest with
    | nil =>
      obtain rfl : a = u := by simpa using last
      rfl
    | cons b rest =>
      have later := ih (by simpa using last)
      simpa using later

namespace Snapshot

open HeapGraph TrailSearch

variable {s : Snapshot} {id : ObjectId} {i : Nat} {t : Trail}

theorem map_id_steps (s : Snapshot) (awaited : Option Nat) (t : Trail) :
    (s.steps awaited t).map PathStep.id = t.map fun stop => s.graph.idOf stop.place := by
  induction t generalizing awaited with
  | nil => rfl
  | cons stop before ih =>
    simp only [steps, List.map_cons, ih]

/-- The labels of a strong trail are those of the earliest strong references between its objects. -/
theorem map_label_steps (wf : s.graph.WellFormed) (nodup : s.graph.roots.Nodup)
    (ht : s.graph.strongSearch.trailOf i = some t) (awaited : Option Nat) :
    ((s.steps awaited t).map PathStep.label).reverse =
      none :: (placesOf t).zipWith s.graph.heldLabel (placesOf t).tail := by
  obtain ⟨grow, -, -⟩ := wf.strongSearch_covering nodup
  have whole : ∀ awaited, ((s.steps awaited t).map PathStep.label).reverse =
      none :: (placesOf t).zipWith s.graph.heldLabel (placesOf t).tail := by
    refine grow.induct (P := fun _ t => ∀ awaited, ((s.steps awaited t).map PathStep.label).reverse =
      none :: (placesOf t).zipWith s.graph.heldLabel (placesOf t).tail) ?_ ?_ ht
    · intro r _ awaited
      rfl
    · intro u t e hu he strong hv ih awaited
      obtain ⟨via, before, rfl⟩ := grow.ends u t hu
      have last : (placesOf (⟨u, via⟩ :: before)).getLast? = some u := by simp [placesOf]
      have label := wf.label_of_trail nodup hu he strong hv
      rw [placesOf_extend, zipWith_tail_concat _ last, ← label]
      change (s.labelOf (some e.via) (⟨u, via⟩ :: before) :: (s.steps _ _).map PathStep.label).reverse = _
      rw [List.reverse_cons, ih]
      rfl
  exact whole awaited

/-- The path to an object that strong references reach is a path of strong references from a root, of
the least length, and of the least rank among those of that length; the first step has no label, and
each later one has that of the earliest strong reference from the object before. -/
theorem path_least {plan : CancelPlan} {expected : Nat} {records : List Record}
    (loaded : (plan.run (loadExpecting expected records)).1 = .ok s) :
    (HeapGraph.build expected records).outcome.1 = .ok s.graph ∧
    ∀ id i, s.graph.lookup id = some i → s.graph.StronglyReachable i →
      ∃ steps places, s.path id = .ok steps ∧ steps.map PathStep.id = s.idsOf places ∧
        s.graph.RootPath i places ∧
        (∀ other, s.graph.RootPath i other → places.length ≤ other.length ∧
          (other.length = places.length → s.graph.pathRank places ≤ s.graph.pathRank other)) ∧
        steps.map PathStep.label = none :: places.zipWith s.graph.heldLabel places.tail := by
  have outcome := outcome_of_run loaded
  obtain ⟨built, l⟩ := loaded_of_load outcome
  have nodup := nodup_roots_of_build built
  refine ⟨built, fun id i found reached => ?_⟩
  obtain ⟨path, hp⟩ := reached
  obtain ⟨t, ht, -⟩ := l.wf.exists_least_trail nodup hp
  obtain ⟨grow, -, -⟩ := l.wf.strongSearch_covering nodup
  obtain ⟨-, -, kept, -⟩ := l.wf.fullSearch_ends
  have trail : s.trailOf i = some t := by
    rw [trailOf_of_load outcome]
    exact kept i t ht
  refine ⟨_, placesOf t, path_eq_ok found trail, ?_, rootPath_of_trail grow ht, ?_, ?_⟩
  · rw [List.map_reverse, map_id_steps, idsOf, placesOf, List.map_reverse, List.map_map]
    rfl
  · intro other ho
    obtain ⟨known, hk, least⟩ := l.wf.exists_least_trail nodup ho
    obtain rfl := Option.some.inj (ht.symm.trans hk)
    rw [length_placesOf]
    rcases least with shorter | ⟨same, rank⟩
    · exact ⟨Nat.le_of_lt shorter, fun equal => absurd equal (Nat.ne_of_gt shorter)⟩
    · exact ⟨Nat.le_of_eq same, fun _ => rank⟩
  · rw [List.map_reverse]
    exact map_label_steps l.wf nodup ht (some i)

/-- An object at the end of three shortest paths, from two roots and through two objects, with weak
references that would be shorter or earlier and a cycle back to the first root. -/
def crossing : List Record :=
  [.root ⟨8⟩ .thread, .root ⟨2⟩ .monitor,
    .object .instanceObject ⟨⟨8⟩, none, 16, [⟨.field "near", some ⟨5⟩, false⟩, ⟨.field "far", some ⟨6⟩, true⟩,
      ⟨.field "mid", some ⟨4⟩, true⟩]⟩,
    .object .instanceObject ⟨⟨2⟩, none, 16, [⟨.field "mid", some ⟨4⟩, true⟩]⟩,
    .object .instanceObject ⟨⟨4⟩, none, 16, [⟨.field "back", some ⟨8⟩, true⟩, ⟨.field "seen", some ⟨5⟩, false⟩,
      ⟨.field "held", some ⟨5⟩, true⟩, ⟨.field "again", some ⟨5⟩, true⟩]⟩,
    .object .instanceObject ⟨⟨6⟩, none, 16, [⟨.field "end", some ⟨5⟩, true⟩]⟩,
    .object .primitiveArray ⟨⟨5⟩, none, 16, []⟩]

theorem build_crossing {g : HeapGraph} (built : (HeapGraph.build 7 crossing).outcome.1 = .ok g) :
    0 ∈ g.roots ∧ g.lookup ⟨5⟩ = some 4 ∧ 2 ∈ (g.node? 0).elim [] Node.successors ∧
      4 ∈ (g.node? 2).elim [] Node.successors := by
  have known : (HeapGraph.build 7 crossing).outcome.1.map (fun g =>
      decide (0 ∈ g.roots ∧ g.lookup ⟨5⟩ = some 4 ∧ 2 ∈ (g.node? 0).elim [] Node.successors ∧
        4 ∈ (g.node? 2).elim [] Node.successors)) = .ok true := rfl
  rw [built] at known
  exact of_decide_eq_true (Except.ok.inj known)

theorem path_least_crossing : ∃ s, (CancelPlan.never.run (loadExpecting 7 crossing)).1 = .ok s ∧
    s.graph.lookup ⟨5⟩ = some 4 ∧ s.graph.StronglyReachable 4 ∧
    ∃ steps places, s.path ⟨5⟩ = .ok steps ∧ steps.map PathStep.id = s.idsOf places ∧
      s.graph.RootPath 4 places ∧
      (∀ other, s.graph.RootPath 4 other → places.length ≤ other.length ∧
        (other.length = places.length → s.graph.pathRank places ≤ s.graph.pathRank other)) ∧
      steps.map PathStep.label = none :: places.zipWith s.graph.heldLabel places.tail := by
  have fits : ∃ s, (loadExpecting 7 crossing).outcome.1 = .ok s := by
    refine exists_load rfl (Nat.lt_of_le_of_lt (HeapGraph.bytesOf_le_all _ _) ?_)
    decide +kernel
  obtain ⟨s, loaded⟩ := fits
  rw [← CancelPlan.run_never] at loaded
  obtain ⟨built, least⟩ := path_least loaded
  obtain ⟨root, found, mid, held⟩ := build_crossing built
  have reached : s.graph.StronglyReachable 4 :=
    ⟨[0] ++ [2] ++ [4], .step (.step (.root root) (holds_iff.mpr mid)) (holds_iff.mpr held)⟩
  exact ⟨s, loaded, found, reached, least ⟨5⟩ 4 found reached⟩

end Snapshot

end Retention
