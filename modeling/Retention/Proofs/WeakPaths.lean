import Retention.Proofs.WeakExits

namespace Retention

namespace HeapGraph

open TrailSearch

/-- A path of references from a root to an object, with the number of those that are not strong. -/
inductive ReferencePath (g : HeapGraph) : Nat → List Nat → Nat → Prop where
  | root {i : Nat} : i ∈ g.roots → ReferencePath g i [i] 0
  | step {i j weak : Nat} {path : List Nat} {r : Reference} : ReferencePath g i path weak → r ∈ g.referencesOf i →
      r.resolved = some j → ReferencePath g j (path ++ [j]) (weak + if r.strong then 0 else 1)

/-- References lead from the object at `u` to another one through the objects of the tail, none of which
is strongly reachable. -/
inductive Leads (g : HeapGraph) (u : Nat) : List Nat → Nat → Prop where
  | here : Leads g u [] u
  | step {v w : Nat} {tail : List Nat} {r : Reference} : Leads g u tail v → r ∈ g.referencesOf v →
      r.resolved = some w → ¬ g.StronglyReachable w → Leads g u (tail ++ [w]) w

variable {g : HeapGraph} {i u v weak : Nat} {t base : Trail} {e : OutEdge} {path front tail order : List Nat}

theorem Leads.getLast? (h : g.Leads u tail v) : (u :: tail).getLast? = some v := by
  cases h with
  | here => rfl
  | step => simp [List.getLast?_cons]

/-- The part of a path after a strongly reachable object with no other one after it. -/
theorem ReferencePath.leads (h : g.ReferencePath i path weak) (split : path = front ++ u :: tail)
    (outside : ∀ x ∈ tail, ¬ g.StronglyReachable x) : g.Leads u tail i := by
  induction h generalizing tail with
  | root _ =>
    obtain ⟨rfl, same⟩ : front = [] ∧ u :: tail = [_] := by
      cases front with
      | nil => exact ⟨rfl, split.symm⟩
      | cons first later => simp at split
    obtain ⟨rfl, rfl⟩ := List.cons.inj same
    exact .here
  | step _ hr resolved ih =>
    rcases List.eq_nil_or_concat' tail with rfl | ⟨earlier, w, rfl⟩
    · obtain ⟨-, same⟩ := List.append_inj' split rfl
      obtain rfl := (List.cons.inj same).1
      exact .here
    · rw [← List.cons_append, ← List.append_assoc] at split
      obtain ⟨before, same⟩ := List.append_inj' split rfl
      obtain rfl := (List.cons.inj same).1
      exact .step (ih before fun x hx => outside x (by simp [hx])) hr resolved (outside _ (by simp))

theorem RootPath.referencePath (h : g.RootPath u path) : g.ReferencePath u path 0 := by
  induction h with
  | root hi => exact .root hi
  | step _ hold ih =>
    obtain ⟨r, hr, strong, resolved⟩ := hold
    have whole := ReferencePath.step ih hr resolved
    rwa [strong] at whole

theorem Leads.referencePath (h : g.Leads u tail v) (hp : g.RootPath u path) :
    ∃ weak, g.ReferencePath v (path ++ tail) weak := by
  induction h with
  | here => exact ⟨0, by simpa using hp.referencePath⟩
  | step _ hr resolved _ ih =>
    obtain ⟨weak, before⟩ := ih
    rw [← List.append_assoc]
    exact ⟨_, .step before hr resolved⟩

/-- A reference to an object that is not strongly reachable, from one that is, is not strong. -/
theorem StronglyReachable.weak_of_unreached {r : Reference} (reached : g.StronglyReachable u)
    (hr : r ∈ g.referencesOf u) (resolved : r.resolved = some v) (unreached : ¬ g.StronglyReachable v) :
    r.strong = false := by
  rw [Bool.eq_false_iff]
  intro strong
  obtain ⟨path, hp⟩ := reached
  exact unreached ⟨_, .step hp ⟨r, hr, strong, resolved⟩⟩

/-- Weakly reachable objects do not hold each other. -/
def WeakApart (g : HeapGraph) : Prop :=
  ∀ i j, g.Reachable i → ¬ g.StronglyReachable i → g.Holds i j → g.StronglyReachable j

theorem Leads.reachable (h : g.Leads u tail v) (reached : g.StronglyReachable u) : g.Reachable v := by
  induction h with
  | here => exact reached.reachable
  | step _ hr resolved _ ih => exact .step ih hr resolved

theorem WeakApart.weak_of_unreached {r : Reference} (apart : g.WeakApart) (reached : g.Reachable u)
    (hr : r ∈ g.referencesOf u) (resolved : r.resolved = some v) (unreached : ¬ g.StronglyReachable v) :
    r.strong = false := by
  by_cases strong : g.StronglyReachable u
  · exact strong.weak_of_unreached hr resolved unreached
  · rw [Bool.eq_false_iff]
    exact fun held => unreached (apart u v reached strong ⟨r, hr, held, resolved⟩)

/-- The path takes as many references that are not strong as it has objects beyond. -/
theorem WeakApart.referencePath (apart : g.WeakApart) (h : g.Leads u tail v) (hp : g.RootPath u path) :
    g.ReferencePath v (path ++ tail) tail.length := by
  induction h with
  | here => simpa using hp.referencePath
  | step before hr resolved unreached ih =>
    have weak := apart.weak_of_unreached (before.reachable ⟨path, hp⟩) hr resolved unreached
    have whole := ReferencePath.step ih hr resolved
    rw [weak, List.append_assoc] at whole
    simpa using whole

/-- Every path takes as many references that are not strong as it has objects beyond, and leads to the
object that it leaves by strong ones if it takes no more. -/
theorem WeakApart.exists_leads (apart : g.WeakApart) (h : g.ReferencePath i path weak) :
    ∃ u front tail, path = front ++ tail ∧ g.StronglyReachable u ∧ g.Leads u tail i ∧ tail.length ≤ weak ∧
      (weak = tail.length → g.RootPath u front) := by
  induction h with
  | @root i hi => exact ⟨i, [i], [], rfl, ⟨_, .root hi⟩, .here, Nat.le_refl 0, fun _ => .root hi⟩
  | @step i j weak path r before hr resolved ih =>
    obtain ⟨u, front, tail, rfl, reached, leads, least, strong⟩ := ih
    by_cases back : g.StronglyReachable j
    · refine ⟨j, front ++ tail ++ [j], [], by simp, back, .here, Nat.zero_le _, fun none => ?_⟩
      have held : r.strong = true := by
        by_contra weak
        simp [weak] at none
      simp only [held, if_true, List.length_nil, Nat.add_zero] at none
      obtain rfl : tail = [] := List.length_eq_zero_iff.mp (by omega)
      obtain rfl : u = i := by simpa using leads.getLast?
      rw [List.append_nil]
      exact .step (strong (by simpa using none)) ⟨r, hr, held, resolved⟩
    · have weak := apart.weak_of_unreached (leads.reachable reached) hr resolved back
      refine ⟨u, front, tail ++ [j], by simp, reached, .step leads hr resolved back, ?_, fun same => strong ?_⟩
      · simpa [weak] using least
      · simpa [weak] using same

/-- The earliest reference from the object at `u` to the object at `v`. -/
def firstReference (g : HeapGraph) (u v : Nat) : Option Reference :=
  (g.referencesOf u).find? fun r => r.resolved == some v

def linkLabel (g : HeapGraph) (u v : Nat) : Option RefLabel := (g.firstReference u v).map Reference.label

/-- What leaves the strongly reachable objects does so by a reference that is not strong. -/
theorem Leads.exists_first (h : g.Leads u tail v) (reached : g.StronglyReachable u) (beyond : tail ≠ []) :
    ∃ first r, tail.head? = some first ∧ g.firstReference u first = some r ∧ r.strong = false := by
  induction h with
  | here => exact absurd rfl beyond
  | @step v w tail r before hr resolved unreached ih =>
    by_cases empty : tail = []
    · subst empty
      obtain rfl : u = v := by simpa using before.getLast?
      have hit : (g.firstReference u w).isSome := List.find?_isSome.mpr ⟨r, hr, by simp [resolved]⟩
      obtain ⟨q, hq⟩ := Option.isSome_iff_exists.mp hit
      have target : q.resolved = some w := by simpa using List.find?_some hq
      exact ⟨w, q, rfl, hq, reached.weak_of_unreached (List.mem_of_find?_eq_some hq) target unreached⟩
    · obtain ⟨first, q, head, rest⟩ := ih empty
      exact ⟨first, q, by simp [head], rest⟩

/-- What the ids of objects are compared by. -/
def idNumbers (g : HeapGraph) (places : List Nat) : List Nat := places.map fun i => (g.idOf i).value.toNat

theorem idNumbers_append (g : HeapGraph) (places : List Nat) (v : Nat) :
    g.idNumbers (places ++ [v]) = g.idNumbers places ++ [(g.idOf v).value.toNat] := by
  simp [idNumbers]

@[simp] theorem length_idNumbers (g : HeapGraph) (places : List Nat) : (g.idNumbers places).length = places.length := by
  simp [idNumbers]

/-- The trail leaves what strong references reach at `u`, and goes on through the objects of the tail. -/
inductive Exit (g : HeapGraph) (u : Nat) (base : Trail) : List Nat → Nat → Trail → Prop where
  | here : g.strongSearch.trailOf u = some base → Exit g u base [] u base
  | step {v : Nat} {t : Trail} {e : OutEdge} {tail : List Nat} : Exit g u base tail v t →
      g.fullSearch.trailOf v = some t → e ∈ g.outEdges v → g.fullSearch.trailOf e.target = some (extend t e) →
      ¬ g.StronglyReachable e.target → Exit g u base (tail ++ [e.target]) e.target (extend t e)

theorem Exit.strongTrail (h : g.Exit u base tail i t) : g.strongSearch.trailOf u = some base := by
  induction h with
  | here hu => exact hu
  | step _ _ _ _ _ ih => exact ih

theorem Exit.places (h : g.Exit u base tail i t) : placesOf t = placesOf base ++ tail := by
  induction h with
  | here _ => simp
  | step _ _ _ _ _ ih => rw [placesOf_extend, ih, List.append_assoc]

theorem Exit.leads (h : g.Exit u base tail i t) : g.Leads u tail i := by
  induction h with
  | here _ => exact .here
  | step _ _ he _ unreached ih =>
    obtain ⟨r, hr, resolved, -⟩ := mem_outEdges.mp he
    exact .step ih (List.mem_of_getElem? hr) resolved unreached

namespace WellFormed

variable (wf : g.WellFormed)

include wf

theorem exitRank_goesOn_beyond (unreached : ¬ g.StronglyReachable e.target) : RankGoesOn g (g.exitRank order) t e := by
  apply exitRank_goesOn
  rw [wf.strongTrail_eq_none unreached]
  simp

theorem exitRank_exit (h : g.Exit u base tail i t) : g.exitRank order t = order.idxOf u :: g.idNumbers tail := by
  induction h with
  | here hu => exact wf.exitRank_strongTrail hu
  | step _ _ _ _ unreached ih => rw [wf.exitRank_goesOn_beyond unreached, ih, idNumbers_append, List.cons_append]

theorem exists_exit (ht : g.fullSearch.trailOf i = some t) : ∃ u base tail, g.Exit u base tail i t := by
  obtain ⟨grow, -, kept, -⟩ := wf.fullSearch_ends
  have reached : ∀ {i t}, g.StronglyReachable i → g.fullSearch.trailOf i = some t →
      ∃ u base tail, g.Exit u base tail i t := by
    intro i t reached ht
    obtain ⟨known, hk⟩ := wf.exists_strongTrail_iff.mpr reached
    obtain rfl := Option.some.inj ((kept i known hk).symm.trans ht)
    exact ⟨i, known, [], .here hk⟩
  refine grow.induct (P := fun i t => g.fullSearch.trailOf i = some t → ∃ u base tail, g.Exit u base tail i t)
    (fun r hr => reached ⟨_, .root hr⟩) ?_ ht ht
  intro v t e hv he _ _ ih ht
  by_cases strong : g.StronglyReachable e.target
  · exact reached strong ht
  · obtain ⟨u, base, tail, exit⟩ := ih hv
    exact ⟨u, base, tail ++ [e.target], .step exit hv he ht strong⟩

theorem length_exitRank_beyond (hv : g.fullSearch.trailOf v = some t) (unreached : ¬ g.StronglyReachable e.target) :
    2 ≤ (g.exitRank order (extend t e)).length := by
  obtain ⟨u, base, tail, exit⟩ := wf.exists_exit hv
  rw [wf.exitRank_goesOn_beyond unreached, wf.exitRank_exit exit]
  simp

section Discovered

variable (found : g.Discovered g.strongSearch order)

include found

/-- No way beyond the strongly reachable objects comes before the trail. -/
theorem exists_least_exit (reached : g.StronglyReachable u) (h : g.Leads u tail v) :
    ∃ t, g.fullSearch.trailOf v = some t ∧ NoLater (g.exitRank order t) (order.idxOf u :: g.idNumbers tail) := by
  obtain ⟨grow, -, kept, idle⟩ := wf.fullSearch_ends
  have cover := (wf.leaving_fullSearch found).cover
  induction h with
  | here =>
    obtain ⟨t, ht⟩ := wf.exists_strongTrail_iff.mpr reached
    refine ⟨t, kept u t ht, .inr ?_⟩
    rw [wf.exitRank_strongTrail ht]
    exact ⟨rfl, le_refl _⟩
  | step _ hr resolved unreached ih =>
    obtain ⟨t, ht, least⟩ := ih
    obtain ⟨e, he, rfl, -⟩ := exists_outEdge hr resolved
    obtain ⟨known, hk, first⟩ := cover.target idle ht he rfl
    have goesOn : RankGoesOn g (g.exitRank order) t e := wf.exitRank_goesOn_beyond unreached
    refine ⟨known, hk, (first (wf.length_exitRank_beyond ht unreached)).noLater.trans ?_⟩
    rw [goesOn, idNumbers_append, ← List.cons_append]
    exact least.append _

/-- The trail takes the earliest reference to each object beyond. -/
theorem firstReference_of_trail {r : Reference} (hv : g.fullSearch.trailOf v = some t)
    (ht : g.fullSearch.trailOf e.target = some (extend t e)) (unreached : ¬ g.StronglyReachable e.target)
    (hr : (g.referencesOf v)[e.via]? = some r) (resolved : r.resolved = some e.target) :
    g.firstReference v e.target = some r := by
  have cover := (wf.leaving_fullSearch found).cover
  apply cover.earliest wf.fullSearch_ends.2.2.2 hv ht hr
  · simp [resolved]
  · intro q hq
    simpa using hq
  · intro via strong first
    have goesOn : RankGoesOn g (g.exitRank order) t e := wf.exitRank_goesOn_beyond unreached
    have other : RankGoesOn g (g.exitRank order) t ⟨e.target, via, strong⟩ := wf.exitRank_goesOn_beyond unreached
    exact (first (wf.length_exitRank_beyond hv unreached)).lastVia_le (goesOn.trans other.symm)

/-- No way to the object has fewer objects beyond than the trail that is found, and where one has as many, it
leaves an object that was found later, or the same one and has ids that are no lower. -/
theorem exit_least (ht : g.fullSearch.trailOf i = some t) (exit : g.Exit u base tail i t) {other : List Nat}
    (reached : g.StronglyReachable v) (leads : g.Leads v other i) :
    tail.length ≤ other.length ∧ (other.length = tail.length →
      order.idxOf u :: g.idNumbers tail ≤ order.idxOf v :: g.idNumbers other) := by
  obtain ⟨known, hk, least⟩ := wf.exists_least_exit found reached leads
  obtain rfl := Option.some.inj (ht.symm.trans hk)
  rw [wf.exitRank_exit exit] at least
  simp only [NoLater, List.length_cons, length_idNumbers, Nat.add_lt_add_iff_right, Nat.add_right_cancel_iff] at least
  rcases least with shorter | ⟨same, lower⟩
  · exact ⟨Nat.le_of_lt shorter, fun equal => absurd equal (Nat.ne_of_gt shorter)⟩
  · exact ⟨Nat.le_of_eq same, fun _ => lower⟩

/-- Among the ways with as few objects beyond, none by strong references leaves after fewer objects. -/
theorem exit_shortest (nodup : g.roots.Nodup) (ht : g.fullSearch.trailOf i = some t) (exit : g.Exit u base tail i t)
    {other : List Nat} (hv : g.RootPath v path) (leads : g.Leads v other i) :
    tail.length ≤ other.length ∧ (other.length = tail.length → (placesOf base).length ≤ path.length) := by
  obtain ⟨fewest, least⟩ := wf.exit_least found ht exit ⟨path, hv⟩ leads
  refine ⟨fewest, fun same => ?_⟩
  have first : order.idxOf u ≤ order.idxOf v := by
    rcases (append_le_append_iff (a := [order.idxOf u]) (b := [order.idxOf v]) rfl).mp (least same) with less | equal
    · exact Nat.le_of_lt (by simpa [List.cons_lt_cons_iff] using less)
    · exact Nat.le_of_eq (List.cons.inj equal.1).1
  obtain ⟨known, hk, short⟩ := wf.exists_least_trail nodup hv
  have front := found.length_le exit.strongTrail hk first
  rw [length_placesOf]
  rcases short with shorter | equal <;> omega

end Discovered

end WellFormed

end HeapGraph

namespace Snapshot

open HeapGraph TrailSearch

variable {s : Snapshot} {id : ObjectId} {i u : Nat} {t base : Trail} {tail order : List Nat}

theorem map_id_path (s : Snapshot) (awaited : Option Nat) (t : Trail) :
    (s.steps awaited t).reverse.map PathStep.id = s.idsOf (placesOf t) := by
  rw [List.map_reverse, map_id_steps, idsOf, placesOf, List.map_reverse, List.map_map]
  rfl

theorem map_label_steps_any (s : Snapshot) (awaited other : Option Nat) (t : Trail) :
    (s.steps awaited t).map PathStep.label = (s.steps other t).map PathStep.label := by
  induction t generalizing awaited other with
  | nil => rfl
  | cons stop before ih => exact congrArg (s.labelOf stop.via before :: ·) (ih _ _)

/-- The labels of a trail beyond are those of the earliest references between its objects. -/
theorem map_label_exit (wf : s.graph.WellFormed) (found : s.graph.Discovered s.graph.strongSearch order)
    (exit : s.graph.Exit u base tail i t) (awaited other : Option Nat) :
    (s.steps awaited t).reverse.map PathStep.label = (s.steps other base).reverse.map PathStep.label ++
      (u :: tail).zipWith s.graph.linkLabel tail := by
  induction exit generalizing awaited with
  | here _ =>
    rw [List.zipWith_nil_right, List.append_nil, List.map_reverse, List.map_reverse,
      s.map_label_steps_any awaited other]
  | @step v t e tail exit hv he ht unreached ih =>
    obtain ⟨r, hr, resolved, -⟩ := mem_outEdges.mp he
    obtain ⟨via, before, rfl⟩ := wf.fullSearch_ends.1.ends v t hv
    have first := wf.firstReference_of_trail found hv ht unreached hr resolved
    have label : s.labelOf (some e.via) (⟨v, via⟩ :: before) = s.graph.linkLabel v e.target := by
      simp [labelOf, linkLabel, hr, first]
    have links := zipWith_tail_concat s.graph.linkLabel exit.leads.getLast? e.target
    rw [List.cons_append, List.tail_cons, List.tail_cons] at links
    rw [links, ← List.append_assoc, ← ih, ← label, List.map_reverse, List.map_reverse]
    exact List.reverse_cons

/-- The path to a reachable object follows a trail, which leaves what strong references reach somewhere. -/
theorem exists_exit_of_load {expected : Nat} {records : List Record}
    (loaded : (loadExpecting expected records).outcome.1 = .ok s) (found : s.graph.lookup id = some i)
    (reached : s.graph.Reachable i) :
    ∃ t u base tail, s.path id = .ok (s.steps (some i) t).reverse ∧ s.graph.fullSearch.trailOf i = some t ∧
      s.graph.Exit u base tail i t := by
  obtain ⟨-, l⟩ := loaded_of_load loaded
  obtain ⟨t, ht⟩ := l.wf.exists_trail_iff.mpr reached
  obtain ⟨u, base, tail, exit⟩ := l.wf.exists_exit ht
  have trail : s.trailOf i = some t := (trailOf_of_load loaded i).trans ht
  exact ⟨t, u, base, tail, path_eq_ok found trail, ht, exit⟩

/-- A root with weak references to two objects that both refer to a fourth one, the first of them weakly. -/
def weakFork (held : Bool) : List Record :=
  [.root ⟨1⟩ .thread,
    .object .instanceObject ⟨⟨1⟩, none, 8, [⟨.field "a", some ⟨2⟩, false⟩, ⟨.field "b", some ⟨3⟩, false⟩]⟩,
    .object .instanceObject ⟨⟨2⟩, none, 8, [⟨.field "c", some ⟨4⟩, false⟩]⟩,
    .object .instanceObject ⟨⟨3⟩, none, 8, [⟨.field "d", some ⟨4⟩, held⟩]⟩,
    .object .instanceObject ⟨⟨4⟩, none, 8, []⟩]

/-- The references between the objects of the fork, and whether they are strong. -/
def forkLinks (held : Bool) : List (Nat × Nat × Bool) := [(0, 1, false), (0, 2, false), (1, 3, false), (2, 3, held)]

section WeakFork

variable {held : Bool} {g : HeapGraph} (built : (HeapGraph.build 5 (weakFork held)).outcome.1 = .ok g)

include built

theorem build_weakFork : g.roots = [0] ∧ g.size = 4 ∧ g.lookup ⟨4⟩ = some 3 ∧
    (g.idOf 1 = ⟨2⟩ ∧ g.idOf 2 = ⟨3⟩ ∧ g.idOf 3 = ⟨4⟩) ∧
    (∀ u ∈ List.range 4, ∀ r ∈ g.referencesOf u,
      (r.resolved.map fun v => (u, v, r.strong)).all (· ∈ forkLinks held)) ∧
    ∀ l ∈ forkLinks held, ∃ r ∈ g.referencesOf l.1, r.resolved = some l.2.1 ∧ r.strong = l.2.2 := by
  have known : (HeapGraph.build 5 (weakFork held)).outcome.1.map (fun g =>
      decide (g.roots = [0] ∧ g.size = 4 ∧ g.lookup ⟨4⟩ = some 3 ∧ (g.idOf 1 = ⟨2⟩ ∧ g.idOf 2 = ⟨3⟩ ∧ g.idOf 3 = ⟨4⟩) ∧
        (∀ u ∈ List.range 4, ∀ r ∈ g.referencesOf u,
          (r.resolved.map fun v => (u, v, r.strong)).all (· ∈ forkLinks held)) ∧
        ∀ l ∈ forkLinks held, ∃ r ∈ g.referencesOf l.1, r.resolved = some l.2.1 ∧ r.strong = l.2.2)) = .ok true := by
    cases held <;> rfl
  rw [built] at known
  exact of_decide_eq_true (Except.ok.inj known)

theorem link_weakFork {u v : Nat} {r : Reference} (hr : r ∈ g.referencesOf u) (resolved : r.resolved = some v) :
    (u, v, r.strong) ∈ forkLinks held := by
  obtain ⟨-, size, -, -, links, -⟩ := build_weakFork built
  have inside : u ∈ List.range 4 := List.mem_range.mpr (size ▸ lt_of_mem_referencesOf hr)
  have link := links u inside r hr
  rw [resolved] at link
  simpa using link

theorem stronglyReachable_weakFork {i : Nat} : g.StronglyReachable i ↔ i = 0 := by
  obtain ⟨roots, -⟩ := build_weakFork built
  constructor
  · intro reached
    obtain ⟨path, hp⟩ := reached
    induction hp with
    | root hi => simpa [roots] using hi
    | step _ hold ih =>
      obtain ⟨r, hr, strong, resolved⟩ := hold
      have link := link_weakFork built hr resolved
      simp [ih, strong, forkLinks] at link
  · intro root
    exact ⟨[i], .root (by simp [roots, root])⟩

/-- All paths of the fork. -/
theorem path_of_weakFork {i weak : Nat} {path : List Nat} (h : g.ReferencePath i path weak) :
    (i, path, weak) ∈ [(0, [0], 0), (1, [0, 1], 1), (2, [0, 2], 1), (3, [0, 1, 3], 2),
      (3, [0, 2, 3], if held then 1 else 2)] := by
  obtain ⟨roots, -⟩ := build_weakFork built
  induction h with
  | root hi =>
    obtain rfl : _ = 0 := by simpa [roots] using hi
    simp
  | step _ hr resolved ih =>
    have link := link_weakFork built hr resolved
    simp only [forkLinks, List.mem_cons, Prod.mk.injEq, List.not_mem_nil, or_false] at link
    rcases link with ⟨rfl, rfl, strong⟩ | ⟨rfl, rfl, strong⟩ | ⟨rfl, rfl, strong⟩ | ⟨rfl, rfl, strong⟩ <;>
      simp at ih <;> simp [ih, strong]
    cases held <;> simp

theorem length_of_weakFork {weak : Nat} {path : List Nat} (h : g.ReferencePath 3 path weak) : path.length = 3 := by
  have known := path_of_weakFork built h
  simp at known
  rcases known with ⟨rfl, -⟩ | ⟨rfl, -⟩ <;> rfl

/-- The ways through the two objects, and how many references that are not strong they take. -/
theorem paths_weakFork : g.ReferencePath 3 [0, 1, 3] 2 ∧ g.ReferencePath 3 [0, 2, 3] (if held then 1 else 2) := by
  obtain ⟨roots, -, -, -, -, links⟩ := build_weakFork built
  have root : g.ReferencePath 0 [0] 0 := .root (by simp [roots])
  obtain ⟨a, ha, targetA, weakA⟩ := links (0, 1, false) (by simp [forkLinks])
  obtain ⟨b, hb, targetB, weakB⟩ := links (0, 2, false) (by simp [forkLinks])
  obtain ⟨c, hc, targetC, weakC⟩ := links (1, 3, false) (by simp [forkLinks])
  obtain ⟨d, hd, targetD, strongD⟩ := links (2, 3, held) (by simp [forkLinks])
  have left := (root.step ha targetA).step hc targetC
  have right := (root.step hb targetB).step hd targetD
  simp only [weakA, weakB, weakC, strongD] at left right
  refine ⟨left, ?_⟩
  cases held <;> exact right

theorem leads_weakFork : g.Leads 0 [1, 3] 3 := by
  have split : [0, 1, 3] = [] ++ 0 :: [1, 3] := rfl
  apply (paths_weakFork built).1.leads split
  simp [stronglyReachable_weakFork built]

/-- Of the two ways the one through the lower id is least. -/
theorem tail_weakFork {n : Nat} {tail : List Nat} (leads : g.Leads 0 tail 3)
    (least : [1, 3].length = tail.length → n :: g.idNumbers tail ≤ n :: g.idNumbers [1, 3]) :
    tail = [1, 3] := by
  obtain ⟨roots, -, -, ids, -⟩ := build_weakFork built
  obtain ⟨weak, whole⟩ := leads.referencePath (.root (by simp [roots]))
  have known := path_of_weakFork built whole
  have either : tail = [1, 3] ∨ tail = [2, 3] := by
    simp at known
    exact known.imp And.left And.left
  refine either.resolve_right fun other => ?_
  have lower := least (by rw [other]; rfl)
  have numbers : g.idNumbers [1, 3] = [2, 4] ∧ g.idNumbers [2, 3] = [3, 4] := by simp [idNumbers, ids]
  rw [other, numbers.1, numbers.2] at lower
  have later : ¬ [3, 4] ≤ [2, 4] := by decide
  exact later (by simpa using (append_le_append_iff (a := [n]) (b := [n]) rfl).mp lower)

theorem reachable_weakFork : g.lookup ⟨4⟩ = some 3 ∧ g.Reachable 3 ∧ ¬ g.StronglyReachable 3 := by
  obtain ⟨-, -, found, -⟩ := build_weakFork built
  have root := (stronglyReachable_weakFork built).mpr rfl
  exact ⟨found, (leads_weakFork built).reachable root, by simp [stronglyReachable_weakFork built]⟩

end WeakFork

theorem exists_load_weakFork (held : Bool) : ∃ s, (loadExpecting 5 (weakFork held)).outcome.1 = .ok s := by
  cases held with
  | false => exact exists_load_of_small rfl (by decide +kernel)
  | true => exact exists_load_of_small rfl (by decide +kernel)

theorem path_weakFork {held : Bool} (loaded : (loadExpecting 5 (weakFork held)).outcome.1 = .ok s) :
    ∃ steps, s.path ⟨4⟩ = .ok steps ∧ steps.map PathStep.id = s.idsOf [0, 1, 3] := by
  obtain ⟨built, l⟩ := loaded_of_load loaded
  obtain ⟨order, discovery⟩ := l.wf.exists_discoveryOrder
  have discovered := discovery.discovered l.wf (nodup_roots_of_build built)
  obtain ⟨found, reached, -⟩ := reachable_weakFork built
  obtain ⟨t, u, base, tail, path, ht, exit⟩ := exists_exit_of_load loaded found reached
  have strong := rootPath_of_trail l.wf.strongSearch_ends.1 exit.strongTrail
  obtain rfl := (stronglyReachable_weakFork built).mp ⟨_, strong⟩
  have start : placesOf base = [0] := by simpa using path_of_weakFork built strong.referencePath
  have least := l.wf.exit_least discovered ht exit ⟨_, strong⟩ (leads_weakFork built)
  have through := tail_weakFork built exit.leads least.2
  refine ⟨_, path, ?_⟩
  rw [map_id_path, exit.places, start, through]
  rfl

/-- The path to a weakly reachable object is the path to a strongly reachable one, which it leaves by a
reference that is not strong, and then goes through objects that are not strongly reachable, by the
earliest reference to each. No path has fewer objects after its last strongly reachable one; where one
has as many, it leaves an object that was discovered later, or the same one with ids that are no lower. -/
theorem path_leaves_least {plan : CancelPlan} {expected : Nat} {records : List Record}
    (loaded : (plan.run (loadExpecting expected records)).1 = .ok s) :
    (HeapGraph.build expected records).outcome.1 = .ok s.graph ∧
    (∃ order, s.graph.DiscoveryOrder order) ∧ ∀ order, s.graph.DiscoveryOrder order →
    order.Nodup ∧ (∀ i, i ∈ order ↔ s.graph.StronglyReachable i) ∧
    ∀ id i, s.graph.lookup id = some i → s.graph.Reachable i → ¬ s.graph.StronglyReachable i →
      ∃ steps base front u tail, s.path id = .ok steps ∧
        s.graph.StronglyReachable u ∧ s.path (s.graph.idOf u) = .ok base ∧
        base.map PathStep.id = s.idsOf (front ++ [u]) ∧
        steps.map PathStep.id = base.map PathStep.id ++ s.idsOf tail ∧
        steps.map PathStep.label = base.map PathStep.label ++ (u :: tail).zipWith s.graph.linkLabel tail ∧
        (∃ weak, s.graph.ReferencePath i (front ++ u :: tail) weak) ∧ s.graph.Leads u tail i ∧
        (∃ first r, tail.head? = some first ∧ s.graph.firstReference u first = some r ∧ r.strong = false) ∧
        ∀ front' v other weak, s.graph.ReferencePath i (front' ++ v :: other) weak → s.graph.StronglyReachable v →
          (∀ x ∈ other, ¬ s.graph.StronglyReachable x) →
          tail.length ≤ other.length ∧ (other.length = tail.length →
            order.idxOf u :: s.graph.idNumbers tail ≤ order.idxOf v :: s.graph.idNumbers other) := by
  have outcome := outcome_of_run loaded
  obtain ⟨built, l⟩ := loaded_of_load outcome
  refine ⟨built, l.wf.exists_discoveryOrder, fun order discovery => ?_⟩
  have discovered := discovery.discovered l.wf (nodup_roots_of_build built)
  refine ⟨discovered.nodup, fun i => (discovered.mem_iff i).trans l.wf.exists_strongTrail_iff,
    fun id i found reached unreached => ?_⟩
  obtain ⟨t, u, base, tail, path, ht, exit⟩ := exists_exit_of_load outcome found reached
  obtain ⟨grow, -, -⟩ := l.wf.strongSearch_ends
  have strong := rootPath_of_trail grow exit.strongTrail
  have canonical : s.path (s.graph.idOf u) = .ok (s.steps (some u) base).reverse := by
    apply path_eq_ok (l.wf.lookup_idOf (l.wf.stronglyReachable_lt ⟨_, strong⟩))
    rw [trailOf_of_load outcome]
    exact l.wf.fullSearch_ends.2.2.1 u base exit.strongTrail
  obtain ⟨front, last⟩ : ∃ front, placesOf base = front ++ [u] := by
    obtain ⟨via, before, rfl⟩ := grow.ends u base exit.strongTrail
    exact ⟨placesOf before, by simp [placesOf]⟩
  have beyond : tail ≠ [] := by
    intro empty
    subst empty
    obtain rfl : u = i := by simpa using exit.leads.getLast?
    exact unreached ⟨_, strong⟩
  refine ⟨_, _, front, u, tail, path, ⟨_, strong⟩, canonical, ?_, ?_, ?_, ?_, exit.leads, ?_, ?_⟩
  · rw [map_id_path, last]
  · rw [map_id_path, map_id_path, exit.places, idsOf, idsOf, idsOf, List.map_append]
  · exact map_label_exit l.wf discovered exit (some i) (some u)
  · obtain ⟨weak, whole⟩ := exit.leads.referencePath strong
    exact ⟨weak, by simpa [last] using whole⟩
  · exact exit.leads.exists_first ⟨_, strong⟩ beyond
  · intro front' v other weak whole leaves outside
    exact l.wf.exit_least discovered ht exit leaves (whole.leads rfl outside)

theorem path_leaves_least_weakFork : ∃ s, (CancelPlan.never.run (loadExpecting 5 (weakFork true))).1 = .ok s ∧
    s.graph.lookup ⟨4⟩ = some 3 ∧ s.graph.Reachable 3 ∧ ¬ s.graph.StronglyReachable 3 ∧
    ∃ steps, s.path ⟨4⟩ = .ok steps ∧ steps.map PathStep.id = s.idsOf [0, 1, 3] := by
  obtain ⟨s, loaded⟩ := exists_load_weakFork true
  rw [← CancelPlan.run_never] at loaded
  obtain ⟨built, ⟨order, discovery⟩, leaves⟩ := path_leaves_least loaded
  obtain ⟨found, reached, unreached⟩ := reachable_weakFork built
  obtain ⟨steps, base, front, u, tail, path, strong, -, start, ids, -, whole, leads, -, least⟩ :=
    (leaves order discovery).2.2 ⟨4⟩ 3 found reached unreached
  obtain rfl := (stronglyReachable_weakFork built).mp strong
  have beyond : ∀ x ∈ [1, 3], ¬ s.graph.StronglyReachable x := by simp [stronglyReachable_weakFork built]
  have through := tail_weakFork built leads (least [] 0 [1, 3] 2 (paths_weakFork built).1 strong beyond).2
  obtain ⟨weak, whole⟩ := whole
  have direct : front = [] := by
    have length := length_of_weakFork built whole
    rw [through, List.length_append] at length
    exact List.length_eq_zero_iff.mp (Nat.add_right_cancel length)
  refine ⟨s, loaded, found, reached, unreached, steps, path, ?_⟩
  rw [ids, start, direct, through]
  rfl

/-- The path to a reachable object has as few objects beyond the strongly reachable ones as possible, and
among such paths it leaves these after as few as possible. Where weakly reachable objects do not hold
each other, no path takes fewer references that are not strong, and none with as few is shorter. -/
theorem path_fewest_beyond {plan : CancelPlan} {expected : Nat} {records : List Record}
    (loaded : (plan.run (loadExpecting expected records)).1 = .ok s) :
    (HeapGraph.build expected records).outcome.1 = .ok s.graph ∧
    ∀ id i, s.graph.lookup id = some i → s.graph.Reachable i →
      ∃ steps u front tail, s.path id = .ok steps ∧ steps.map PathStep.id = s.idsOf (front ++ tail) ∧
        s.graph.RootPath u front ∧ s.graph.Leads u tail i ∧
        (∀ v path other, s.graph.RootPath v path → s.graph.Leads v other i →
          tail.length ≤ other.length ∧ (other.length = tail.length → front.length ≤ path.length)) ∧
        (s.graph.WeakApart → s.graph.ReferencePath i (front ++ tail) tail.length ∧
          ∀ path weak, s.graph.ReferencePath i path weak →
            tail.length ≤ weak ∧ (weak = tail.length → (front ++ tail).length ≤ path.length)) := by
  have outcome := outcome_of_run loaded
  obtain ⟨built, l⟩ := loaded_of_load outcome
  have nodup := nodup_roots_of_build built
  obtain ⟨order, discovery⟩ := l.wf.exists_discoveryOrder
  have discovered := discovery.discovered l.wf nodup
  refine ⟨built, fun id i found reached => ?_⟩
  obtain ⟨t, u, base, tail, path, ht, exit⟩ := exists_exit_of_load outcome found reached
  have strong := rootPath_of_trail l.wf.strongSearch_ends.1 exit.strongTrail
  refine ⟨_, u, placesOf base, tail, path, ?_, strong, exit.leads, ?_, fun apart => ?_⟩
  · rw [map_id_path, exit.places]
  · exact fun v front other hv leads => l.wf.exit_shortest discovered nodup ht exit hv leads
  · refine ⟨apart.referencePath exit.leads strong, fun path weak whole => ?_⟩
    obtain ⟨v, front, other, rfl, reached, leads, fewer, direct⟩ := apart.exists_leads whole
    have fewest := (l.wf.exit_least discovered ht exit reached leads).1
    refine ⟨fewest.trans fewer, fun same => ?_⟩
    -- With no more references that are not strong than this, the other path has left by strong ones.
    have equal : other.length = tail.length := by omega
    have shortest := (l.wf.exit_shortest discovered nodup ht exit (direct (by omega)) leads).2 equal
    rw [List.length_append, List.length_append]
    omega

theorem path_fewest_beyond_weakFork : ∃ s, (CancelPlan.never.run (loadExpecting 5 (weakFork false))).1 = .ok s ∧
    s.graph.lookup ⟨4⟩ = some 3 ∧ s.graph.Reachable 3 ∧ s.graph.WeakApart ∧
    ∃ steps path weak, s.path ⟨4⟩ = .ok steps ∧ steps.map PathStep.id = s.idsOf path ∧
      s.graph.ReferencePath 3 path weak ∧ ∀ other n, s.graph.ReferencePath 3 other n →
        weak ≤ n ∧ (n = weak → path.length ≤ other.length) := by
  obtain ⟨s, loaded⟩ := exists_load_weakFork false
  rw [← CancelPlan.run_never] at loaded
  obtain ⟨built, fewest⟩ := path_fewest_beyond loaded
  obtain ⟨found, reached, -⟩ := reachable_weakFork built
  have apart : s.graph.WeakApart := by
    intro i j _ _ hold
    obtain ⟨r, hr, strong, resolved⟩ := hold
    have link := link_weakFork built hr resolved
    simp [strong, forkLinks] at link
  obtain ⟨steps, u, front, tail, path, ids, -, -, -, few⟩ := fewest ⟨4⟩ 3 found reached
  exact ⟨s, loaded, found, reached, apart, steps, front ++ tail, tail.length, path, ids, few apart⟩

/-- The path takes two references that are not strong, though another one that is no longer takes only one:
what holds the object is itself weakly reachable. -/
theorem path_weakFork_not_fewest : ∃ s, (CancelPlan.never.run (loadExpecting 5 (weakFork true))).1 = .ok s ∧
    s.graph.lookup ⟨4⟩ = some 3 ∧ s.graph.Reachable 3 ∧ ¬ s.graph.StronglyReachable 3 ∧
    (∃ steps, s.path ⟨4⟩ = .ok steps ∧ steps.map PathStep.id = s.idsOf [0, 1, 3]) ∧
    (∀ weak, s.graph.ReferencePath 3 [0, 1, 3] weak → weak = 2) ∧ s.graph.ReferencePath 3 [0, 2, 3] 1 := by
  obtain ⟨s, loaded⟩ := exists_load_weakFork true
  obtain ⟨built, -⟩ := loaded_of_load loaded
  obtain ⟨found, reached, unreached⟩ := reachable_weakFork built
  have path := path_weakFork loaded
  rw [← CancelPlan.run_never] at loaded
  refine ⟨s, loaded, found, reached, unreached, path, fun weak whole => ?_, (paths_weakFork built).2⟩
  simpa using path_of_weakFork built whole

end Snapshot

end Retention
