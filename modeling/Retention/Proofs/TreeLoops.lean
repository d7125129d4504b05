import Mathlib.Data.List.Sort
import Retention.Proofs.TreeViews

namespace Retention

namespace DominatorTree

variable {t : DominatorTree}

/-- The order in which the objects of a stack are summed up. An object comes off the stack twice: the
first time its children go on the stack before it, the second time it is summed up. -/
inductive SumsUp (t : DominatorTree) : List (Nat × Bool) → List Nat → Prop where
  | done : SumsUp t [] []
  | expand {v : Nat} {stack : List (Nat × Bool)} {order : List Nat} :
      SumsUp t ((t.childrenOf v).map (·, false) ++ (v, true) :: stack) order → SumsUp t ((v, false) :: stack) order
  | sum {v : Nat} {stack : List (Nat × Bool)} {order : List Nat} :
      SumsUp t stack order → SumsUp t ((v, true) :: stack) (v :: order)

/-- What is passed on the way from an object to its immediate dominator, from there to the next one, and
so on while there is one below the super-root. -/
inductive Climbs (t : DominatorTree) : Nat → List Nat → Prop where
  | stop {i : Nat} : (∀ d, t.idomOf i ≠ some (.node d)) → Climbs t i []
  | up {i d : Nat} {chain : List Nat} : t.idomOf i = some (.node d) → Climbs t d chain → Climbs t i (d :: chain)

/-- The objects that come off a stack, with their depths. The children of an object go on the stack when
it comes off, the last one on top. -/
inductive Visits (t : DominatorTree) : List (Nat × Nat) → List (Nat × Nat) → Prop where
  | done : Visits t [] []
  | visit {v depth : Nat} {stack later : List (Nat × Nat)} :
      Visits t ((t.childrenOf v).reverse.map (·, depth + 1) ++ stack) later →
      Visits t ((v, depth) :: stack) ((v, depth) :: later)

/-- How many of the objects have each depth. -/
def tally (visited : List (Nat × Nat)) : Std.TreeMap Nat Nat :=
  visited.foldl (fun counts entry => counts.insert entry.2 (counts.getD entry.2 0 + 1)) ∅

theorem SumsUp.unique {stack : List (Nat × Bool)} {order other : List Nat} (h : t.SumsUp stack order)
    (k : t.SumsUp stack other) : order = other := by
  induction h generalizing other with
  | done => cases k; rfl
  | expand _ ih => cases k with | expand k => exact ih k
  | sum _ ih => cases k with | sum k => rw [ih k]

/-- What is marked at the bottom of the stack is summed up last. -/
theorem SumsUp.of_concat {stack : List (Nat × Bool)} {v : Nat} {order : List Nat}
    (h : t.SumsUp (stack ++ [(v, true)]) order) : ∃ first, order = first ++ [v] ∧ t.SumsUp stack first := by
  generalize whole : stack ++ [(v, true)] = deep at h
  induction h generalizing stack with
  | done => simp at whole
  | @expand u rest order _ ih =>
    cases stack with
    | nil => simp at whole
    | cons entry stack =>
      obtain ⟨rfl, rfl⟩ := List.cons.inj whole
      obtain ⟨first, same, later⟩ := @ih ((t.childrenOf u).map (·, false) ++ (u, true) :: stack) (by simp)
      exact ⟨first, same, .expand later⟩
  | @sum u rest order last ih =>
    cases stack with
    | nil =>
      obtain ⟨entry, rfl⟩ := List.cons.inj whole
      obtain ⟨rfl, -⟩ := Prod.mk.inj entry
      cases last
      exact ⟨[], rfl, .done⟩
    | cons entry stack =>
      obtain ⟨rfl, rfl⟩ := List.cons.inj whole
      obtain ⟨first, rfl, later⟩ := ih rfl
      exact ⟨u :: first, rfl, .sum later⟩

theorem Climbs.unique {i : Nat} {chain other : List Nat} (h : t.Climbs i chain) (k : t.Climbs i other) :
    chain = other := by
  induction h generalizing other with
  | stop ended =>
    cases k with
    | stop _ => rfl
    | up above _ => exact absurd above (ended _)
  | up above _ ih =>
    cases k with
    | stop ended => exact absurd above (ended _)
    | up also k =>
      obtain rfl := Dominator.node.inj (Option.some.inj (above.symm.trans also))
      rw [ih k]

theorem getElem?_foldl_tally (visited : List (Nat × Nat)) (counts : Std.TreeMap Nat Nat) (k : Nat) :
    (visited.foldl (fun counts entry => counts.insert entry.2 (counts.getD entry.2 0 + 1)) counts)[k]? =
      if (visited.map Prod.snd).count k = 0 then counts[k]? else
        some (counts.getD k 0 + (visited.map Prod.snd).count k) := by
  induction visited generalizing counts with
  | nil => simp
  | cons entry rest ih =>
    rw [List.foldl_cons, ih, List.map_cons, List.count_cons]
    by_cases same : entry.2 = k
    · subst same
      by_cases last : (rest.map Prod.snd).count entry.2 = 0
      · simp [last]
      · simp [last]
        omega
    · simp [Std.TreeMap.getElem?_insert, Std.TreeMap.getD_insert, same]

theorem getElem?_tally (visited : List (Nat × Nat)) (k : Nat) :
    (tally visited)[k]? =
      if (visited.map Prod.snd).count k = 0 then none else some ((visited.map Prod.snd).count k) := by
  rw [tally, getElem?_foldl_tally]
  simp

end DominatorTree

namespace HeapGraph

variable {g : HeapGraph} {t : DominatorTree}

namespace IsLayer

variable {layer other ws : List Nat} {w x : Nat}

theorem perm (h : g.IsLayer layer) (same : layer.Perm other) : g.IsLayer other where
  nodup := same.nodup_iff.mp h.nodup
  reached := fun a ha => h.reached a (same.mem_iff.mpr ha)
  apart := fun a ha b hb => h.apart a (same.mem_iff.mpr ha) b (same.mem_iff.mpr hb)

/-- One object gives way to its children: what is kept is the same, but for that object. -/
theorem keeps_expand (h : g.IsLayer (w :: ws)) (tree : g.IsDominatorTree t) :
    (∃ a ∈ t.childrenOf w ++ ws, g.Keeps a x) ↔ x ≠ w ∧ ∃ a ∈ w :: ws, g.Keeps a x := by
  have reached := h.reached w List.mem_cons_self
  have fresh := (List.nodup_cons.mp h.nodup).1
  constructor
  · intro below
    obtain ⟨a, ha, keeps⟩ := below
    cases List.mem_append.mp ha with
    | inl child =>
      refine ⟨?_, w, List.mem_cons_self, (tree.keeps_iff reached).mpr (.inr ⟨a, child, keeps⟩)⟩
      intro same
      exact tree.not_keeps_parent child (same ▸ keeps)
    | inr other =>
      refine ⟨?_, a, List.mem_cons_of_mem w other, keeps⟩
      intro same
      have itself := h.keeps_self List.mem_cons_self
      have twice := h.apart a (List.mem_cons_of_mem w other) w List.mem_cons_self w (same ▸ keeps) itself
      exact fresh (twice ▸ other)
  · intro kept
    obtain ⟨apart, a, ha, keeps⟩ := kept
    cases List.mem_cons.mp ha with
    | inl same =>
      subst same
      obtain ⟨c, child, below⟩ := ((tree.keeps_iff reached).mp keeps).resolve_left apart
      exact ⟨c, List.mem_append_left _ child, below⟩
    | inr other => exact ⟨a, List.mem_append_right _ other, keeps⟩

theorem expand (h : g.IsLayer (w :: ws)) (tree : g.IsDominatorTree t) : g.IsLayer (t.childrenOf w ++ ws) := by
  have reached := h.reached w List.mem_cons_self
  obtain ⟨fresh, rest⟩ := List.nodup_cons.mp h.nodup
  have children := of_childrenOf tree w
  -- A child and another object of the layer keep nothing in common, for the layer keeps nothing twice.
  have across : ∀ c ∈ t.childrenOf w, ∀ b ∈ ws, ∀ v, g.Keeps c v → ¬ g.Keeps b v := by
    intro c hc b hb v below other
    have above := (tree.keeps_iff reached).mpr (.inr ⟨c, hc, below⟩)
    have same := h.apart w List.mem_cons_self b (List.mem_cons_of_mem w hb) v above other
    exact fresh (same ▸ hb)
  refine ⟨List.nodup_append.mpr ⟨children.nodup, rest, ?_⟩, ?_, ?_⟩
  · intro c hc b hb same
    have itself := children.keeps_self hc
    exact across c hc b hb c itself (same ▸ itself)
  · intro a ha
    exact (List.mem_append.mp ha).elim (children.reached a) fun ha => h.reached a (List.mem_cons_of_mem w ha)
  · intro a ha b hb v keeps also
    cases List.mem_append.mp ha with
    | inl ha =>
      cases List.mem_append.mp hb with
      | inl hb => exact children.apart a ha b hb v keeps also
      | inr hb => exact absurd also (across a ha b hb v keeps)
    | inr ha =>
      cases List.mem_append.mp hb with
      | inl hb => exact absurd keeps (across b hb a ha v also)
      | inr hb => exact h.apart a (List.mem_cons_of_mem w ha) b (List.mem_cons_of_mem w hb) v keeps also

end IsLayer

/-- Objects that are still to be discovered in a search of the tree, with all they keep. -/
structure Undiscovered (g : HeapGraph) (t : DominatorTree) (pool : Pool (List Nat)) (pending : List Nat) : Prop where
  layer : g.IsLayer pending
  fresh : ∀ x, (∃ a ∈ pending, g.Keeps a x) → pool.get? x = some (t.childrenOf x)

namespace Undiscovered

variable {pool : Pool (List Nat)} {ws : List Nat} {w : Nat}

theorem get?_eq (h : g.Undiscovered t pool (w :: ws)) : pool.get? w = some (t.childrenOf w) :=
  h.fresh w ⟨w, List.mem_cons_self, h.layer.keeps_self List.mem_cons_self⟩

theorem expand (h : g.Undiscovered t pool (w :: ws)) (tree : g.IsDominatorTree t) :
    g.Undiscovered t (pool.erase w) (t.childrenOf w ++ ws) where
  layer := h.layer.expand tree
  fresh := by
    intro x kept
    obtain ⟨apart, kept⟩ := (h.layer.keeps_expand tree).mp kept
    rw [Pool.get?_erase_of_ne pool (Ne.symm apart)]
    exact h.fresh x kept

/-- The stack of a search, with the vertices it is in marked. -/
def marked (stack : List (Nat × List Nat)) : List (Nat × Bool) :=
  stack.flatMap fun frame => frame.2.map (·, false) ++ [(frame.1, true)]

theorem marked_cons (v : Nat) (ws : List Nat) (rest : List (Nat × List Nat)) :
    marked ((v, ws) :: rest) = ws.map (·, false) ++ (v, true) :: marked rest := by
  rw [marked, List.flatMap_cons, List.append_assoc]
  rfl

/-- A search of the tree leaves its objects in the order in which they are summed up. -/
theorem leave_eq (tree : g.IsDominatorTree t) {stack : List (Nat × List Nat)} (left : List Nat)
    (h : g.Undiscovered t pool (stack.flatMap Prod.snd)) :
    ∃ order, Digraph.leave pool stack left = order.reverse ++ left ∧ t.SumsUp (marked stack) order := by
  fun_induction Digraph.leave pool stack left with
  | case1 => exact ⟨[], rfl, .done⟩
  | case2 pool left v rest ih =>
    obtain ⟨order, same, sums⟩ := ih h
    rw [marked_cons]
    exact ⟨v :: order, by simp [same], .sum sums⟩
  | case3 pool left v w ws rest taken ih =>
    have there : pool.get? w = some (t.childrenOf w) := h.get?_eq
    rw [taken] at there
    cases there
  | case4 pool left v w ws rest next taken ih =>
    have there : pool.get? w = some (t.childrenOf w) := h.get?_eq
    obtain rfl : next = t.childrenOf w := Option.some.inj (taken.symm.trans there)
    obtain ⟨order, same, sums⟩ := ih (h.expand tree)
    rw [marked_cons, marked_cons] at sums
    rw [marked_cons]
    exact ⟨order, same, .expand sums⟩

end Undiscovered

namespace IsDominatorTree

variable {order chain visited : List Nat} {i : Nat}

theorem undiscovered_rooted (tree : g.IsDominatorTree t) (wf : g.WellFormed) :
    g.Undiscovered t ((Pool.ofArray t.graph.out).erase t.children.size) t.rooted where
  layer := .of_rooted tree
  fresh := by
    intro x kept
    have inside := wf.stronglyReachable_lt (tree.stronglyReachable_iff_rooted.mpr kept)
    have place : x < t.children.size := by rwa [tree.size_children]
    rw [Pool.get?_erase_of_ne _ (Nat.ne_of_gt place)]
    simp [Pool.get?, Pool.ofArray, DominatorTree.graph, DominatorTree.childrenOf, Array.getElem?_push,
      Nat.ne_of_lt place, place]

/-- The retained sizes are summed up in the order in which a stack of the tree sums them up. -/
theorem sumsUp_iff (tree : g.IsDominatorTree t) (wf : g.WellFormed) :
    t.SumsUp (t.rooted.map (·, false)) order ↔ order = t.bottomUp := by
  have top : t.graph.successors t.children.size = t.rooted := by
    simp [Digraph.successors, DominatorTree.graph]
  have start : g.Undiscovered t ((Pool.ofArray t.graph.out).erase t.children.size)
      ([(t.children.size, t.rooted)].flatMap Prod.snd) := by
    simpa using tree.undiscovered_rooted wf
  obtain ⟨whole, same, sums⟩ := start.leave_eq tree []
  rw [Undiscovered.marked_cons] at sums
  obtain ⟨first, rfl, below⟩ := sums.of_concat
  have found : t.bottomUp = first := by
    rw [DominatorTree.bottomUp, Digraph.reversePostorder, top, same]
    simp
  rw [found]
  exact ⟨fun h => h.unique below, fun h => h ▸ below⟩

/-- The chain above an object is what is passed on the way up. -/
theorem climbs_iff (tree : g.IsDominatorTree t) (wf : g.WellFormed) (hi : g.StronglyReachable i) :
    t.Climbs i chain ↔ chain = t.chainOf i := by
  have climbs : t.Climbs i (t.chainOf i) := by
    refine tree.descend (motive := fun v => t.Climbs v (t.chainOf v)) ?_ ?_ i hi
    · intro v top
      rw [tree.chainOf_eq wf (tree.stronglyReachable_of_idom top), top]
      exact .stop fun d above => by cases top.symm.trans above
    · intro v d above ih
      rw [tree.chainOf_eq wf (tree.stronglyReachable_of_idom above), above]
      exact .up above ih
  exact ⟨fun h => h.unique climbs, fun h => h ▸ climbs⟩

end IsDominatorTree

/-- Objects on a stack that keep nothing in common, each with its depth. -/
structure Stacked (g : HeapGraph) (t : DominatorTree) (stack : List (Nat × Nat)) : Prop where
  layer : g.IsLayer (stack.map Prod.fst)
  deep : ∀ entry ∈ stack, entry.2 = (t.chainOf entry.1).length + 1

namespace Stacked

variable {v depth : Nat} {stack : List (Nat × Nat)}

theorem of_rooted (tree : g.IsDominatorTree t) (wf : g.WellFormed) : g.Stacked t (t.rooted.reverse.map (·, 1)) where
  layer := by
    rw [List.map_map]
    exact (IsLayer.of_rooted tree).perm (by simp [Function.comp_def])
  deep := by
    intro entry there
    obtain ⟨r, hr, rfl⟩ := List.mem_map.mp there
    rw [tree.chainOf_rooted wf (List.mem_reverse.mp hr)]
    rfl

/-- The children that go on the stack, and what stays on it. -/
theorem perm_next (v depth : Nat) (stack : List (Nat × Nat)) :
    (t.childrenOf v ++ stack.map Prod.fst).Perm
      (((t.childrenOf v).reverse.map (·, depth + 1) ++ stack).map Prod.fst) := by
  rw [List.map_append, List.map_map]
  exact (by simpa [Function.comp_def] using (List.reverse_perm (t.childrenOf v)).symm.append_right _)

theorem next (h : g.Stacked t ((v, depth) :: stack)) (tree : g.IsDominatorTree t) (wf : g.WellFormed) :
    g.Stacked t ((t.childrenOf v).reverse.map (·, depth + 1) ++ stack) where
  layer := (h.layer.expand tree).perm (perm_next v depth stack)
  deep := by
    intro entry there
    cases List.mem_append.mp there with
    | inl child =>
      obtain ⟨c, hc, rfl⟩ := List.mem_map.mp child
      rw [tree.chainOf_child wf (List.mem_reverse.mp hc), List.length_cons, ← h.deep (v, depth) List.mem_cons_self]
    | inr other => exact h.deep entry (List.mem_cons_of_mem _ other)

theorem keeps_next (h : g.Stacked t ((v, depth) :: stack)) (tree : g.IsDominatorTree t) (x : Nat) :
    (∃ a ∈ ((t.childrenOf v).reverse.map (·, depth + 1) ++ stack).map Prod.fst, g.Keeps a x) ↔
      x ≠ v ∧ ∃ a ∈ ((v, depth) :: stack).map Prod.fst, g.Keeps a x := by
  rw [List.map_cons, ← h.layer.keeps_expand tree]
  simp only [(perm_next v depth stack).mem_iff]

/-- The stack runs empty: with every object that comes off, there is one less that is still kept. -/
theorem exists_visits (h : g.Stacked t stack) (tree : g.IsDominatorTree t) (wf : g.WellFormed) {kept : List Nat}
    (room : ∀ x, (∃ a ∈ stack.map Prod.fst, g.Keeps a x) → x ∈ kept) : ∃ visited, t.Visits stack visited := by
  induction size : kept.length generalizing stack kept with
  | zero =>
    cases stack with
    | nil => exact ⟨[], .done⟩
    | cons entry stack =>
      have there := room entry.1 ⟨entry.1, List.mem_cons_self, h.layer.keeps_self List.mem_cons_self⟩
      rw [List.length_eq_zero_iff.mp size] at there
      exact absurd there List.not_mem_nil
  | succ fewer ih =>
    cases stack with
    | nil => exact ⟨[], .done⟩
    | cons entry stack =>
      obtain ⟨v, depth⟩ := entry
      have there := room v ⟨v, List.mem_cons_self, h.layer.keeps_self List.mem_cons_self⟩
      have less : ∀ x, (∃ a ∈ ((t.childrenOf v).reverse.map (·, depth + 1) ++ stack).map Prod.fst, g.Keeps a x) →
          x ∈ kept.erase v := by
        intro x below
        obtain ⟨apart, still⟩ := (h.keeps_next tree x).mp below
        exact (List.mem_erase_of_ne apart).mpr (room x still)
      have smaller : (kept.erase v).length = fewer := by
        rw [List.length_erase_of_mem there]
        omega
      obtain ⟨later, visits⟩ := ih (h.next tree wf) less smaller
      exact ⟨(v, depth) :: later, .visit visits⟩

/-- What comes off a stack is what its objects keep, each object once and with its depth. -/
theorem of_visits (h : g.Stacked t stack) (tree : g.IsDominatorTree t) (wf : g.WellFormed)
    {visited : List (Nat × Nat)} (visits : t.Visits stack visited) : (visited.map Prod.fst).Nodup ∧
      (∀ x, x ∈ visited.map Prod.fst ↔ ∃ a ∈ stack.map Prod.fst, g.Keeps a x) ∧
      ∀ entry ∈ visited, entry.2 = (t.chainOf entry.1).length + 1 := by
  induction visits with
  | done => simp
  | @visit v depth stack later _ ih =>
    obtain ⟨nodup, mem, deep⟩ := ih (h.next tree wf)
    have rest : ∀ x, x ∈ later.map Prod.fst ↔ x ≠ v ∧ ∃ a ∈ ((v, depth) :: stack).map Prod.fst, g.Keeps a x :=
      fun x => (mem x).trans (h.keeps_next tree x)
    have itself : ∃ a ∈ ((v, depth) :: stack).map Prod.fst, g.Keeps a v :=
      ⟨v, List.mem_cons_self, h.layer.keeps_self List.mem_cons_self⟩
    refine ⟨List.nodup_cons.mpr ⟨fun there => ((rest v).mp there).1 rfl, nodup⟩, ?_, ?_⟩
    · intro x
      rw [List.map_cons, List.mem_cons, rest]
      by_cases same : x = v
      · subst same
        simpa using itself
      · simp [same]
    · intro entry there
      cases List.mem_cons.mp there with
      | inl same => exact same ▸ h.deep (v, depth) List.mem_cons_self
      | inr there => exact deep entry there

end Stacked

namespace IsDominatorTree

variable {visited : List (Nat × Nat)}

theorem exists_visits (tree : g.IsDominatorTree t) (wf : g.WellFormed) :
    ∃ visited, t.Visits (t.rooted.reverse.map (·, 1)) visited := by
  have room : ∀ x, (∃ a ∈ (t.rooted.reverse.map (·, 1)).map Prod.fst, g.Keeps a x) → x ∈ List.range g.size := by
    intro x kept
    obtain ⟨a, -, keeps⟩ := kept
    exact List.mem_range.mpr (wf.stronglyReachable_lt keeps.1)
  exact (Stacked.of_rooted tree wf).exists_visits tree wf room

/-- The objects that come off the stack at a depth are those of a layer. -/
theorem count_visits (tree : g.IsDominatorTree t) (wf : g.WellFormed)
    (visits : t.Visits (t.rooted.reverse.map (·, 1)) visited) (k : Nat) :
    (visited.map Prod.snd).count (k + 1) = ((t.layers[k]?).getD []).length := by
  obtain ⟨nodup, mem, deep⟩ := (Stacked.of_rooted tree wf).of_visits tree wf visits
  have once : ((visited.filter fun entry => entry.2 == k + 1).map Prod.fst).Nodup :=
    nodup.sublist (List.filter_sublist.map Prod.fst)
  have same : ((visited.filter fun entry => entry.2 == k + 1).map Prod.fst).Perm ((t.layers[k]?).getD []) := by
    apply (List.perm_ext_iff_of_nodup once (tree.nodup_layer wf k)).mpr
    intro v
    have reached : v ∈ visited.map Prod.fst ↔ g.StronglyReachable v := by
      rw [mem, tree.stronglyReachable_iff_rooted]
      simp
    rw [tree.mem_layer_iff wf, ← reached]
    simp only [List.mem_map, List.mem_filter, beq_iff_eq]
    constructor
    · intro h
      obtain ⟨entry, ⟨there, depth⟩, rfl⟩ := h
      have known := deep entry there
      exact ⟨⟨entry, there, rfl⟩, by omega⟩
    · intro h
      obtain ⟨⟨entry, there, rfl⟩, long⟩ := h
      exact ⟨entry, ⟨there, by rw [deep entry there, long]⟩, rfl⟩
  rw [← same.length_eq, List.length_map, List.count_eq_countP, List.countP_map, List.countP_eq_length_filter]
  rfl

theorem count_visits_zero (tree : g.IsDominatorTree t) (wf : g.WellFormed)
    (visits : t.Visits (t.rooted.reverse.map (·, 1)) visited) : (visited.map Prod.snd).count 0 = 0 := by
  obtain ⟨-, -, deep⟩ := (Stacked.of_rooted tree wf).of_visits tree wf visits
  apply List.count_eq_zero.mpr
  intro there
  obtain ⟨entry, he, depth⟩ := List.mem_map.mp there
  have known := deep entry he
  omega

end IsDominatorTree

end HeapGraph

namespace Snapshot

variable {s : Snapshot} {visited : List (Nat × Nat)}

theorem mem_dominatorDepths (s : Snapshot) (entry : Nat × Nat) : entry ∈ s.dominatorDepths ↔
    ∃ k layer, s.tree.layers[k]? = some layer ∧ entry = (k + 1, layer.length) := by
  rw [dominatorDepths_eq, List.mem_map]
  simp only [Prod.exists, List.mem_zipIdx_iff_getElem?]
  constructor
  · intro h
    obtain ⟨layer, k, there, same⟩ := h
    exact ⟨k, layer, there, same.symm⟩
  · intro h
    obtain ⟨k, layer, there, same⟩ := h
    exact ⟨layer, k, there, same.symm⟩

theorem Loaded.toList_tally (l : s.Loaded) (visits : s.tree.Visits (s.tree.rooted.reverse.map (·, 1)) visited) :
    (DominatorTree.tally visited).toList = s.dominatorDepths := by
  have ascending : (DominatorTree.tally visited).toList.Pairwise fun a b => a.1 < b.1 :=
    Std.TreeMap.ordered_keys_toList.imp fun h => Nat.compare_eq_lt.mp h
  have ascending' : s.dominatorDepths.Pairwise fun a b => a.1 < b.1 := by
    rw [← List.pairwise_map (R := (· < ·)), map_fst_dominatorDepths]
    exact List.pairwise_lt_range'
  have distinct : ∀ {entries : List (Nat × Nat)}, (entries.Pairwise fun a b => a.1 < b.1) → entries.Nodup :=
    fun h => h.imp fun less same => Nat.ne_of_lt less (congrArg Prod.fst same)
  have perm : (DominatorTree.tally visited).toList.Perm s.dominatorDepths := by
    apply (List.perm_ext_iff_of_nodup (distinct ascending) (distinct ascending')).mpr
    intro entry
    obtain ⟨depth, count⟩ := entry
    rw [Std.TreeMap.mem_toList_iff_getElem?_eq_some, DominatorTree.getElem?_tally, mem_dominatorDepths]
    cases depth with
    | zero => simp [l.tree.count_visits_zero l.wf visits]
    | succ k =>
      rw [l.tree.count_visits l.wf visits k]
      cases there : s.tree.layers[k]? with
      | none => simp [there]
      | some layer =>
        have some := (l.tree.atDepth_layers l.wf there).1
        simp [there, some, eq_comm]
  apply perm.eq_of_pairwise _ ascending ascending'
  intro a b _ _ less more
  exact absurd more (Nat.lt_asymm less)

/-- The counts of the depths are those of a tally over what comes off a stack of the tree. -/
theorem Loaded.tally_iff (l : s.Loaded) {depths : List (Nat × Nat)} :
    (∃ visited, s.tree.Visits (s.tree.rooted.reverse.map (·, 1)) visited ∧
      (DominatorTree.tally visited).toList = depths) ↔ depths = s.dominatorDepths := by
  constructor
  · intro tallied
    obtain ⟨visited, visits, rfl⟩ := tallied
    exact l.toList_tally visits
  · intro same
    obtain ⟨visited, visits⟩ := l.tree.exists_visits l.wf
    exact ⟨visited, visits, (l.toList_tally visits).trans same.symm⟩

end Snapshot

end Retention
