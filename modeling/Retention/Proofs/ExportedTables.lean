import Retention.Proofs.CsvReading
import Retention.Proofs.LoadEvents
import Retention.Proofs.SnapshotChecks
import Retention.Proofs.TreeViews

namespace Retention

theorem RetentionRow.fields_injective : Function.Injective fields := by
  intro r other same
  obtain ⟨id, dominator, shallow, retained⟩ := r
  obtain ⟨id', dominator', shallow', retained'⟩ := other
  simp only [fields, List.cons.injEq, Option.some.injEq, UInt64.toNat_inj, and_true] at same
  obtain ⟨ids, dominators, rfl, rfl⟩ := same
  have above := Option.map_injective (fun a b h => ObjectId.eq_of_value (UInt64.toNat_inj.mp h)) dominators
  rw [ObjectId.eq_of_value ids, above]

namespace Snapshot

variable {s s' : Snapshot} {id c : ObjectId} {i : Nat} {r : RetentionRow}

theorem read?_csv (s : Snapshot) : Csv.read? s.csv = some s.retentionTable := by
  have square : ∀ row ∈ s.retentionRows.map RetentionRow.fields, row.length = retentionColumns.length := by
    intro row hr
    obtain ⟨r, -, rfl⟩ := List.mem_map.mp hr
    rfl
  rw [csv, Csv.read?_text (by decide) (by decide) square]
  simp [Table.ofRows, retentionColumns, retentionTable, RetentionRow.fields, Function.comp_def]

theorem rows_retentionTable (s : Snapshot) : s.retentionTable.rows = s.retentionRows.map RetentionRow.fields := by
  apply List.ext_getElem
  · simp [Table.rows, Table.height, retentionTable]
  · intro k inside _
    have hk : k < s.retentionRows.length := by simpa [Table.rows, Table.height, retentionTable] using inside
    simp [Table.rows, retentionTable, RetentionRow.fields, hk]

theorem retentionRows_of_table (same : s.retentionTable = s'.retentionTable) : s.retentionRows = s'.retentionRows := by
  apply RetentionRow.fields_injective.list_map
  rw [← rows_retentionTable, same, rows_retentionTable]

theorem retentionRows_of_csv (same : s.csv = s'.csv) : s.retentionRows = s'.retentionRows := by
  apply retentionRows_of_table
  apply Option.some.inj
  rw [← read?_csv, same, read?_csv]

/-- The row of an object. -/
def rowAt (s : Snapshot) (i : Nat) : RetentionRow :=
  ⟨s.graph.idOf i, s.idomIdAt i, s.graph.shallowSizeOf i, s.retained.sizeOf i⟩

theorem retentionRows_eq_map (s : Snapshot) :
    s.retentionRows = (s.graph.sortById s.reachablePlaces).map s.rowAt := s.retentionRows_eq

/-- What holds of the rows of a snapshot: there is one for each object that is reached, in the order of
ids, with what the snapshot answers about it. A dominator is the object of another row, and what an object
retains is its own size and what the rows retain that name it as their dominator. -/
structure Exports (s : Snapshot) (rows : List RetentionRow) : Prop where
  ascending : (rows.map RetentionRow.id).Pairwise (· < ·)
  live : ∀ id, id ∈ rows.map RetentionRow.id ↔ s.Live id
  dominator : ∀ r ∈ rows, s.dominator r.id = .ok r.dominator
  retainedSize : ∀ r ∈ rows, s.retainedSize r.id = .ok r.retained
  shallowSize : ∀ r ∈ rows, ∃ view, s.lookup r.id = .ok view ∧ view.node.shallowSize = r.shallow
  dominator_listed : ∀ r ∈ rows, ∀ d, r.dominator = some d → d ≠ r.id ∧ d ∈ rows.map RetentionRow.id
  retained_eq : ∀ r ∈ rows, r.retained.toNat =
    r.shallow.toNat + ((rows.filter fun c => c.dominator = some r.id).map fun c => c.retained.toNat).sum

namespace Loaded

theorem mem_retentionRows (l : s.Loaded) : r ∈ s.retentionRows ↔ ∃ i, s.graph.StronglyReachable i ∧ s.rowAt i = r := by
  rw [retentionRows_eq_map, List.mem_map]
  simp only [HeapGraph.mem_sortById, l.mem_reachablePlaces]

theorem mem_ids_retentionRows (l : s.Loaded) : id ∈ s.retentionRows.map RetentionRow.id ↔ s.Live id := by
  rw [retentionRows_eq_map, List.map_map, List.mem_map, l.live_iff]
  simp only [HeapGraph.mem_sortById, l.mem_reachablePlaces]
  rfl

theorem retained_eq_sum (l : s.Loaded) (reached : s.graph.StronglyReachable i) :
    (s.retained.sizeOf i).toNat = (s.graph.shallowSizeOf i).toNat +
      ((s.tree.childrenOf i).map fun c => (s.retained.sizeOf c).toNat).sum :=
  RetainedSizes.ofChildren_eq_some_iff.mp (l.ofChildren_eq_some reached)

/-- The rows with the same entry for the dominator. -/
theorem filter_retentionRows (l : s.Loaded) {answer : Option ObjectId} {places : List Nat}
    (ascending : places.Pairwise fun a b => s.graph.idOf a < s.graph.idOf b)
    (mem : ∀ j, j ∈ places ↔ s.graph.StronglyReachable j ∧ s.idomIdAt j = answer) :
    s.retentionRows.filter (fun c => c.dominator = answer) = places.map s.rowAt := by
  have chosen : (s.graph.sortById s.reachablePlaces).filter (fun j => s.idomIdAt j = answer) = places := by
    apply HeapGraph.ascending_ext (l.ascending_reachablePlaces.filter _) ascending
    intro j
    rw [List.mem_filter, HeapGraph.mem_sortById, l.mem_reachablePlaces, decide_eq_true_eq, mem]
  rw [retentionRows_eq_map, List.filter_map, ← chosen]
  rfl

/-- The rows that name an object as their dominator are those of its children. -/
theorem filter_rows_below (l : s.Loaded) (reached : s.graph.StronglyReachable i) :
    s.retentionRows.filter (fun c => c.dominator = some (s.rowAt i).id) = (s.tree.childrenOf i).map s.rowAt := by
  have found := l.lookup_idOf_reached reached
  apply l.filter_retentionRows (l.tree.childrenOf_ascending i)
  intro j
  constructor
  · intro child
    have reachedToo := (l.tree.child_below child).1
    exact ⟨reachedToo, (l.idomIdAt_eq_some_iff found reachedToo).mpr child⟩
  · intro named
    exact (l.idomIdAt_eq_some_iff found named.1).mp named.2

/-- The rows without a dominator are those of the objects right below the super-root. -/
theorem filter_rows_rooted (l : s.Loaded) :
    s.retentionRows.filter (fun c => c.dominator = none) = s.tree.rooted.map s.rowAt := by
  apply l.filter_retentionRows l.tree.rooted_ascending
  intro j
  constructor
  · intro top
    exact ⟨l.rooted_reached top, (l.idomIdAt_eq_none_iff (l.rooted_reached top)).mpr top⟩
  · intro unnamed
    exact (l.idomIdAt_eq_none_iff unnamed.1).mp unnamed.2

/-- A dominator is another object that is reached. -/
theorem exists_above (l : s.Loaded) (reached : s.graph.StronglyReachable i) (named : s.idomIdAt i = some c) :
    ∃ p, s.graph.StronglyReachable p ∧ p ≠ i ∧ s.graph.idOf p = c := by
  cases l.tree.rooted_or_child reached with
  | inl top =>
    rw [(l.idomIdAt_eq_none_iff reached).mpr top] at named
    cases named
  | inr child =>
    obtain ⟨p, hp⟩ := child
    obtain ⟨-, other, every⟩ := l.tree.child_below hp
    have above := every.reachable reached
    rw [(l.idomIdAt_eq_some_iff (l.lookup_idOf_reached above) reached).mpr hp] at named
    exact ⟨p, above, other, Option.some.inj named⟩

theorem exports (l : s.Loaded) : s.Exports s.retentionRows := by
  constructor
  case ascending =>
    rw [retentionRows_eq_map, List.map_map]
    exact List.pairwise_map.mpr l.ascending_reachablePlaces
  case live => exact fun id => l.mem_ids_retentionRows
  all_goals
    intro r hr
    obtain ⟨i, reached, rfl⟩ := l.mem_retentionRows.mp hr
    have found := l.lookup_idOf_reached reached
  case dominator => exact l.dominator_eq_ok found reached
  case retainedSize => exact l.retainedSize_eq_ok found reached
  case shallowSize =>
    obtain ⟨n, hn, answer⟩ := l.lookup_eq_ok found
    refine ⟨_, answer, ?_⟩
    simp [rowAt, HeapGraph.shallowSizeOf, hn]
  case dominator_listed =>
    intro d named
    obtain ⟨p, above, other, rfl⟩ := l.exists_above reached named
    refine ⟨fun same => other ?_, l.mem_ids_retentionRows.mpr (l.live_iff.mpr ⟨p, above, rfl⟩)⟩
    exact l.wf.idOf_inj (l.wf.stronglyReachable_lt above) (l.wf.stronglyReachable_lt reached) same
  case retained_eq =>
    rw [l.filter_rows_below reached, List.map_map]
    exact l.retained_eq_sum reached

/-- An immediate dominator is told of exactly the objects that have a row. -/
theorem dominator_iff_row (l : s.Loaded) {answer : Option ObjectId} :
    s.dominator c = .ok answer ↔ ∃ r ∈ s.retentionRows, r.id = c ∧ r.dominator = answer := by
  rw [l.dominator_eq_ok_iff]
  simp only [l.mem_retentionRows]
  constructor
  · intro h
    obtain ⟨j, reached, named, above⟩ := h
    exact ⟨s.rowAt j, ⟨j, reached, rfl⟩, named, above⟩
  · intro h
    obtain ⟨r, ⟨j, reached, rfl⟩, named, above⟩ := h
    exact ⟨j, reached, named, above⟩

theorem live_of_dominator (l : s.Loaded) {answer : Option ObjectId} (asked : s.dominator c = .ok answer) : s.Live c := by
  obtain ⟨j, reached, named, -⟩ := l.dominator_eq_ok_iff.mp asked
  exact l.live_iff.mpr ⟨j, reached, named⟩

/-- The chain above an object follows from its immediate dominator. -/
theorem dominatorsOf_rooted (l : s.Loaded) (top : s.dominator id = .ok none) : s.dominatorsOf id = .ok [] := by
  obtain ⟨chain, asked, -, -, link⟩ := l.dominatorsOf_chain (l.live_of_dominator top)
  cases link with
  | inl ended => rw [asked, ended.2]
  | inr goes =>
    obtain ⟨d, rest, other, -⟩ := goes
    rw [top] at other
    cases other

theorem dominatorsOf_below (l : s.Loaded) {chain : List ObjectId} (above : s.dominator id = .ok (some c))
    (asked : s.dominatorsOf c = .ok chain) : s.dominatorsOf id = .ok (c :: chain) := by
  obtain ⟨whole, found, -, -, link⟩ := l.dominatorsOf_chain (l.live_of_dominator above)
  cases link with
  | inl ended =>
    rw [above] at ended
    cases ended.1
  | inr goes =>
    obtain ⟨d, rest, other, later, rfl⟩ := goes
    rw [above] at other
    cases other
    rw [asked] at later
    rw [found, Except.ok.inj later]

theorem live_above (l : s.Loaded) (above : s.dominator id = .ok (some c)) : s.Live c := by
  obtain ⟨r, hr, -, named⟩ := l.dominator_iff_row.mp above
  exact l.mem_ids_retentionRows.mp (l.exports.dominator_listed r hr c named).2

theorem length_retentionRows (l : s.Loaded) : s.retentionRows.length = s.reachableCount := by
  rw [retentionRows_eq_map, List.length_map, (s.graph.perm_sortById _).length_eq, reachablePlaces, ← l.tree.size_idom]
  exact s.tree.reachable_eq_length.symm

theorem sum_rows_rooted (l : s.Loaded) : s.totalRetained.toNat =
    ((s.retentionRows.filter fun c => c.dominator = none).map fun c => c.retained.toNat).sum := by
  rw [l.filter_rows_rooted, ← l.sum_rooted, List.map_map, List.map_map]
  rfl

theorem length_layer_ne_zero (l : s.Loaded) {k n : Nat} (h : (s.tree.layers[k]?).map List.length = some n) : n ≠ 0 := by
  obtain ⟨layer, there, rfl⟩ := Option.map_eq_some_iff.mp h
  exact fun none => (l.tree.atDepth_layers l.wf there).1 (List.length_eq_zero_iff.mp none)

/-- The depths follow from the numbers of dominators above the objects. -/
theorem dominatorDepths_congr (l : s.Loaded) (l' : s'.Loaded) (same : ∀ k, s.withDominators k = s'.withDominators k) :
    s.dominatorDepths = s'.dominatorDepths := by
  have counts : s.tree.layers.map List.length = s'.tree.layers.map List.length := by
    apply List.ext_getElem?
    intro k
    have count := l.ncard_withDominators k
    rw [same k, l'.ncard_withDominators k] at count
    rw [List.getElem?_map, List.getElem?_map]
    -- A layer that only one of the trees has would be empty.
    cases here : (s.tree.layers[k]?).map List.length with
    | none =>
      cases there : (s'.tree.layers[k]?).map List.length with
      | none => rfl
      | some n =>
        rw [here, there] at count
        exact absurd count (l'.length_layer_ne_zero there)
    | some n =>
      cases there : (s'.tree.layers[k]?).map List.length with
      | none =>
        rw [here, there] at count
        exact absurd count.symm (l.length_layer_ne_zero here)
      | some m =>
        rw [here, there] at count
        exact congrArg some count.symm
  have depths : ∀ s : Snapshot, s.dominatorDepths =
      (s.tree.layers.map List.length).zipIdx.map fun entry => (entry.2 + 1, entry.1) := by
    intro s
    rw [dominatorDepths_eq, List.zipIdx_map, List.map_map]
    rfl
  rw [depths, depths, counts]

section SameRows

variable (l : s.Loaded) (l' : s'.Loaded) (same : s.retentionRows = s'.retentionRows)

include l l' same

theorem live_of_rows : s.Live id ↔ s'.Live id := by
  rw [← l.mem_ids_retentionRows, ← l'.mem_ids_retentionRows, same]

theorem dominator_of_rows {answer : Option ObjectId} : s.dominator c = .ok answer ↔ s'.dominator c = .ok answer := by
  rw [l.dominator_iff_row, l'.dominator_iff_row, same]

theorem dominatorsOf_of_rows (live : s.Live id) : s.dominatorsOf id = s'.dominatorsOf id := by
  obtain ⟨chain, asked, -, -, link⟩ := l.dominatorsOf_chain live
  rw [asked]
  -- Induction on the chain, of which the rest is that of the immediate dominator.
  induction chain generalizing id with
  | nil =>
    cases link with
    | inl ended => exact (l'.dominatorsOf_rooted ((dominator_of_rows l l' same).mp ended.1)).symm
    | inr goes =>
      obtain ⟨d, rest, -, -, longer⟩ := goes
      cases longer
  | cons d rest ih =>
    cases link with
    | inl ended => cases ended.2
    | inr goes =>
      obtain ⟨first, others, above, later, split⟩ := goes
      obtain ⟨rfl, rfl⟩ := List.cons.inj split
      have liveAbove := l.live_above above
      obtain ⟨chain, again, -, -, link⟩ := l.dominatorsOf_chain liveAbove
      obtain rfl := Except.ok.inj (again.symm.trans later)
      exact (l'.dominatorsOf_below ((dominator_of_rows l l' same).mp above) (ih liveAbove later link).symm).symm

theorem withDominators_of_rows (k : Nat) : s.withDominators k = s'.withDominators k := by
  ext id
  constructor
  · intro h
    obtain ⟨live, chain, asked, long⟩ := h
    exact ⟨(live_of_rows l l' same).mp live, chain, dominatorsOf_of_rows l l' same live ▸ asked, long⟩
  · intro h
    obtain ⟨live', chain, asked, long⟩ := h
    have live := (live_of_rows l l' same).mpr live'
    exact ⟨live, chain, (dominatorsOf_of_rows l l' same live).trans asked, long⟩

/-- Rows that are the same make all answers about retention agree. -/
theorem sameRetention_of_rows : s.SameRetention s' := by
  constructor
  case live => exact fun id => live_of_rows l l' same
  case rooted =>
    apply ObjectId.eq_of_ascending (l.ascending_rooted.imp ObjectId.compare_lt_iff.mpr)
      (l'.ascending_rooted.imp ObjectId.compare_lt_iff.mpr)
    intro c
    rw [l.mem_rooted_iff, l'.mem_rooted_iff, dominator_of_rows l l' same]
  case reachableCount => rw [← l.length_retentionRows, ← l'.length_retentionRows, same]
  case totalRetained =>
    apply UInt64.toNat_inj.mp
    rw [l.sum_rows_rooted, l'.sum_rows_rooted, same]
  case dominatorDepths => exact l.dominatorDepths_congr l' (withDominators_of_rows l l' same)
  case csv => rw [csv, same, ← csv]
  all_goals
    intro id live
    obtain ⟨r, hr, rfl⟩ := List.mem_map.mp (l.mem_ids_retentionRows.mpr live)
    have hr' : r ∈ s'.retentionRows := same ▸ hr
  case dominator => rw [l.exports.dominator r hr, l'.exports.dominator r hr']
  case retainedSize => rw [l.exports.retainedSize r hr, l'.exports.retainedSize r hr']
  case dominatorsOf => exact dominatorsOf_of_rows l l' same live
  case children =>
    obtain ⟨i, found, -⟩ := live
    obtain ⟨j, found', -⟩ := l'.mem_ids_retentionRows.mp (List.mem_map_of_mem hr')
    rw [children_eq_ok found, children_eq_ok found']
    apply congrArg
    apply ObjectId.eq_of_ascending ((l.ascending_children i).imp ObjectId.compare_lt_iff.mpr)
      ((l'.ascending_children j).imp ObjectId.compare_lt_iff.mpr)
    intro c
    rw [l.mem_children_iff found, l'.mem_children_iff found', dominator_of_rows l l' same]

end SameRows

end Loaded

/-- The text of a snapshot is read as its table, and both hold the rows of the objects that strong
references reach. The rows alone tell the tree: snapshots of the same text or the same table agree on all
that they answer about retention. -/
theorem csv_reads_back_and_determines_retention {plan : CancelPlan} {expected : Nat} {records : List Record}
    (loaded : (plan.run (loadExpecting expected records)).1 = .ok s) :
    Csv.read? s.csv = some s.retentionTable ∧
    s.retentionTable.columns.map Column.name = ["id", "dominator", "shallow", "retained"] ∧
    s.retentionTable.rows = s.retentionRows.map RetentionRow.fields ∧
    s.Exports s.retentionRows ∧
    ∀ (plan' : CancelPlan) expected' records' s', (plan'.run (loadExpecting expected' records')).1 = .ok s' →
      s.csv = s'.csv ∨ s.retentionTable = s'.retentionTable → s.SameRetention s' := by
  obtain ⟨-, l⟩ := loaded_of_load (outcome_of_run loaded)
  refine ⟨s.read?_csv, rfl, s.rows_retentionTable, l.exports, ?_⟩
  intro plan' expected' records' s' loaded' same
  obtain ⟨-, l'⟩ := loaded_of_load (outcome_of_run loaded')
  apply l.sameRetention_of_rows l'
  cases same with
  | inl text => exact retentionRows_of_csv text
  | inr table => exact retentionRows_of_table table

/-- The object of the id zero is a root and holds another object; a third one is garbage. -/
def zeroRoot : List Record :=
  [.root ⟨0⟩ .thread,
    .object .instanceObject ⟨⟨7⟩, none, 5, []⟩,
    .object .instanceObject ⟨⟨0⟩, none, 8, [⟨.field "held", some ⟨7⟩, true⟩]⟩,
    .object .primitiveArray ⟨⟨9⟩, none, 3, []⟩]

/-- The same but for a reference back to the root. -/
def zeroLoop : List Record :=
  [.root ⟨0⟩ .thread,
    .object .instanceObject ⟨⟨7⟩, none, 5, [⟨.field "holder", some ⟨0⟩, true⟩]⟩,
    .object .instanceObject ⟨⟨0⟩, none, 8, [⟨.field "held", some ⟨7⟩, true⟩]⟩,
    .object .primitiveArray ⟨⟨9⟩, none, 3, []⟩]

/-- A heap whose object of the id seven hangs below that of the id zero, and its rows. -/
theorem rows_belowZero {records : List Record}
    (known : ((HeapGraph.build 4 records).outcome.1 >>= fun g => (g.dominators none).outcome.1.map fun t =>
      decide (g.size = 3 ∧ g.idOf 0 = ⟨7⟩ ∧ g.idOf 1 = ⟨0⟩ ∧ g.shallowSizeOf 0 = 5 ∧ g.shallowSizeOf 1 = 8 ∧
        t.idom = #[some (.node 1), some .superRoot, none])) = .ok true)
    (loaded : (loadExpecting 4 records).outcome.1 = .ok s) :
    s.retentionRows = [⟨⟨0⟩, none, 8, 13⟩, ⟨⟨7⟩, some ⟨0⟩, 5, 5⟩] := by
  obtain ⟨built, l⟩ := loaded_of_load loaded
  obtain ⟨g, also, known⟩ := Except.bind_eq_ok.mp known
  obtain rfl := Except.ok.inj (also.symm.trans built)
  rw [dominators_of_load loaded] at known
  obtain ⟨size, seven, zero, five, eight, idom⟩ := of_decide_eq_true (Except.ok.inj known)
  have reached : s.reachablePlaces = [0, 1] := by
    have range : List.range s.graph.size = [0, 1, 2] := by rw [size]; rfl
    simp [reachablePlaces, range, DominatorTree.isReachable, DominatorTree.idomOf, idom]
  have places : s.graph.sortById s.reachablePlaces = [1, 0] := by
    apply HeapGraph.ascending_ext l.ascending_reachablePlaces
    · simp [seven, zero]
      decide
    · intro i
      rw [HeapGraph.mem_sortById, reached]
      simp [or_comm]
  have rows : s.retentionRows = [⟨⟨0⟩, none, 8, s.retained.sizeOf 1⟩, ⟨⟨7⟩, some ⟨0⟩, 5, s.retained.sizeOf 0⟩] := by
    rw [retentionRows_eq_map, places]
    simp [rowAt, idomIdAt, DominatorTree.idomOf, idom, seven, zero, five, eight]
  have sums := l.exports.retained_eq
  rw [rows] at sums
  have below : s.retained.sizeOf 0 = 5 := UInt64.toNat_inj.mp (by simpa using sums _ (List.mem_cons_of_mem _ List.mem_cons_self))
  have top : s.retained.sizeOf 1 = 13 := UInt64.toNat_inj.mp (by simpa [below] using sums _ List.mem_cons_self)
  rw [rows, below, top]

/-- The text tells the dominator of the id zero from none, and the reference back makes no difference. -/
theorem csv_reads_back_and_determines_retention_zeroRoot : ∃ s s', (CancelPlan.never.run (loadExpecting 4 zeroRoot)).1 = .ok s ∧
    (CancelPlan.never.run (loadExpecting 4 zeroLoop)).1 = .ok s' ∧
    s.csv = "id,dominator,shallow,retained\n0,,8,13\n7,0,5,5\n" ∧
    Csv.read? s.csv = some ⟨[⟨"id", [some 0, some 7]⟩, ⟨"dominator", [none, some 0]⟩, ⟨"shallow", [some 8, some 5]⟩,
      ⟨"retained", [some 13, some 5]⟩]⟩ ∧
    s.Exports s.retentionRows ∧ s.csv = s'.csv ∧ s.SameRetention s' := by
  obtain ⟨s, outcome⟩ : ∃ s, (loadExpecting 4 zeroRoot).outcome.1 = .ok s :=
    exists_load_of_small rfl (by decide +kernel)
  obtain ⟨s', outcome'⟩ : ∃ s, (loadExpecting 4 zeroLoop).outcome.1 = .ok s :=
    exists_load_of_small rfl (by decide +kernel)
  have rows := rows_belowZero (by decide +kernel) outcome
  have rows' := rows_belowZero (by decide +kernel) outcome'
  have same : s.csv = s'.csv := by rw [csv, csv, rows, rows']
  rw [← CancelPlan.run_never] at outcome outcome'
  obtain ⟨read, -, -, exported, determined⟩ := csv_reads_back_and_determines_retention outcome
  refine ⟨s, s', outcome, outcome', ?_, ?_, exported, same, determined _ _ _ s' outcome' (.inl same)⟩
  · rw [csv, rows]
    decide +kernel
  · rw [read, retentionTable, rows]
    rfl

end Snapshot

end Retention
