import Retention.Proofs.BuiltGraphs

namespace Retention

namespace Record

/-- The id that an object record defines. -/
def defined? : Record → Option ObjectId
  | .root _ _ => none
  | .object _ entry => some entry.id

/-- What a root record says. -/
def root? : Record → Option (ObjectId × RootKind)
  | .root id kind => some (id, kind)
  | .object _ _ => none

/-- What is kept of an object record whose references are all in their places. -/
def draft? : Record → Option Draft
  | .root _ _ => none
  | .object shape entry =>
    (shape.place entry.references).toOption.map fun placed => ⟨shape, { entry with references := placed }⟩

/-- The references of an object record are all in their places. -/
def Legal : Record → Prop
  | .root _ _ => True
  | .object shape entry => ∃ placed, shape.place entry.references = .ok placed

theorem Legal.map_draft? {record : Record} (legal : record.Legal) :
    record.draft?.map (fun draft => draft.object.id) = record.defined? := by
  cases record with
  | root id kind => rfl
  | object shape entry =>
    obtain ⟨placed, hp⟩ := legal
    simp [draft?, defined?, hp, Except.toOption]

end Record

/-- Object records are legal and define different ids. -/
structure Acceptable (records : List Record) : Prop where
  legal : ∀ record ∈ records, record.Legal
  distinct : (records.filterMap Record.defined?).Nodup

theorem Acceptable.perm {records records' : List Record} (h : Acceptable records) (perm : records.Perm records') :
    Acceptable records' where
  legal := fun record hr => h.legal record (perm.mem_iff.mpr hr)
  distinct := (perm.filterMap _).nodup_iff.mp h.distinct

theorem Acceptable.map_draft? {records : List Record} (h : Acceptable records) :
    (records.filterMap Record.draft?).map (fun draft => draft.object.id) = records.filterMap Record.defined? := by
  rw [List.map_filterMap]
  exact List.filterMap_congr fun record hr => (h.legal record hr).map_draft?

theorem Acceptable.of_append {records later : List Record} (h : Acceptable (records ++ later)) :
    Acceptable records where
  legal := fun record hr => h.legal record (List.mem_append_left _ hr)
  distinct := by
    have distinct := h.distinct
    rw [List.filterMap_append] at distinct
    exact (List.nodup_append.mp distinct).1

namespace HeapGraphBuilder

/-- All of the records have been taken. -/
structure Taken (records : List Record) (b : HeapGraphBuilder) : Prop where
  acceptable : Acceptable records
  indexed : b.drafts.Indexed
  objects : b.drafts.objects.toList = records.filterMap Record.draft?
  roots : b.drafts.roots.toList = records.filterMap Record.root?

variable {records : List Record} {record : Record} {b next : HeapGraphBuilder} {id : ObjectId}

theorem Taken.map_objects (h : Taken records b) :
    b.drafts.objects.toList.map (fun draft => draft.object.id) = records.filterMap Record.defined? := by
  rw [h.objects, h.acceptable.map_draft?]

theorem Taken.contains_iff (h : Taken records b) :
    b.drafts.index.contains id = true ↔ id ∈ records.filterMap Record.defined? := by
  rw [Std.TreeMap.contains_eq_isSome_getElem?, Option.isSome_iff_exists, ← h.map_objects]
  simp only [h.indexed id, List.mem_map, Array.mem_toList_iff, Array.mem_iff_getElem?]
  tauto

theorem take_of_inspect {entry : Entry} (h : b.drafts.inspect record = .ok entry) :
    b.take record = .ok ⟨b.drafts.insert entry, b.position + 1⟩ := by
  simp only [take, push, h]

theorem take_of_refused {reason : MalformedReason} (h : b.drafts.inspect record = .error reason) :
    b.take record = .error (.malformed ⟨b.position, record.id, reason⟩) := by
  simp only [take, push, h]

theorem Taken.take_root (h : Taken records b) (id : ObjectId) (kind : RootKind) :
    Taken (records ++ [.root id kind]) ⟨b.drafts.insert (.root id kind), b.position + 1⟩ := by
  refine ⟨⟨?_, ?_⟩, h.indexed, ?_, ?_⟩
  · intro other ho
    cases List.mem_append.mp ho with
    | inl old => exact h.acceptable.legal other old
    | inr new => exact List.mem_singleton.mp new ▸ trivial
  · simpa [List.filterMap_cons, Record.defined?] using h.acceptable.distinct
  · simpa [List.filterMap_cons, Record.draft?, Drafts.insert] using h.objects
  · simpa [List.filterMap_cons, Record.root?, Drafts.insert] using h.roots

theorem Taken.take_object (h : Taken records b) {shape : Shape} {entry : ObjectRecord} {placed : List RecordRef}
    (fresh : b.drafts.index.contains entry.id = false) (hp : shape.place entry.references = .ok placed) :
    Taken (records ++ [.object shape entry])
      ⟨b.drafts.insert (.draft ⟨shape, { entry with references := placed }⟩), b.position + 1⟩ := by
  have new : entry.id ∉ records.filterMap Record.defined? := by
    rw [← h.contains_iff, fresh]
    simp
  refine ⟨⟨?_, ?_⟩, h.indexed.insert_draft fresh, ?_, ?_⟩
  · intro other ho
    cases List.mem_append.mp ho with
    | inl old => exact h.acceptable.legal other old
    | inr last => exact List.mem_singleton.mp last ▸ ⟨placed, hp⟩
  · rw [List.filterMap_append]
    refine List.nodup_append.mpr ⟨h.acceptable.distinct, by simp [Record.defined?], ?_⟩
    intro a ha b hb same
    simp only [List.filterMap_cons, Record.defined?, List.filterMap_nil, List.mem_singleton] at hb
    exact new (hb ▸ same ▸ ha)
  · simpa [List.filterMap_cons, Record.draft?, Drafts.insert, hp, Except.toOption] using h.objects
  · simpa [List.filterMap_cons, Record.root?, Drafts.insert] using h.roots

/-- A record is taken exactly when it is legal and its id is new. -/
theorem Taken.take (h : Taken records b) (record : Record) :
    (∃ next, b.take record = .ok next ∧ Taken (records ++ [record]) next) ∨
      (∃ refused, b.take record = .error (.malformed refused)) ∧ ¬ Acceptable (records ++ [record]) := by
  cases record with
  | root id kind => exact .inl ⟨_, rfl, h.take_root id kind⟩
  | object shape entry =>
    cases known : b.drafts.index.contains entry.id with
    | true =>
      have refused : b.drafts.inspect (.object shape entry) = .error .duplicateId := by
        simp [Drafts.inspect, known]
      refine .inr ⟨⟨_, take_of_refused refused⟩, fun acceptable => ?_⟩
      have distinct := acceptable.distinct
      rw [List.filterMap_append] at distinct
      refine (List.nodup_append.mp distinct).2.2 _ (h.contains_iff.mp known) entry.id ?_ rfl
      simp [Record.defined?]
    | false =>
      cases hp : shape.place entry.references with
      | error reason =>
        have refused : b.drafts.inspect (.object shape entry) = .error reason := by
          simp [Drafts.inspect, known, hp, Except.map]
        refine .inr ⟨⟨_, take_of_refused refused⟩, fun acceptable => ?_⟩
        obtain ⟨placed, also⟩ := acceptable.legal (.object shape entry) (by simp)
        rw [hp] at also
        cases also
      | ok placed =>
        have accepted : b.drafts.inspect (.object shape entry) =
            .ok (.draft ⟨shape, { entry with references := placed }⟩) := by
          simp [Drafts.inspect, known, hp, Except.map]
        exact .inl ⟨_, take_of_inspect accepted, h.take_object known hp⟩

theorem taken_new : Taken [] new :=
  ⟨⟨fun _ h => absurd h List.not_mem_nil, List.nodup_nil⟩, Drafts.indexed_empty, rfl, rfl⟩

/-- A stream is taken as a whole exactly when it is acceptable; it is refused as malformed else. -/
theorem foldlM_take (records : List Record) :
    (∃ b, records.foldlM take new = .ok b ∧ Taken records b) ∨
      (∃ refused, records.foldlM take new = .error (.malformed refused)) ∧ ¬ Acceptable records := by
  -- From the end: a stream with a refused beginning stays refused, and is not acceptable as a whole.
  induction records using List.reverseRecOn with
  | nil => exact .inl ⟨new, rfl, taken_new⟩
  | append_singleton records record ih =>
    have run : (records ++ [record]).foldlM take new = records.foldlM take new >>= fun b => b.take record := by
      rw [List.foldlM_append]
      simp only [List.foldlM_cons, List.foldlM_nil, bind_pure]
    rw [run]
    cases ih with
    | inl done =>
      obtain ⟨b, hb, taken⟩ := done
      rw [hb]
      exact taken.take record
    | inr failed =>
      obtain ⟨⟨refused, he⟩, unacceptable⟩ := failed
      rw [he]
      exact .inr ⟨⟨refused, rfl⟩, fun acceptable => unacceptable acceptable.of_append⟩

/-- Every record that is taken uses up one position. -/
theorem position_of_records (h : records.foldlM take new = .ok b) : b.position = records.length := by
  induction records using List.reverseRecOn generalizing b with
  | nil =>
    obtain rfl := Except.ok.inj h
    rfl
  | append_singleton records record ih =>
    rw [List.foldlM_append] at h
    obtain ⟨mid, before, last⟩ := Except.bind_eq_ok.mp h
    rw [List.foldlM_cons] at last
    obtain ⟨next, taken, same⟩ := Except.bind_eq_ok.mp last
    obtain rfl := Except.ok.inj same
    have step : next.position = mid.position + 1 := by
      cases inspected : mid.drafts.inspect record with
      | ok entry =>
        rw [take_of_inspect inspected] at taken
        rw [← Except.ok.inj taken]
      | error reason =>
        rw [take_of_refused inspected] at taken
        cases taken
    rw [step, ih before, List.length_append, List.length_singleton]

/-- A stream is refused at the first record that is, and that record's position is reported. -/
theorem exists_refused {error : LoadError} (h : records.foldlM take new = .error error) :
    ∃ front record rest b refused, records = front ++ record :: rest ∧ front.foldlM take new = .ok b ∧
      b.take record = .error error ∧ error = .malformed refused ∧ refused.position = front.length := by
  obtain ⟨front, record, rest, b, rfl, before, failed⟩ := exists_failing h
  cases inspected : b.drafts.inspect record with
  | ok entry =>
    rw [take_of_inspect inspected] at failed
    cases failed
  | error reason =>
    have refused := take_of_refused inspected
    obtain rfl := Except.error.inj (failed.symm.trans refused)
    exact ⟨front, record, rest, b, _, rfl, before, refused, rfl, position_of_records before⟩

end HeapGraphBuilder

namespace RootKinds

theorem insert_comm (kinds : RootKinds) (a b : RootKind) : (kinds.insert a).insert b = (kinds.insert b).insert a := by
  simp only [insert, BitVec.or_assoc, BitVec.or_comm (BitVec.twoPow 14 a.code)]

theorem isEmpty_insert (kinds : RootKinds) (kind : RootKind) : (kinds.insert kind).isEmpty = false := by
  apply Bool.eq_false_iff.mpr
  intro none
  have member : (kinds.insert kind).contains kind = true := by simp
  have bits : (kinds.insert kind).bits = 0 := by simpa [isEmpty] using none
  rw [contains, bits] at member
  simp at member

/-- The kinds of those root records that name the id. -/
def naming (roots : List (ObjectId × RootKind)) (id : ObjectId) : RootKinds :=
  (roots.filter fun root => root.1 == id).foldl (fun kinds root => kinds.insert root.2) .empty

variable {roots roots' : List (ObjectId × RootKind)} {id : ObjectId}

theorem naming_append (roots : List (ObjectId × RootKind)) (root : ObjectId × RootKind) (id : ObjectId) :
    naming (roots ++ [root]) id =
      if root.1 = id then (naming roots id).insert root.2 else naming roots id := by
  unfold naming
  rw [List.filter_append]
  split <;> simp [*]

theorem naming_perm (perm : roots.Perm roots') (id : ObjectId) : naming roots id = naming roots' id := by
  apply (perm.filter _).foldl_eq'
  intro a _ b _ kinds
  exact insert_comm kinds a.2 b.2

theorem isEmpty_naming : (naming roots id).isEmpty = false ↔ ∃ root ∈ roots, root.1 = id := by
  induction roots using List.reverseRecOn with
  | nil => simp [naming, empty, isEmpty]
  | append_singleton roots root ih =>
    rw [naming_append]
    by_cases same : root.1 = id
    · simp only [if_pos same, isEmpty_insert, true_iff]
      exact ⟨root, by simp, same⟩
    · simp [same, ih]

end RootKinds

namespace HeapGraphBuilder

/-- A graph whose objects come from the drafts and whose roots come from the root records. -/
structure Registered (d : Drafts) (roots : List (ObjectId × RootKind)) (g : HeapGraph) : Prop where
  index_eq : g.index = d.index
  node : ∀ i, g.node? i = (d.objects[i]?).map fun draft =>
    { resolve d.index draft with rootKinds := .naming roots draft.object.id }
  roots_eq : g.roots = (roots.filterMap fun root => d.index[root.1]?).eraseDups
  dangling_eq : g.danglingRoots = roots.filter fun root => (d.index[root.1]?).isNone

variable {d : Drafts} {g : HeapGraph} {roots : List (ObjectId × RootKind)}

theorem registered_resolved (d : Drafts) : Registered d [] (resolved d) where
  index_eq := rfl
  node := by
    intro i
    rw [HeapGraph.node?, nodes_resolved]
    exact Array.getElem?_map
  roots_eq := rfl
  dangling_eq := rfl

/-- Places have the ids that the index finds them by. -/
theorem index_inj (indexed : d.Indexed) {a b : ObjectId} {i : Nat} (ha : d.index[a]? = some i)
    (hb : d.index[b]? = some i) : a = b := by
  obtain ⟨draft, hd, rfl⟩ := (indexed a i).mp ha
  obtain ⟨other, ho, rfl⟩ := (indexed b i).mp hb
  rw [hd] at ho
  rw [Option.some.inj ho]

theorem Registered.isRoot_iff (h : Registered d roots g) (indexed : d.Indexed) {id : ObjectId} {i : Nat}
    (found : d.index[id]? = some i) :
    (g.nodes[i]?).any Node.isRoot = true ↔ i ∈ roots.filterMap fun root => d.index[root.1]? := by
  obtain ⟨draft, hd, rfl⟩ := (indexed id i).mp found
  have node := h.node i
  rw [hd] at node
  have marked : (g.nodes[i]?).any Node.isRoot = true ↔ (RootKinds.naming roots draft.object.id).isEmpty = false := by
    change (g.node? i).any Node.isRoot = true ↔ _
    rw [node]
    simp [Node.isRoot]
  rw [marked, RootKinds.isEmpty_naming, List.mem_filterMap]
  constructor
  · intro named
    obtain ⟨root, hr, same⟩ := named
    exact ⟨root, hr, same ▸ found⟩
  · intro placed
    obtain ⟨root, hr, there⟩ := placed
    exact ⟨root, hr, index_inj indexed there found⟩

theorem Registered.registerRoot (h : Registered d roots g) (indexed : d.Indexed) (root : ObjectId × RootKind) :
    Registered d (roots ++ [root]) (registerRoot g root) := by
  unfold HeapGraphBuilder.registerRoot
  rw [h.index_eq]
  cases found : d.index[root.1]? with
  | none =>
    -- The root dangles, so no object is named by it.
    refine ⟨rfl, ?_, ?_, ?_⟩
    · intro i
      refine (h.node i).trans ?_
      cases hd : d.objects[i]? with
      | none => rfl
      | some draft =>
        have other : root.1 ≠ draft.object.id := by
          intro same
          rw [same, (indexed _ i).mpr ⟨draft, hd, rfl⟩] at found
          cases found
        simp [RootKinds.naming_append, other]
    · simp [h.roots_eq, found]
    · simp [h.dangling_eq, found]
  | some i =>
    refine ⟨rfl, ?_, ?_, ?_⟩
    · intro j
      change (g.nodes.modify i _)[j]? = _
      have node := h.node j
      rw [HeapGraph.node?] at node
      rw [Array.getElem?_modify, node]
      cases hd : d.objects[j]? with
      | none => simp
      | some draft =>
        have there := (indexed _ j).mpr ⟨draft, hd, rfl⟩
        by_cases same : i = j
        · subst same
          have named : root.1 = draft.object.id := index_inj indexed found there
          simp [RootKinds.naming_append, named]
        · have other : root.1 ≠ draft.object.id := by
            intro named
            rw [named, there] at found
            exact same (Option.some.inj found).symm
          simp [RootKinds.naming_append, other, same]
    · -- An object is marked as a root by the first record that names it.
      have known := h.isRoot_iff indexed found
      simp only [List.filterMap_append, List.filterMap_cons, found, List.filterMap_nil, eraseDups_concat, ← known,
        h.roots_eq]
    · simp [h.dangling_eq, found]

theorem Registered.registerRoots (indexed : d.Indexed) (roots : List (ObjectId × RootKind)) :
    Registered d roots (roots.foldl HeapGraphBuilder.registerRoot (resolved d)) := by
  induction roots using List.reverseRecOn with
  | nil => exact registered_resolved d
  | append_singleton roots root ih =>
    rw [List.foldl_append]
    exact ih.registerRoot indexed root

end HeapGraphBuilder

namespace HeapGraph

open HeapGraphBuilder

/-- The graph is the image of the records: its objects and roots are theirs. -/
structure ImageOf (g : HeapGraph) (records : List Record) (d : Drafts) : Prop where
  acceptable : Acceptable records
  indexed : d.Indexed
  objects : d.objects.toList = records.filterMap Record.draft?
  registered : Registered d (records.filterMap Record.root?) g

namespace ImageOf

variable {g : HeapGraph} {records : List Record} {d : Drafts}

theorem mem_objects (image : g.ImageOf records d) {draft : Draft} :
    (∃ i : Nat, d.objects[i]? = some draft) ↔ draft ∈ records.filterMap Record.draft? := by
  rw [← image.objects, Array.mem_toList_iff, Array.mem_iff_getElem?]

/-- The ids that have an object are those of the records that were kept. -/
theorem isSome_lookup (image : g.ImageOf records d) {id : ObjectId} :
    (g.lookup id).isSome = true ↔ ∃ draft ∈ records.filterMap Record.draft?, draft.object.id = id := by
  rw [lookup, image.registered.index_eq, Option.isSome_iff_exists]
  simp only [image.indexed id]
  constructor
  · intro named
    obtain ⟨i, draft, hd, same⟩ := named
    exact ⟨draft, image.mem_objects.mp ⟨i, hd⟩, same⟩
  · intro named
    obtain ⟨draft, hd, same⟩ := named
    obtain ⟨i, hi⟩ := image.mem_objects.mpr hd
    exact ⟨i, draft, hi, same⟩

/-- The ids that have an object are those that object records define. -/
theorem isSome_lookup_iff (image : g.ImageOf records d) {id : ObjectId} :
    (g.lookup id).isSome = true ↔ id ∈ records.filterMap Record.defined? := by
  rw [image.isSome_lookup, ← image.acceptable.map_draft?, List.mem_map]

theorem lookup_eq (image : g.ImageOf records d) (id : ObjectId) : g.lookup id = d.index[id]? := by
  rw [lookup, image.registered.index_eq]

theorem mem_roots (image : g.ImageOf records d) {i : Nat} :
    i ∈ g.roots ↔ ∃ root ∈ records.filterMap Record.root?, g.lookup root.1 = some i := by
  rw [image.registered.roots_eq, List.mem_eraseDups, List.mem_filterMap]
  simp only [image.lookup_eq]

end ImageOf

/-- Acceptable streams are built; others are refused as malformed. -/
theorem build_cases (expected : Nat) (records : List Record) :
    (∃ g d, (build expected records).outcome.1 = .ok g ∧ g.ImageOf records d) ∨
      (∃ refused, (build expected records).outcome.1 = .error (.malformed refused)) ∧ ¬ Acceptable records := by
  rw [(build_returns expected records).outcome_eq]
  cases foldlM_take records with
  | inl done =>
    obtain ⟨b, hb, taken⟩ := done
    rw [hb]
    refine .inl ⟨_, b.drafts, rfl, taken.acceptable, taken.indexed, taken.objects, ?_⟩
    rw [← taken.roots]
    exact Registered.registerRoots taken.indexed _
  | inr failed =>
    obtain ⟨⟨refused, he⟩, unacceptable⟩ := failed
    rw [he]
    exact .inr ⟨⟨refused, rfl⟩, unacceptable⟩

theorem imageOf_of_build {expected : Nat} {records : List Record} {g : HeapGraph}
    (built : (build expected records).outcome.1 = .ok g) : ∃ d, g.ImageOf records d := by
  cases build_cases expected records with
  | inl done =>
    obtain ⟨g', d, hg, image⟩ := done
    rw [built] at hg
    exact ⟨d, Except.ok.inj hg ▸ image⟩
  | inr failed =>
    obtain ⟨⟨refused, he⟩, -⟩ := failed
    rw [built] at he
    cases he

theorem nodup_roots_of_build {expected : Nat} {records : List Record} {g : HeapGraph}
    (built : (build expected records).outcome.1 = .ok g) : g.roots.Nodup := by
  obtain ⟨d, image⟩ := imageOf_of_build built
  rw [image.registered.roots_eq]
  exact nodup_eraseDups _

end HeapGraph

end Retention
