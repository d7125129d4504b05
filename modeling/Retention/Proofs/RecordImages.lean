import Mathlib.Data.List.Forall2
import Retention.Proofs.AcceptedRecords
import Retention.Proofs.RootPaths

namespace Retention

namespace Shape

/-- The label that a reference keeps in an object: the fields of a class object are its statics. -/
def keptLabel : Shape → RefLabel → RefLabel
  | .classObject _, .field name => .staticField name
  | _, label => label

variable {shape : Shape} {count position : Nat}

theorem placeLabel_eq {label placed : RefLabel} (h : shape.placeLabel count position label = .ok placed) :
    placed = shape.keptLabel label := by
  cases shape <;> cases label <;> grind [placeLabel, keptLabel]

theorem placeFrom_eq {references placed : List RecordRef} (h : shape.placeFrom count position references = .ok placed) :
    placed = references.map fun r => { r with label := shape.keptLabel r.label } := by
  induction references generalizing position placed with
  | nil => exact (Except.ok.inj h).symm
  | cons r rest ih =>
    rw [placeFrom] at h
    obtain ⟨label, here, later⟩ := Except.bind_eq_ok.mp h
    obtain ⟨others, tail, same⟩ := Except.bind_eq_ok.mp later
    rw [← Except.ok.inj same, List.map_cons, placeLabel_eq here, ih tail]

end Shape

namespace Record

/-- What an object record says, with the shape of its object. -/
def object? : Record → Option (Shape × ObjectRecord)
  | .root _ _ => none
  | .object shape entry => some (shape, entry)

/-- It is a root record that names the id. -/
def marks (id : ObjectId) : Record → Bool
  | .root other _ => other == id
  | .object _ _ => false

theorem mem_roots_iff {records : List Record} {id : ObjectId} {kind : RootKind} :
    (id, kind) ∈ records.filterMap root? ↔ .root id kind ∈ records := by
  rw [List.mem_filterMap]
  constructor
  · intro h
    obtain ⟨record, there, same⟩ := h
    cases record with
    | root other also =>
      obtain ⟨rfl, rfl⟩ := Prod.mk.inj (Option.some.inj same)
      exact there
    | object shape entry => cases same
  · intro there
    exact ⟨_, there, rfl⟩

/-- Legal records are kept one by one, with their labels placed. -/
theorem forall₂_drafts {records : List Record} (legal : ∀ record ∈ records, record.Legal) :
    List.Forall₂ (fun (draft : Draft) (said : Shape × ObjectRecord) => draft = ⟨said.1, { said.2 with
        references := said.2.references.map fun r => { r with label := said.1.keptLabel r.label } }⟩)
      (records.filterMap draft?) (records.filterMap object?) := by
  induction records with
  | nil => exact .nil
  | cons record rest ih =>
    have later := ih fun other there => legal other (List.mem_cons_of_mem _ there)
    cases record with
    | root id kind => exact later
    | object shape entry =>
      obtain ⟨placed, hp⟩ := legal _ List.mem_cons_self
      have kept : draft? (.object shape entry) = some ⟨shape, { entry with references := placed }⟩ := by
        simp [draft?, hp, Except.toOption]
      rw [List.filterMap_cons_some kept, List.filterMap_cons_some (rfl : object? (.object shape entry) = _)]
      refine .cons ?_ later
      rw [Shape.placeFrom_eq hp]

end Record

/-- The kinds that are kept for an id are those of the root records that name it. -/
theorem RootKinds.contains_naming {roots : List (ObjectId × RootKind)} {id : ObjectId} {kind : RootKind} :
    (naming roots id).contains kind = true ↔ (id, kind) ∈ roots := by
  induction roots using List.reverseRecOn with
  | nil => simp [naming]
  | append_singleton roots root ih =>
    obtain ⟨other, also⟩ := root
    rw [naming_append]
    by_cases same : other = id
    · simp [same, ih, @eq_comm _ kind]
    · have apart : id ≠ other := fun h => same h.symm
      simp [same, ih, apart]

/-- Without repetitions, items stand in the order in which they come up first. -/
theorem pairwise_eraseDups_filterMap {α β : Type} [BEq β] [LawfulBEq β] (f : α → Option β) (items : List α) :
    (items.filterMap f).eraseDups.Pairwise fun a b =>
      items.findIdx (fun x => f x == some a) < items.findIdx (fun x => f x == some b) := by
  classical
  induction items using List.reverseRecOn with
  | nil => simp
  | append_singleton items item ih =>
    -- What came up before comes up first where it did.
    have early : ∀ a ∈ (items.filterMap f).eraseDups,
        items.findIdx (fun x => f x == some a) < items.length ∧
          (items ++ [item]).findIdx (fun x => f x == some a) = items.findIdx (fun x => f x == some a) := by
      intro a ha
      obtain ⟨x, hx, fx⟩ := List.mem_filterMap.mp (List.mem_eraseDups.mp ha)
      have inside := List.findIdx_lt_length_of_exists (p := fun x => f x == some a) ⟨x, hx, by simp [fx]⟩
      exact ⟨inside, by rw [List.findIdx_append, if_pos inside]⟩
    have before : (items.filterMap f).eraseDups.Pairwise fun a b =>
        (items ++ [item]).findIdx (fun x => f x == some a) < (items ++ [item]).findIdx (fun x => f x == some b) := by
      refine ih.imp_of_mem ?_
      intro a b ha hb less
      rwa [(early a ha).2, (early b hb).2]
    rw [List.filterMap_append]
    cases hf : f item with
    | none => simpa [hf] using before
    | some b =>
      simp only [List.filterMap_cons_some hf, List.filterMap_nil, eraseDups_concat]
      split
      · exact before
      · rename_i new
        refine List.pairwise_append.mpr ⟨before, List.pairwise_singleton _ _, ?_⟩
        intro a ha c hc
        obtain rfl := List.mem_singleton.mp hc
        have missing : ∀ x ∈ items, (f x == some c) = false := by
          intro x hx
          apply Bool.eq_false_iff.mpr
          intro hit
          exact new (List.mem_filterMap.mpr ⟨x, hx, beq_iff_eq.mp hit⟩)
        have last : (items ++ [item]).findIdx (fun x => f x == some c) = items.length := by
          rw [List.findIdx_append, List.findIdx_eq_length_of_false missing]
          simp [hf]
        rw [(early a ha).2, last]
        exact (early a ha).1

namespace HeapGraph

/-- The reference is the recorded one: it leads to the object of its target's id, and to nothing where
it has no target or where no record defines one. -/
structure DepictsRef (g : HeapGraph) (records : List Record) (shape : Shape) (r : Reference) (raw : RecordRef) :
    Prop where
  label_eq : r.label = shape.keptLabel raw.label
  target_eq : r.target = raw.target
  strong_eq : r.strong = raw.strong
  resolved_iff : ∀ i, r.resolved = some i ↔ ∃ n, g.node? i = some n ∧ raw.target = some n.id
  null_iff : r.isNull = true ↔ raw.target = none
  dangling_iff : r.isDangling = true ↔ ∃ id, raw.target = some id ∧ id ∉ records.filterMap Record.defined?

/-- The object is the recorded one, with its references in their order. -/
structure DepictsObject (g : HeapGraph) (records : List Record) (n : Node) (said : Shape × ObjectRecord) : Prop where
  id_eq : n.id = said.2.id
  shape_eq : n.shape = said.1
  classId_eq : n.classId = said.2.classId
  shallowSize_eq : n.shallowSize = said.2.shallowSize
  references : List.Forall₂ (g.DepictsRef records said.1) n.references said.2.references
  rootKinds_iff : ∀ kind, n.rootKinds.contains kind = true ↔ .root n.id kind ∈ records

/-- The graph is a faithful image of the records. -/
structure Depicts (g : HeapGraph) (records : List Record) : Prop where
  objects : List.Forall₂ (g.DepictsObject records) g.nodes.toList (records.filterMap Record.object?)
  lookup_iff : ∀ id i, g.lookup id = some i ↔ ∃ n, g.node? i = some n ∧ n.id = id
  referrers_ascending : ∀ v, (g.referrersOf v).Pairwise fun a b => g.idOf a < g.idOf b
  mem_referrers : ∀ u v, u ∈ g.referrersOf v ↔ ∃ r ∈ g.referencesOf u, r.resolved = some v
  roots_nodup : g.roots.Nodup
  mem_roots : ∀ i, i ∈ g.roots ↔ ∃ n kind, g.node? i = some n ∧ .root n.id kind ∈ records
  /-- Roots come in the order of the first records that name them. -/
  roots_ordered : g.roots.Pairwise fun a b =>
    records.findIdx (Record.marks (g.idOf a)) < records.findIdx (Record.marks (g.idOf b))
  danglingRoots_eq : g.danglingRoots = (records.filterMap Record.root?).filter fun root =>
    decide (root.1 ∉ records.filterMap Record.defined?)

variable {g : HeapGraph} {records : List Record} {d : Drafts}

namespace ImageOf

theorem lookup_eq_none_iff (image : g.ImageOf records d) {id : ObjectId} :
    g.lookup id = none ↔ id ∉ records.filterMap Record.defined? := by
  rw [← image.isSome_lookup_iff, Option.not_isSome_iff_eq_none]

/-- The nodes are the records that were kept, with their references resolved. -/
theorem nodes_eq (image : g.ImageOf records d) : g.nodes.toList = (records.filterMap Record.draft?).map fun draft =>
    { HeapGraphBuilder.resolve d.index draft with
      rootKinds := .naming (records.filterMap Record.root?) draft.object.id } := by
  rw [← image.objects]
  apply List.ext_getElem?
  intro i
  rw [List.getElem?_map, Array.getElem?_toList, Array.getElem?_toList]
  exact image.registered.node i

theorem depictsRef (image : g.ImageOf records d) (wf : g.WellFormed) (shape : Shape) (raw : RecordRef) :
    g.DepictsRef records shape
      (HeapGraphBuilder.resolveRef d.index { raw with label := shape.keptLabel raw.label }) raw := by
  have resolved : (HeapGraphBuilder.resolveRef d.index { raw with label := shape.keptLabel raw.label }).resolved =
      raw.target.bind g.lookup := by
    have same : g.lookup = fun id => d.index[id]? := funext image.lookup_eq
    rw [same]
    rfl
  refine ⟨rfl, rfl, rfl, ?_, ?_, ?_⟩
  · intro i
    rw [resolved, Option.bind_eq_some_iff]
    simp only [wf.lookup_iff]
    constructor
    · intro h
      obtain ⟨id, target, n, hn, named⟩ := h
      exact ⟨n, hn, named ▸ target⟩
    · intro h
      obtain ⟨n, hn, target⟩ := h
      exact ⟨n.id, target, n, hn, rfl⟩
  · exact Option.isNone_iff_eq_none
  · rw [Reference.isDangling, resolved]
    change (raw.target.isSome && (raw.target.bind g.lookup).isNone) = true ↔ _
    cases raw.target with
    | none => simp
    | some id => simp [image.lookup_eq_none_iff]

theorem depictsObject (image : g.ImageOf records d) (wf : g.WellFormed) (shape : Shape) (entry : ObjectRecord) :
    g.DepictsObject records
      { HeapGraphBuilder.resolve d.index ⟨shape, { entry with
          references := entry.references.map fun r => { r with label := shape.keptLabel r.label } }⟩ with
        rootKinds := .naming (records.filterMap Record.root?) entry.id }
      (shape, entry) := by
  refine ⟨rfl, rfl, rfl, rfl, ?_, fun kind => RootKinds.contains_naming.trans Record.mem_roots_iff⟩
  simp only [HeapGraphBuilder.resolve, List.map_map, List.forall₂_map_left_iff, Function.comp, List.forall₂_same]
  exact fun raw _ => image.depictsRef wf shape raw

theorem depicts_objects (image : g.ImageOf records d) (wf : g.WellFormed) :
    List.Forall₂ (g.DepictsObject records) g.nodes.toList (records.filterMap Record.object?) := by
  rw [image.nodes_eq, List.forall₂_map_left_iff]
  refine (Record.forall₂_drafts image.acceptable.legal).imp ?_
  intro draft said kept
  rw [kept]
  exact image.depictsObject wf said.1 said.2

/-- The object that a root record names, if there is one. -/
def rootPlace (g : HeapGraph) (record : Record) : Option Nat := record.root?.bind fun root => g.lookup root.1

theorem roots_eq (image : g.ImageOf records d) : g.roots = (records.filterMap (rootPlace g)).eraseDups := by
  have same : g.lookup = fun id => d.index[id]? := funext image.lookup_eq
  change _ = (records.filterMap fun record => record.root?.bind fun root => g.lookup root.1).eraseDups
  rw [image.registered.roots_eq, List.filterMap_filterMap, same]

theorem rootPlace_eq_some (wf : g.WellFormed) {i : Nat} (hi : i < g.size) (record : Record) :
    (rootPlace g record == some i) = record.marks (g.idOf i) := by
  cases record with
  | object shape entry => rfl
  | root id kind =>
    apply Bool.eq_iff_iff.mpr
    simp only [rootPlace, Record.root?, Record.marks, Option.bind_some, beq_iff_eq]
    constructor
    · exact fun found => (wf.idOf_of_lookup found).symm
    · intro named
      rw [named]
      exact wf.lookup_idOf hi

theorem roots_ordered (image : g.ImageOf records d) (wf : g.WellFormed) : g.roots.Pairwise fun a b =>
    records.findIdx (Record.marks (g.idOf a)) < records.findIdx (Record.marks (g.idOf b)) := by
  have first := pairwise_eraseDups_filterMap (rootPlace g) records
  rw [← image.roots_eq] at first
  refine first.imp_of_mem ?_
  intro a b ha hb less
  have named : ∀ {i}, i ∈ g.roots → (fun record => rootPlace g record == some i) = Record.marks (g.idOf i) :=
    fun hi => funext (rootPlace_eq_some wf (wf.roots_lt _ hi))
  rwa [named ha, named hb] at less

theorem mem_roots_iff (image : g.ImageOf records d) (wf : g.WellFormed) {i : Nat} :
    i ∈ g.roots ↔ ∃ n kind, g.node? i = some n ∧ .root n.id kind ∈ records := by
  rw [image.mem_roots]
  constructor
  · intro h
    obtain ⟨⟨id, kind⟩, there, found⟩ := h
    obtain ⟨n, hn, rfl⟩ := (wf.lookup_iff id i).mp found
    exact ⟨n, kind, hn, Record.mem_roots_iff.mp there⟩
  · intro h
    obtain ⟨n, kind, hn, there⟩ := h
    exact ⟨(n.id, kind), Record.mem_roots_iff.mpr there, (wf.lookup_iff n.id i).mpr ⟨n, hn, rfl⟩⟩

theorem danglingRoots_eq (image : g.ImageOf records d) : g.danglingRoots =
    (records.filterMap Record.root?).filter fun root => decide (root.1 ∉ records.filterMap Record.defined?) := by
  rw [image.registered.dangling_eq]
  apply List.filter_congr
  intro root _
  apply Bool.eq_iff_iff.mpr
  rw [decide_eq_true_iff, ← image.lookup_eq_none_iff, image.lookup_eq, Option.isNone_iff_eq_none]

end ImageOf

/-- Every graph that is built depicts its records. -/
theorem build_depicts {plan : CancelPlan} {expected : Nat} {records : List Record} {g : HeapGraph}
    (built : (plan.run (build expected records)).1 = .ok g) : g.Depicts records := by
  have outcome := CancelPlan.outcome_of_run (build_returns expected records) built
  have wf := WellFormed.of_build outcome
  obtain ⟨d, image⟩ := imageOf_of_build outcome
  constructor
  · exact image.depicts_objects wf
  · exact wf.lookup_iff
  · exact wf.referrersOf_ascending
  · exact wf.mem_referrersOf
  · exact nodup_roots_of_build outcome
  · exact fun i => image.mem_roots_iff wf
  · exact image.roots_ordered wf
  · exact image.danglingRoots_eq

/-- Roots before and after their objects and more than once, two of them without an object; references
ahead, to the object itself, twice to one object, to none and to an id that nothing defines. -/
def scatteredRoots : List Record :=
  [.root ⟨2⟩ .jniGlobal, .root ⟨7⟩ .unknown,
    .object (.classObject "Pair") ⟨⟨1⟩, none, 64, [⟨.field "first", some ⟨2⟩, true⟩, ⟨.staticField "rest", none, true⟩]⟩,
    .root ⟨1⟩ .stickyClass,
    .object .objectArray ⟨⟨3⟩, none, 24,
      [⟨.element 0, some ⟨2⟩, true⟩, ⟨.element 1, some ⟨3⟩, false⟩, ⟨.element 2, some ⟨2⟩, false⟩]⟩,
    .root ⟨2⟩ .javaFrame, .root ⟨7⟩ .unknown,
    .object .instanceObject ⟨⟨2⟩, some ⟨1⟩, 16, [⟨.field "gone", some ⟨9⟩, true⟩]⟩]

/-- The referrers of an object are told by the references of all objects. -/
theorem Depicts.referrersOf_eq (h : g.Depicts records) {places : List Nat} {v : Nat}
    (ascending : places.Pairwise fun a b => g.idOf a < g.idOf b)
    (refer : ∀ u ∈ places, ∃ r ∈ g.referencesOf u, r.resolved = some v)
    (all : ∀ u < g.size, (∃ r ∈ g.referencesOf u, r.resolved = some v) → u ∈ places) : g.referrersOf v = places := by
  apply ascending_ext (h.referrers_ascending v) ascending
  intro u
  rw [h.mem_referrers]
  constructor
  · intro refers
    obtain ⟨r, hr, resolved⟩ := refers
    exact all u (lt_of_mem_referencesOf hr) ⟨r, hr, resolved⟩
  · exact refer u

theorem build_depicts_scatteredRoots : ∃ g, (CancelPlan.never.run (build 8 scatteredRoots)).1 = .ok g ∧
    g.Depicts scatteredRoots ∧ g.roots = [2, 0] ∧ g.danglingRoots = [(⟨7⟩, .unknown), (⟨7⟩, .unknown)] ∧
    (g.referencesOf 0).map Reference.label = [.staticField "first", .staticField "rest"] ∧
    (g.referencesOf 1).map Reference.resolved = [some 2, some 1, some 2] ∧
    (g.referencesOf 2).map Reference.isDangling = [true] ∧
    g.referrersOf 0 = [] ∧ g.referrersOf 1 = [1] ∧ g.referrersOf 2 = [0, 1] := by
  have read : (build 8 scatteredRoots).outcome.1.map (fun g => decide (
      g.roots = [2, 0] ∧ g.danglingRoots = [(⟨7⟩, .unknown), (⟨7⟩, .unknown)] ∧
      (g.referencesOf 0).map Reference.label = [.staticField "first", .staticField "rest"] ∧
      (g.referencesOf 1).map Reference.resolved = [some 2, some 1, some 2] ∧
      (g.referencesOf 2).map Reference.isDangling = [true])) = .ok true := by decide +kernel
  have told : (build 8 scatteredRoots).outcome.1.map (fun g => decide (
      ∀ entry ∈ ([(0, []), (1, [1]), (2, [0, 1])] : List (Nat × List Nat)),
        entry.2.Pairwise (fun a b => g.idOf a < g.idOf b) ∧
        (∀ u ∈ entry.2, ∃ r ∈ g.referencesOf u, r.resolved = some entry.1) ∧
        ∀ u < g.size, (∃ r ∈ g.referencesOf u, r.resolved = some entry.1) → u ∈ entry.2)) = .ok true := by
    decide +kernel
  obtain ⟨g, built, roots, dangling, labels, resolved, gone⟩ := Except.exists_of_test read
  rw [built] at told
  rw [← CancelPlan.run_never] at built
  have depicts := build_depicts built
  have referrers : ∀ entry ∈ ([(0, []), (1, [1]), (2, [0, 1])] : List (Nat × List Nat)),
      g.referrersOf entry.1 = entry.2 := by
    intro entry there
    obtain ⟨ascending, refer, all⟩ := of_decide_eq_true (Except.ok.inj told) entry there
    exact depicts.referrersOf_eq ascending refer all
  exact ⟨g, built, depicts, roots, dangling, labels, resolved, gone, referrers (0, []) (by simp),
    referrers (1, [1]) (by simp), referrers (2, [0, 1]) (by simp)⟩

end HeapGraph

end Retention
