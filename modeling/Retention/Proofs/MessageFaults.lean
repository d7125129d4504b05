import Mathlib.Data.List.Forall2
import Retention.Proofs.WireRoundTrips

namespace Retention

section Items

variable {ε α β : Type} {f : α → Except ε β} {items : List α} {a : α} {error : ε} {fine : α → Prop}
  {bad : Nat → α → Prop}

/-- The items are fine up to one that is bad where it stands. -/
def FirstBad (fine : α → Prop) (bad : Nat → α → Prop) (items : List α) : Prop :=
  ∃ front a rest, items = front ++ a :: rest ∧ (∀ b ∈ front, fine b) ∧ bad front.length a

theorem not_firstBad_nil : ¬ FirstBad fine bad [] := by
  simp [FirstBad]

theorem firstBad_cons : FirstBad fine bad (a :: items) ↔
    bad 0 a ∨ fine a ∧ FirstBad fine (fun k => bad (k + 1)) items := by
  constructor
  · intro h
    obtain ⟨front, b, rest, split, before, here⟩ := h
    cases front with
    | nil =>
      obtain ⟨rfl, -⟩ := List.cons.inj split
      exact .inl here
    | cons c front =>
      obtain ⟨rfl, rfl⟩ := List.cons.inj split
      exact .inr ⟨before a List.mem_cons_self, front, b, rest, rfl,
        fun c hc => before c (List.mem_cons_of_mem a hc), here⟩
  · intro h
    cases h with
    | inl here => exact ⟨[], a, items, rfl, by simp, here⟩
    | inr later =>
      obtain ⟨first, front, b, rest, rfl, before, here⟩ := later
      exact ⟨a :: front, b, rest, rfl, by simpa using ⟨first, before⟩, here⟩

theorem exists_of_mem_left {R : α → β → Prop} {results : List β} (h : List.Forall₂ R items results)
    (ha : a ∈ items) : ∃ b, R a b := by
  induction h with
  | nil => cases ha
  | cons one _ ih =>
    cases ha with
    | head => exact ⟨_, one⟩
    | tail _ later => exact ih later

theorem exists_of_mem_right {R : α → β → Prop} {results : List β} {b : β} (h : List.Forall₂ R items results)
    (hb : b ∈ results) : ∃ a, R a b := exists_of_mem_left h.flip hb

theorem Except.map_eq_ok {x : Except ε α} {g : α → β} {b : β} :
    x.map g = .ok b ↔ ∃ a, x = .ok a ∧ g a = b := by
  cases x <;> simp [Except.map]

theorem Except.map_eq_error {x : Except ε α} {g : α → β} : x.map g = .error error ↔ x = .error error := by
  cases x <;> simp [Except.map]

/-- All items are taken, each to its own result. -/
theorem mapM_eq_ok_iff {results : List β} :
    items.mapM f = .ok results ↔ List.Forall₂ (fun a b => f a = .ok b) items results := by
  induction items generalizing results with
  | nil => simp [pure, Except.pure, eq_comm]
  | cons a rest ih =>
    rw [List.mapM_cons, List.forall₂_cons_left_iff]
    simp only [Except.bind_eq_ok, ih, pure, Except.pure, Except.ok.injEq]
    constructor
    · intro h
      obtain ⟨b, hb, later, hl, same⟩ := h
      exact ⟨b, later, hb, hl, same.symm⟩
    · intro h
      obtain ⟨b, later, hb, hl, same⟩ := h
      exact ⟨b, hb, later, hl, same.symm⟩

/-- The first item that is refused decides. -/
theorem mapM_eq_error_iff : items.mapM f = .error error ↔
    FirstBad (fun a => ∃ b, f a = .ok b) (fun _ a => f a = .error error) items := by
  induction items with
  | nil => simp [pure, Except.pure, not_firstBad_nil]
  | cons a rest ih =>
    rw [List.mapM_cons, firstBad_cons, ← ih]
    simp [Except.bind_eq_error, pure, Except.pure]

end Items

theorem RecordRef.zeroAsNull_eq {r : RecordRef} (h : r.target ≠ some ⟨0⟩) : r.zeroAsNull = r := by
  obtain ⟨label, target, strong⟩ := r
  cases target with
  | none => rfl
  | some id =>
    have other : id ≠ ⟨0⟩ := by simpa using h
    simp [zeroAsNull, Option.filter_some, other]

/-- An object that does not refer to the id zero is kept as it is. -/
theorem Record.zeroAsNull_object {shape : Shape} {o : ObjectRecord} (h : ∀ r ∈ o.references, r.target ≠ some ⟨0⟩) :
    (Record.object shape o).zeroAsNull = .object shape o := by
  have same : o.references.map RecordRef.zeroAsNull = o.references.map fun r => r := by
    apply List.map_congr_left
    intro r hr
    exact RecordRef.zeroAsNull_eq (h r hr)
  rw [Record.zeroAsNull, same, List.map_id']

namespace Wire

namespace ReferenceMessage

variable {m : ReferenceMessage} {r : RecordRef} {reason : MalformedReason}

/-- A reference bears a name or an index, but not both. -/
def Labelled (m : ReferenceMessage) : Prop := m.field.isSome ≠ m.index.isSome

/-- What is wrong with the label of a reference. -/
inductive Fault (m : ReferenceMessage) : MalformedReason → Prop where
  | unlabelled : m.field = none → m.index = none → Fault m .unlabelledReference
  | ambiguous {name : String} {index : UInt32} : m.field = some name → m.index = some index →
      Fault m .ambiguousReference

/-- The label that a reference bears; only names can be static. -/
inductive Bears (m : ReferenceMessage) : RefLabel → Prop where
  | field {name : String} : m.field = some name → m.index = none → m.isStatic = false → Bears m (.field name)
  | staticField {name : String} : m.field = some name → m.index = none → m.isStatic = true →
      Bears m (.staticField name)
  | element {index : UInt32} : m.field = none → m.index = some index → Bears m (.element index)

/-- The reference that a message says; the target zero is a null reference. -/
structure Says (m : ReferenceMessage) (r : RecordRef) : Prop where
  label : m.Bears r.label
  target : r.target = if m.target = 0 then none else some ⟨m.target⟩
  strong : r.strong = !m.isWeak

theorem toRef_eq_ok : m.toRef = .ok r ↔ m.Says r := by
  constructor
  · intro h
    unfold toRef at h
    split at h
    · rename_i name named unindexed
      obtain rfl := Except.ok.inj h
      refine ⟨?_, rfl, rfl⟩
      cases flag : m.isStatic with
      | false => exact .field named unindexed flag
      | true => exact .staticField named unindexed flag
    · rename_i index unnamed indexed
      obtain rfl := Except.ok.inj h
      exact ⟨.element unnamed indexed, rfl, rfl⟩
    · cases h
    · cases h
  · intro h
    obtain ⟨label, target, strong⟩ := r
    obtain ⟨bears, rfl, rfl⟩ := h
    cases bears <;> simp_all [toRef, ObjectRecord.targetOfRaw]

theorem toRef_eq_error : m.toRef = .error reason ↔ m.Fault reason := by
  constructor
  · intro h
    unfold toRef at h
    split at h <;> cases h
    · exact .unlabelled ‹_› ‹_›
    · exact .ambiguous ‹_› ‹_›
  · intro h
    cases h <;> simp_all [toRef]

theorem exists_toRef : (∃ r, m.toRef = .ok r) ↔ m.Labelled := by
  unfold Labelled toRef
  cases m.field <;> cases m.index <;> simp

theorem Says.labelled (h : m.Says r) : m.Labelled := exists_toRef.mp ⟨r, toRef_eq_ok.mpr h⟩

theorem Fault.not_labelled (h : m.Fault reason) : ¬ m.Labelled := by
  rw [← exists_toRef, toRef_eq_error.mpr h]
  simp

theorem Says.target_ne_zero (h : m.Says r) : r.target ≠ some ⟨0⟩ := by
  rw [h.target]
  split <;> simp_all

end ReferenceMessage

namespace RecordMessage

variable {m : RecordMessage} {r : Record} {reason : MalformedReason}

/-- Every field that counts in a message of its type has a value that it can have. -/
structure Sound (m : RecordMessage) : Prop where
  type : 0 ≤ m.recordType.toInt ∧ m.recordType.toInt ≤ 4
  rootKind : m.recordType = 0 → m.rootKind.toNat ≤ 13
  className : m.recordType = 1 → m.name.isSome = true
  references : m.recordType ≠ 0 → ∀ r ∈ m.references, r.Labelled

/-- The fault of a message. The type counts first, then the kind of a root or the name of a class, then
the references of an object from the first one on. -/
inductive Fault (m : RecordMessage) : MalformedReason → Prop where
  | type : ¬ (0 ≤ m.recordType.toInt ∧ m.recordType.toInt ≤ 4) → Fault m (.unknownRecordType m.recordType)
  | rootKind : m.recordType = 0 → 13 < m.rootKind.toNat → Fault m (.unknownRootKind m.rootKind)
  | className : m.recordType = 1 → m.name = none → Fault m .missingClassName
  | reference {reason : MalformedReason} : 1 ≤ m.recordType.toInt ∧ m.recordType.toInt ≤ 4 →
      (m.recordType = 1 → m.name ≠ none) →
      FirstBad ReferenceMessage.Labelled (fun _ r => r.Fault reason) m.references → Fault m reason

/-- The shape of the object that a message tells of; only classes have names. -/
inductive OfShape (m : RecordMessage) : Shape → Prop where
  | classObject {name : String} : m.recordType = 1 → m.name = some name → OfShape m (.classObject name)
  | instanceObject : m.recordType = 2 → OfShape m .instanceObject
  | objectArray : m.recordType = 3 → OfShape m .objectArray
  | primitiveArray : m.recordType = 4 → OfShape m .primitiveArray

/-- The record that a message says. -/
inductive Says (m : RecordMessage) : Record → Prop where
  | root {kind : RootKind} : m.recordType = 0 → m.rootKind.toNat = kind.code → Says m (.root ⟨m.id⟩ kind)
  | object {shape : Shape} {references : List RecordRef} : m.OfShape shape →
      List.Forall₂ ReferenceMessage.Says m.references references →
      Says m (.object shape ⟨⟨m.id⟩, m.classId.map ObjectId.mk, m.shallowSize, references⟩)

theorem toObject_eq_ok {o : ObjectRecord} : m.toObject = .ok o ↔ ∃ references,
    List.Forall₂ ReferenceMessage.Says m.references references ∧
      ⟨⟨m.id⟩, m.classId.map ObjectId.mk, m.shallowSize, references⟩ = o := by
  unfold toObject
  rw [Except.bind_eq_ok]
  simp only [mapM_eq_ok_iff, ReferenceMessage.toRef_eq_ok, pure, Except.pure, Except.ok.injEq]

theorem toObject_eq_error : m.toObject = .error reason ↔
    FirstBad ReferenceMessage.Labelled (fun _ r => r.Fault reason) m.references := by
  unfold toObject
  rw [Except.bind_eq_error]
  simp [mapM_eq_error_iff, ReferenceMessage.exists_toRef, ReferenceMessage.toRef_eq_error, pure, Except.pure]

/-- The references of a message are all labelled, or there is a first one that is not. -/
theorem exists_toObject : (∃ o, m.toObject = .ok o) ↔ ∀ r ∈ m.references, r.Labelled := by
  constructor
  · intro h
    obtain ⟨o, made⟩ := h
    obtain ⟨references, said, -⟩ := toObject_eq_ok.mp made
    intro r hr
    obtain ⟨made, one⟩ := exists_of_mem_left said hr
    exact one.labelled
  · intro labelled
    cases made : m.toObject with
    | ok o => exact ⟨o, rfl⟩
    | error reason =>
      obtain ⟨front, r, rest, split, -, fault⟩ := toObject_eq_error.mp made
      exact absurd (labelled r (by simp [split])) fault.not_labelled

/-- The objects are those of the types from one to four, with a name where they are classes. -/
theorem exists_ofShape : (∃ shape, m.OfShape shape) ↔
    (1 ≤ m.recordType.toInt ∧ m.recordType.toInt ≤ 4) ∧ (m.recordType = 1 → m.name ≠ none) := by
  constructor
  · intro h
    obtain ⟨shape, h⟩ := h
    cases h <;> simp_all
  · intro h
    have code : m.recordType.toInt = 1 ∨ m.recordType.toInt = 2 ∨ m.recordType.toInt = 3 ∨ m.recordType.toInt = 4 := by
      omega
    rcases code with h1 | h2 | h3 | h4
    · have type : m.recordType = 1 := Int32.toInt_inj.mp h1
      obtain ⟨name, named⟩ := Option.ne_none_iff_exists'.mp (h.2 type)
      exact ⟨_, .classObject type named⟩
    · exact ⟨_, .instanceObject (Int32.toInt_inj.mp h2)⟩
    · exact ⟨_, .objectArray (Int32.toInt_inj.mp h3)⟩
    · exact ⟨_, .primitiveArray (Int32.toInt_inj.mp h4)⟩

theorem ne_zero_of_ofShape {shape : Shape} (h : m.OfShape shape) : m.recordType ≠ 0 := by
  cases h <;> simp [*]

/-- Every message tells of a root, of a class without a name or of an object, or has no type. -/
theorem cases_type (m : RecordMessage) : m.recordType = 0 ∨ (m.recordType = 1 ∧ m.name = none) ∨
    (∃ shape, m.OfShape shape) ∨ ¬ (0 ≤ m.recordType.toInt ∧ m.recordType.toInt ≤ 4) := by
  by_cases typed : 0 ≤ m.recordType.toInt ∧ m.recordType.toInt ≤ 4
  · by_cases root : m.recordType = 0
    · exact .inl root
    · by_cases unnamed : m.recordType = 1 ∧ m.name = none
      · exact .inr (.inl unnamed)
      · have positive : m.recordType.toInt ≠ 0 := fun zero => root (Int32.toInt_inj.mp zero)
        refine .inr (.inr (.inl (exists_ofShape.mpr ⟨by omega, ?_⟩)))
        exact fun type none => unnamed ⟨type, none⟩
  · exact .inr (.inr (.inr typed))

theorem toRecord_root {kind : RootKind} (h : m.recordType = 0) (known : m.rootKind.toNat = kind.code) :
    m.toRecord = .ok (.root ⟨m.id⟩ kind) := by
  simp [toRecord, h, known, RootKind.ofCode?_code]

theorem toRecord_rootless (h : m.recordType = 0) (unknown : 13 < m.rootKind.toNat) :
    m.toRecord = .error (.unknownRootKind m.rootKind) := by
  have none : RootKind.ofCode? m.rootKind.toNat = none := List.getElem?_eq_none unknown
  simp [toRecord, h, none]

theorem toRecord_unnamed (h : m.recordType = 1) (unnamed : m.name = none) :
    m.toRecord = .error .missingClassName := by
  simp [toRecord, h, unnamed]

theorem toRecord_object {shape : Shape} (h : m.OfShape shape) : m.toRecord = m.toObject.map (.object shape) := by
  cases h <;> simp [toRecord, *]

theorem toRecord_untyped (h : ¬ (0 ≤ m.recordType.toInt ∧ m.recordType.toInt ≤ 4)) :
    m.toRecord = .error (.unknownRecordType m.recordType) := by
  have other : ∀ code : Int32, 0 ≤ code.toInt ∧ code.toInt ≤ 4 → m.recordType ≠ code := by
    intro code inside same
    exact h (same ▸ inside)
  unfold toRecord
  rw [if_neg (other 0 (by decide)), if_neg (other 1 (by decide)), if_neg (other 2 (by decide)),
    if_neg (other 3 (by decide)), if_neg (other 4 (by decide))]

/-- Each root code up to thirteen has its kind. -/
theorem exists_kind {code : Nat} (h : code ≤ 13) : ∃ kind : RootKind, code = kind.code := by
  have codes : ∀ code ≤ 13, ∃ kind ∈ RootKind.all, code = kind.code := by decide
  obtain ⟨kind, -, same⟩ := codes code h
  exact ⟨kind, same⟩

theorem Says.toRecord_eq (h : m.Says r) : m.toRecord = .ok r := by
  cases h with
  | root root code => exact toRecord_root root code
  | object ofShape said => rw [toRecord_object ofShape, toObject_eq_ok.mpr ⟨_, said, rfl⟩, Except.map]

theorem Fault.toRecord_eq (h : m.Fault reason) : m.toRecord = .error reason := by
  cases h with
  | type untyped => exact toRecord_untyped untyped
  | rootKind root unknown => exact toRecord_rootless root unknown
  | className type unnamed => exact toRecord_unnamed type unnamed
  | reference type named first =>
    obtain ⟨shape, ofShape⟩ := exists_ofShape.mpr ⟨type, named⟩
    rw [toRecord_object ofShape, toObject_eq_error.mpr first, Except.map]

/-- A message is sound and says a record, or it is not and has a fault. -/
theorem sound_or_fault (m : RecordMessage) :
    (m.Sound ∧ ∃ r, m.Says r) ∨ (¬ m.Sound ∧ ∃ reason, m.Fault reason) := by
  rcases m.cases_type with root | ⟨type, unnamed⟩ | ⟨shape, ofShape⟩ | untyped
  · by_cases known : m.rootKind.toNat ≤ 13
    · obtain ⟨kind, code⟩ := exists_kind known
      exact .inl ⟨⟨by simp [root], fun _ => known, by simp [root], absurd root⟩, _, .root root code⟩
    · exact .inr ⟨fun sound => known (sound.rootKind root), _, .rootKind root (Nat.lt_of_not_le known)⟩
  · exact .inr ⟨fun sound => by simpa [unnamed] using sound.className type, _, .className type unnamed⟩
  · obtain ⟨type, named⟩ := exists_ofShape.mp ⟨shape, ofShape⟩
    have other := ne_zero_of_ofShape ofShape
    cases made : m.toObject with
    | ok o =>
      obtain ⟨references, said, -⟩ := toObject_eq_ok.mp made
      refine .inl ⟨⟨by omega, fun root => absurd root other, ?_, ?_⟩, _, .object ofShape said⟩
      · exact fun type => Option.isSome_iff_ne_none.mpr (named type)
      · exact fun _ => exists_toObject.mp ⟨o, made⟩
    | error reason =>
      refine .inr ⟨fun sound => ?_, reason, .reference type named (toObject_eq_error.mp made)⟩
      obtain ⟨o, also⟩ := exists_toObject.mpr (sound.references other)
      rw [made] at also
      cases also
  · exact .inr ⟨fun sound => untyped sound.type, _, .type untyped⟩

/-- A message makes the record that it says. -/
theorem toRecord_eq_ok : m.toRecord = .ok r ↔ m.Says r := by
  refine ⟨fun h => ?_, Says.toRecord_eq⟩
  cases m.sound_or_fault with
  | inl sound =>
    obtain ⟨-, other, said⟩ := sound
    rw [said.toRecord_eq] at h
    exact Except.ok.inj h ▸ said
  | inr unsound =>
    obtain ⟨-, reason, fault⟩ := unsound
    rw [fault.toRecord_eq] at h
    cases h

/-- A message is refused for its fault. -/
theorem toRecord_eq_error : m.toRecord = .error reason ↔ m.Fault reason := by
  refine ⟨fun h => ?_, Fault.toRecord_eq⟩
  cases m.sound_or_fault with
  | inl sound =>
    obtain ⟨-, other, said⟩ := sound
    rw [said.toRecord_eq] at h
    cases h
  | inr unsound =>
    obtain ⟨-, other, fault⟩ := unsound
    rw [fault.toRecord_eq] at h
    exact Except.error.inj h ▸ fault

theorem exists_toRecord : (∃ r, m.toRecord = .ok r) ↔ m.Sound := by
  cases m.sound_or_fault with
  | inl sound =>
    obtain ⟨sound, r, said⟩ := sound
    exact iff_of_true ⟨r, said.toRecord_eq⟩ sound
  | inr unsound =>
    obtain ⟨unsound, reason, fault⟩ := unsound
    rw [fault.toRecord_eq]
    exact iff_of_false (by simp) unsound

theorem Says.sound (h : m.Says r) : m.Sound := exists_toRecord.mp ⟨r, h.toRecord_eq⟩

theorem Fault.not_sound (h : m.Fault reason) : ¬ m.Sound := by
  rw [← exists_toRecord, h.toRecord_eq]
  simp

/-- No record that a message says refers to the id zero. -/
theorem Says.target_ne_zero {shape : Shape} {o : ObjectRecord} (h : m.Says (.object shape o)) :
    ∀ r ∈ o.references, r.target ≠ some ⟨0⟩ := by
  cases h with
  | object _ said =>
    intro r hr
    obtain ⟨sent, one⟩ := exists_of_mem_right said hr
    exact one.target_ne_zero

theorem Says.zeroAsNull_eq (h : m.Says r) : r.zeroAsNull = r := by
  cases r with
  | root id kind => rfl
  | object shape o => exact Record.zeroAsNull_object h.target_ne_zero

end RecordMessage

namespace RecordStream

variable {position : Nat} {messages : List RecordMessage} {records : List Record} {e : MalformedRecord}

/-- What is told of a stream: the place, the id and the fault of its first message that is not sound. -/
def FirstFault (stream : RecordStream) (e : MalformedRecord) : Prop :=
  FirstBad RecordMessage.Sound (fun k m => e = ⟨k, ⟨m.id⟩, e.reason⟩ ∧ m.Fault e.reason) stream.records

/-- A run of messages makes the records that they say, one each and in their order. -/
theorem toRecordsFrom_eq_ok :
    toRecordsFrom position messages = .ok records ↔ List.Forall₂ RecordMessage.Says messages records := by
  induction messages generalizing position records with
  | nil => simp [toRecordsFrom, eq_comm]
  | cons m later ih =>
    rw [List.forall₂_cons_left_iff, toRecordsFrom]
    simp only [← RecordMessage.toRecord_eq_ok]
    cases m.toRecord with
    | error reason => simp
    | ok r =>
      simp only [Except.map_eq_ok, ih, Except.ok.injEq]
      constructor
      · intro h
        obtain ⟨others, said, rfl⟩ := h
        exact ⟨r, others, rfl, said, rfl⟩
      · intro h
        obtain ⟨_, others, rfl, said, rfl⟩ := h
        exact ⟨others, said, rfl⟩

/-- A run of messages is refused for the first of them that is not sound. -/
theorem toRecordsFrom_eq_error : toRecordsFrom position messages = .error e ↔ FirstBad RecordMessage.Sound
    (fun k m => e = ⟨position + k, ⟨m.id⟩, e.reason⟩ ∧ m.Fault e.reason) messages := by
  induction messages generalizing position with
  | nil => simp [toRecordsFrom, not_firstBad_nil]
  | cons m later ih =>
    rw [firstBad_cons, toRecordsFrom]
    simp only [Nat.add_zero, ← Nat.add_assoc, Nat.add_right_comm position _ 1, ← ih]
    simp only [← RecordMessage.toRecord_eq_error, ← RecordMessage.exists_toRecord]
    cases m.toRecord with
    | ok r => simp [Except.map_eq_error]
    | error reason =>
      simp only [Except.error.injEq]
      constructor
      · intro h
        subst h
        exact .inl ⟨rfl, rfl⟩
      · intro h
        obtain ⟨told, same⟩ := h.resolve_right (by simp)
        rw [same, ← told]

theorem toRecords_eq_ok {stream : RecordStream} :
    stream.toRecords = .ok records ↔ List.Forall₂ RecordMessage.Says stream.records records :=
  toRecordsFrom_eq_ok

theorem toRecords_eq_error {stream : RecordStream} : stream.toRecords = .error e ↔ stream.FirstFault e := by
  unfold toRecords FirstFault
  rw [toRecordsFrom_eq_error]
  simp only [Nat.zero_add]

/-- Every stream has its records or a first fault. -/
theorem exists_toRecords {stream : RecordStream} :
    (∃ records, stream.toRecords = .ok records) ↔ ∀ m ∈ stream.records, m.Sound := by
  constructor
  · intro h
    obtain ⟨records, made⟩ := h
    intro m hm
    obtain ⟨r, said⟩ := exists_of_mem_left (toRecords_eq_ok.mp made) hm
    exact said.sound
  · intro sound
    cases made : stream.toRecords with
    | ok records => exact ⟨records, rfl⟩
    | error e =>
      obtain ⟨front, m, rest, split, -, -, fault⟩ := toRecords_eq_error.mp made
      exact absurd (sound m (by simp [split])) fault.not_sound

/-- Records that were said by messages are sent once more without a change. -/
theorem toRecords_ofRecords_said (said : List.Forall₂ RecordMessage.Says messages records) :
    (ofRecords records).toRecords = .ok records := by
  have same : records.map Record.zeroAsNull = records.map fun r => r := by
    apply List.map_congr_left
    intro r hr
    obtain ⟨m, one⟩ := exists_of_mem_right said hr
    exact one.zeroAsNull_eq
  rw [toRecords_ofRecords, same, List.map_id']

/-- A stream makes records exactly if all of its messages are sound, and it is refused for the first one
that is not, with its place, its id and its first fault. The records are those that the messages say, in
their order, without the id zero as a target, and they are the same when they are sent once more. -/
theorem records_or_firstFault (stream : RecordStream) :
    ((∃ records, stream.toRecords = .ok records) ↔ ∀ m ∈ stream.records, m.Sound) ∧
    (∀ e, stream.toRecords = .error e ↔ stream.FirstFault e) ∧
    ∀ records, stream.toRecords = .ok records →
      List.Forall₂ RecordMessage.Says stream.records records ∧
      (∀ shape o, .object shape o ∈ records → ∀ r ∈ o.references, r.target ≠ some ⟨0⟩) ∧
      (ofRecords records).toRecords = .ok records := by
  refine ⟨exists_toRecords, fun e => toRecords_eq_error, ?_⟩
  intro records made
  have said := toRecords_eq_ok.mp made
  refine ⟨said, ?_, toRecords_ofRecords_said said⟩
  intro shape o ho
  obtain ⟨m, one⟩ := exists_of_mem_right said ho
  exact one.target_ne_zero

/-- Messages with fields that make no difference: a name, a bad reference and a class on a root, a kind
of root and a static mark at an index on an array, a name on an instance, and targets of zero. -/
def carefree : RecordStream where
  records :=
    [⟨0, 5, some 9, 8, [⟨none, none, true, 0, true⟩], some "root", 13⟩,
     ⟨3, 5, none, 16, [⟨none, some 4294967295, true, 5, false⟩, ⟨none, some 0, false, 0, true⟩], none, 77⟩,
     ⟨2, 0, some 5, 0, [⟨some "next", none, true, 0, false⟩], some "named", 14⟩]

/-- A sound root, and then a class without a name that also has a bad reference. -/
def nameless : RecordStream where
  records :=
    [⟨0, 5, none, 0, [⟨none, none, false, 0, false⟩], none, 0⟩,
     ⟨1, 6, none, 0, [⟨some "next", some 1, false, 0, false⟩], none, 99⟩,
     ⟨-1, 7, none, 0, [], none, 0⟩]

theorem records_or_firstFault_carefree :
    (∀ m ∈ carefree.records, m.Sound) ∧
    (ofRecords [.root ⟨5⟩ .unknown,
      .object .objectArray ⟨⟨5⟩, none, 16, [⟨.element 4294967295, some ⟨5⟩, true⟩, ⟨.element 0, none, false⟩]⟩,
      .object .instanceObject ⟨⟨0⟩, some ⟨5⟩, 0, [⟨.staticField "next", none, true⟩]⟩]).toRecords =
        carefree.toRecords ∧
    nameless.FirstFault ⟨1, ⟨6⟩, .missingClassName⟩ := by
  have read : carefree.toRecords = .ok [.root ⟨5⟩ .unknown,
      .object .objectArray ⟨⟨5⟩, none, 16, [⟨.element 4294967295, some ⟨5⟩, true⟩, ⟨.element 0, none, false⟩]⟩,
      .object .instanceObject ⟨⟨0⟩, some ⟨5⟩, 0, [⟨.staticField "next", none, true⟩]⟩] := by decide +kernel
  have refused : nameless.toRecords = .error ⟨1, ⟨6⟩, .missingClassName⟩ := by decide +kernel
  obtain ⟨sound, -, again⟩ := records_or_firstFault carefree
  obtain ⟨-, first, -⟩ := records_or_firstFault nameless
  exact ⟨sound.mp ⟨_, read⟩, (again _ read).2.2.trans read.symm, (first _).mp refused⟩

end RecordStream

end Wire

end Retention
