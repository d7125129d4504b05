import Retention.Proofs.AcceptedRecords

namespace Retention

namespace Shape

/-- The labels that a reference at this position bears in an object of each shape: primitive arrays have
no references, and the elements of an object array are numbered from zero. -/
def Allows (position : Nat) : Shape → RefLabel → Prop
  | .primitiveArray, _ => False
  | .objectArray, label => ∃ index, label = .element index ∧ index.toNat = position
  | .instanceObject, label => ∃ name, label = .field name
  | .classObject _, label => ∃ name, label = .field name ∨ label = .staticField name

/-- All references bear labels that are allowed where they stand. -/
def LaidOut (shape : Shape) (references : List RecordRef) : Prop :=
  ∀ (k : Nat) r, references[k]? = some r → shape.Allows k r.label

/-- What is wrong with a label at this position in an object of `count` references. -/
inductive Offends (count position : Nat) : Shape → RefLabel → MalformedReason → Prop where
  | onPrimitiveArray (label : RefLabel) :
      Offends count position .primitiveArray label (.referencesOnPrimitiveArray count)
  | outOfOrder {index : UInt32} : index.toNat ≠ position →
      Offends count position .objectArray (.element index) (.indexOutOfOrder (UInt32.ofNat position) index)
  | fieldOnArray (name : String) : Offends count position .objectArray (.field name) (.fieldOnArray name)
  | staticOnArray (name : String) : Offends count position .objectArray (.staticField name) (.fieldOnArray name)
  | staticOnInstance (name : String) :
      Offends count position .instanceObject (.staticField name) (.staticOnInstance name)
  | indexOnInstance (index : UInt32) :
      Offends count position .instanceObject (.element index) (.indexOnNonArray index)
  | indexOnClass (name : String) (index : UInt32) :
      Offends count position (.classObject name) (.element index) (.indexOnNonArray index)

/-- The reason is that of the first of the references that offends; they stand from `position` on. -/
def FirstOffence (shape : Shape) (count position : Nat) (references : List RecordRef) (reason : MalformedReason) :
    Prop :=
  ∃ (k : Nat) (r : RecordRef), references[k]? = some r ∧ Offends count (position + k) shape r.label reason ∧
    ∀ j < k, ∀ s, references[j]? = some s → ∀ other, ¬ Offends count (position + j) shape s.label other

variable {shape : Shape} {count position : Nat} {label : RefLabel} {references : List RecordRef}
  {reason : MalformedReason}

theorem placeLabel_eq_error :
    shape.placeLabel count position label = .error reason ↔ Offends count position shape label reason := by
  constructor
  · intro h
    cases shape <;> cases label <;> simp only [placeLabel] at h <;> grind [Offends]
  · intro h
    cases h <;> simp [placeLabel, *]

/-- A label is placed where it is allowed. -/
theorem exists_placeLabel (count : Nat) :
    (∃ placed, shape.placeLabel count position label = .ok placed) ↔ Allows position shape label := by
  cases shape <;> cases label <;> simp [placeLabel, Allows]
  split <;> simp [*]

/-- A label is allowed where nothing is wrong with it. -/
theorem allows_iff_not_offends (count : Nat) :
    Allows position shape label ↔ ∀ reason, ¬ Offends count position shape label reason := by
  rw [← exists_placeLabel count]
  simp only [← placeLabel_eq_error]
  cases shape.placeLabel count position label <;> simp

theorem not_firstOffence_nil : ¬ shape.FirstOffence count position [] reason := by
  simp [FirstOffence]

/-- The first offence is that of the first reference, or else the first one after it. -/
theorem firstOffence_cons {r : RecordRef} : shape.FirstOffence count position (r :: references) reason ↔
    Offends count position shape r.label reason ∨
      (∀ other, ¬ Offends count position shape r.label other) ∧
        shape.FirstOffence count (position + 1) references reason := by
  constructor
  · intro h
    obtain ⟨k, s, hs, offends, first⟩ := h
    cases k with
    | zero =>
      obtain rfl : r = s := by simpa using hs
      exact .inl offends
    | succ k =>
      refine .inr ⟨first 0 (Nat.succ_pos k) r rfl, k, s, by simpa using hs, ?_, ?_⟩
      · rwa [Nat.add_right_comm]
      · intro j hj s hs
        rw [Nat.add_right_comm]
        exact first (j + 1) (Nat.succ_lt_succ hj) s (by simpa using hs)
  · intro h
    cases h with
    | inl here => exact ⟨0, r, rfl, here, fun j hj => absurd hj (Nat.not_lt_zero j)⟩
    | inr later =>
      obtain ⟨fine, k, s, hs, offends, first⟩ := later
      refine ⟨k + 1, s, by simpa using hs, ?_, ?_⟩
      · rwa [Nat.add_right_comm] at offends
      · intro j hj s hs
        cases j with
        | zero =>
          obtain rfl : r = s := by simpa using hs
          exact fine
        | succ j =>
          have later := first j (Nat.lt_of_succ_lt_succ hj) s (by simpa using hs)
          rwa [Nat.add_right_comm] at later

/-- Placing references fails for the first offence. -/
theorem placeFrom_eq_error :
    shape.placeFrom count position references = .error reason ↔ shape.FirstOffence count position references reason := by
  induction references generalizing position with
  | nil => simp [placeFrom, not_firstOffence_nil]
  | cons r rest ih =>
    rw [firstOffence_cons, placeFrom, Except.bind_eq_error, placeLabel_eq_error, ← allows_iff_not_offends,
      ← exists_placeLabel count, ← ih, ← exists_and_right]
    apply or_congr_right
    apply exists_congr
    intro label
    apply and_congr_right
    intro _
    rw [Except.bind_eq_error]
    simp [pure, Except.pure]

/-- References are placed exactly when all of them bear labels that are allowed. -/
theorem exists_placeFrom : (∃ placed, shape.placeFrom count position references = .ok placed) ↔
    ∀ (k : Nat) r, references[k]? = some r → shape.Allows (position + k) r.label := by
  constructor
  · intro h k r hr
    induction references generalizing position k with
    | nil => simp at hr
    | cons first rest ih =>
      obtain ⟨placed, h⟩ := h
      obtain ⟨label, here, later⟩ := Except.bind_eq_ok.mp h
      obtain ⟨others, later, -⟩ := Except.bind_eq_ok.mp later
      cases k with
      | zero =>
        obtain rfl : first = r := by simpa using hr
        exact (exists_placeLabel count).mp ⟨label, here⟩
      | succ k =>
        have allowed := ih ⟨others, later⟩ k (by simpa using hr)
        rwa [Nat.add_right_comm] at allowed
  · intro h
    cases hp : shape.placeFrom count position references with
    | ok placed => exact ⟨placed, rfl⟩
    | error reason =>
      obtain ⟨k, r, hr, offends, -⟩ := placeFrom_eq_error.mp hp
      exact absurd offends ((allows_iff_not_offends count).mp (h k r hr) reason)

theorem exists_place : (∃ placed, shape.place references = .ok placed) ↔ shape.LaidOut references := by
  simp only [place, exists_placeFrom, LaidOut, Nat.zero_add]

theorem LaidOut.not_firstOffence (h : shape.LaidOut references) :
    ¬ shape.FirstOffence references.length 0 references reason := by
  obtain ⟨placed, hp⟩ := exists_place.mpr h
  rw [← placeFrom_eq_error, ← place, hp]
  simp

end Shape

namespace Record

/-- An object record has a legal layout. -/
def LaidOut : Record → Prop
  | .root _ _ => True
  | .object shape entry => shape.LaidOut entry.references

theorem legal_iff_laidOut {record : Record} : record.Legal ↔ record.LaidOut := by
  cases record with
  | root id kind => exact Iff.rfl
  | object shape entry => exact Shape.exists_place

/-- What is wrong with an object record that comes after `earlier` ones. A repeated id counts before a
bad layout. -/
inductive Fault (earlier : List Record) : Record → MalformedReason → Prop where
  | repeated {shape : Shape} {entry : ObjectRecord} : entry.id ∈ earlier.filterMap defined? →
      Fault earlier (.object shape entry) .duplicateId
  | misplaced {shape : Shape} {entry : ObjectRecord} {reason : MalformedReason} :
      entry.id ∉ earlier.filterMap defined? →
      shape.FirstOffence entry.references.length 0 entry.references reason →
      Fault earlier (.object shape entry) reason

/-- A record has at most one fault. -/
theorem Fault.unique {earlier : List Record} {record : Record} {reason other : MalformedReason}
    (h : record.Fault earlier reason) (k : record.Fault earlier other) : reason = other := by
  cases h with
  | repeated old =>
    cases k with
    | repeated _ => rfl
    | misplaced new _ => exact absurd old new
  | misplaced new offence =>
    cases k with
    | repeated old => exact absurd old new
    | misplaced _ also =>
      rw [← Shape.placeFrom_eq_error] at offence also
      exact Except.error.inj (offence.symm.trans also)

end Record

/-- The first record of a stream that has a fault, and the fault it has. -/
structure FirstFault (records : List Record) (m : MalformedRecord) : Prop where
  fault : ∃ record, records[m.position]? = some record ∧ m.id = record.id ∧
    record.Fault (records.take m.position) m.reason
  first : ∀ p < m.position, ∀ record, records[p]? = some record → ∀ reason, ¬ record.Fault (records.take p) reason

namespace HeapGraphBuilder

variable {records : List Record} {record : Record} {b : HeapGraphBuilder} {reason : MalformedReason}

/-- A record is refused for its fault. -/
theorem Taken.inspect_eq_error (h : Taken records b) :
    b.drafts.inspect record = .error reason ↔ record.Fault records reason := by
  cases record with
  | root id kind =>
    constructor
    · intro refused
      cases refused
    · intro fault
      cases fault
  | object shape entry =>
    cases known : b.drafts.index.contains entry.id with
    | true =>
      have repeats := h.contains_iff.mp known
      simp only [Drafts.inspect, known, if_true]
      constructor
      · intro refused
        obtain rfl := Except.error.inj refused
        exact .repeated repeats
      · intro fault
        cases fault with
        | repeated _ => rfl
        | misplaced new _ => exact absurd repeats new
    | false =>
      have new : entry.id ∉ records.filterMap Record.defined? := by
        rw [← h.contains_iff, known]
        simp
      have refused : b.drafts.inspect (.object shape entry) = .error reason ↔
          shape.place entry.references = .error reason := by
        cases hp : shape.place entry.references <;> simp [Drafts.inspect, known, hp, Except.map]
      rw [refused, Shape.place, Shape.placeFrom_eq_error]
      constructor
      · exact .misplaced new
      · intro fault
        cases fault with
        | repeated old => exact absurd old new
        | misplaced _ offence => exact offence

theorem taken_of_records (h : records.foldlM take new = .ok b) : Taken records b := by
  cases foldlM_take records with
  | inl done =>
    obtain ⟨other, also, taken⟩ := done
    exact Except.ok.inj (also.symm.trans h) ▸ taken
  | inr failed =>
    obtain ⟨⟨refused, also⟩, -⟩ := failed
    rw [h] at also
    cases also

end HeapGraphBuilder

/-- No record of an acceptable stream has a fault. -/
theorem Acceptable.not_fault {records : List Record} (h : Acceptable records) {p : Nat} {record : Record}
    (there : records[p]? = some record) (reason : MalformedReason) : ¬ record.Fault (records.take p) reason := by
  have split : records = records.take p ++ record :: records.drop (p + 1) := by
    obtain ⟨inside, rfl⟩ := List.getElem?_eq_some_iff.mp there
    simp
  intro fault
  cases fault with
  | @repeated shape entry old =>
    have distinct := h.distinct
    rw [split, List.filterMap_append, List.filterMap_cons_some (rfl : Record.defined? (.object shape entry) = _),
      List.nodup_append] at distinct
    exact distinct.2.2 entry.id old entry.id List.mem_cons_self rfl
  | @misplaced shape entry reason _ offence =>
    have laidOut := Record.legal_iff_laidOut.mp (h.legal _ (List.mem_of_getElem? there))
    exact Shape.LaidOut.not_firstOffence laidOut offence

namespace FirstFault

variable {records : List Record} {m n : MalformedRecord}

theorem not_acceptable (h : FirstFault records m) : ¬ Acceptable records := by
  obtain ⟨record, there, -, fault⟩ := h.fault
  exact fun acceptable => acceptable.not_fault there m.reason fault

theorem position_le (h : FirstFault records m) (k : FirstFault records n) : n.position ≤ m.position := by
  obtain ⟨record, there, -, fault⟩ := h.fault
  by_contra later
  exact k.first m.position (Nat.lt_of_not_le later) record there m.reason fault

theorem unique (h : FirstFault records m) (k : FirstFault records n) : m = n := by
  have position : m.position = n.position := Nat.le_antisymm (k.position_le h) (h.position_le k)
  obtain ⟨record, there, named, fault⟩ := h.fault
  obtain ⟨other, also, called, same⟩ := k.fault
  rw [position] at there fault
  obtain rfl : record = other := Option.some.inj (there.symm.trans also)
  have reason := fault.unique same
  cases m
  cases n
  simp_all

end FirstFault

namespace HeapGraphBuilder

variable {records : List Record} {m : MalformedRecord}

/-- A stream that is refused is refused for its first fault. -/
theorem firstFault_of_refused (h : records.foldlM take new = .error (.malformed m)) : FirstFault records m := by
  obtain ⟨front, record, rest, b, refused, rfl, before, failed, same, position⟩ := exists_refused h
  obtain rfl := LoadError.malformed.inj same
  have taken := taken_of_records before
  have there : (front ++ record :: rest)[front.length]? = some record := by simp
  cases inspected : b.drafts.inspect record with
  | ok entry =>
    rw [take_of_inspect inspected] at failed
    cases failed
  | error reason =>
    rw [take_of_refused inspected] at failed
    obtain rfl := LoadError.malformed.inj (Except.error.inj failed)
    dsimp only at position
    refine ⟨⟨record, ?_, rfl, ?_⟩, ?_⟩
    · rw [position]
      exact there
    · dsimp only
      rw [position, List.take_left]
      exact taken.inspect_eq_error.mp inspected
    · intro p hp other at_p why
      dsimp only at hp
      rw [position] at hp
      rw [List.getElem?_append_left hp] at at_p
      rw [List.take_append_of_le_length (Nat.le_of_lt hp)]
      exact taken.acceptable.not_fault at_p why

end HeapGraphBuilder

namespace HeapGraph

/-- A stream is built exactly when its object records define different ids and are all laid out as
their shapes demand, and refused for its first fault otherwise. -/
theorem build_refuses_first_fault (expected : Nat) (records : List Record) :
    ((∃ g, (build expected records).outcome.1 = .ok g) ↔
      (records.filterMap Record.defined?).Nodup ∧ ∀ record ∈ records, record.LaidOut) ∧
    ∀ error, (build expected records).outcome.1 = .error error ↔
      ∃ m, error = .malformed m ∧ FirstFault records m := by
  rw [(build_returns expected records).outcome_eq]
  simp only [← Record.legal_iff_laidOut]
  cases hf : records.foldlM HeapGraphBuilder.take .new with
  | ok b =>
    have acceptable := (HeapGraphBuilder.taken_of_records hf).acceptable
    refine ⟨⟨fun _ => ⟨acceptable.distinct, acceptable.legal⟩, fun _ => ⟨_, rfl⟩⟩, ?_⟩
    intro error
    constructor
    · intro refused
      cases refused
    · intro first
      obtain ⟨m, -, fault⟩ := first
      exact absurd acceptable fault.not_acceptable
  | error why =>
    obtain ⟨front, record, rest, b, m, -, -, -, rfl, -⟩ := HeapGraphBuilder.exists_refused hf
    have fault := HeapGraphBuilder.firstFault_of_refused hf
    refine ⟨⟨?_, fun fine => absurd ⟨fine.2, fine.1⟩ fault.not_acceptable⟩, ?_⟩
    · intro built
      obtain ⟨g, built⟩ := built
      cases built
    · intro error
      constructor
      · intro refused
        exact ⟨m, (Except.error.inj refused).symm, fault⟩
      · intro first
        obtain ⟨n, rfl, also⟩ := first
        rw [fault.unique also]
        rfl

/-- An instance whose second and third references are out of place, between two objects of one id. -/
def misplacedStatics : List Record :=
  [.root ⟨2⟩ .thread,
    .object .objectArray ⟨⟨1⟩, none, 24, [⟨.element 0, some ⟨2⟩, true⟩, ⟨.element 1, none, true⟩]⟩,
    .object .instanceObject ⟨⟨2⟩, none, 16,
      [⟨.field "fine", some ⟨1⟩, true⟩, ⟨.staticField "shared", none, true⟩, ⟨.element 2, none, true⟩]⟩,
    .object .primitiveArray ⟨⟨1⟩, none, 8, []⟩]

theorem build_refuses_first_fault_misplacedStatics :
    (build 4 misplacedStatics).outcome.1 = .error (.malformed ⟨2, ⟨2⟩, .staticOnInstance "shared"⟩) ∧
      FirstFault misplacedStatics ⟨2, ⟨2⟩, .staticOnInstance "shared"⟩ := by
  refine ⟨rfl, ?_⟩
  obtain ⟨m, same, first⟩ := ((build_refuses_first_fault 4 misplacedStatics).2 _).mp rfl
  exact LoadError.malformed.inj same ▸ first

end HeapGraph

end Retention
