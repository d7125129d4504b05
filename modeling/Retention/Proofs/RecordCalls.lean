import Retention.Proofs.MessageFaults
import Retention.Proofs.RefusedPushes

namespace Retention

/-- The calls by which a record of each shape is put together; the class of an object can be told of
every shape. -/
def Shape.admits : Shape → RecordCall → Bool
  | _, .withClass _ => true
  | .objectArray, .element _ => true
  | .instanceObject, .field _ _ => true
  | .instanceObject, .weakField _ _ => true
  | .classObject _, .field _ _ => true
  | .classObject _, .weakField _ _ => true
  | .classObject _, .staticField _ _ => true
  | _, _ => false

/-- The reference that a call adds to a record with so many references. -/
def RecordCall.reference? (position : Nat) : RecordCall → Option RecordRef
  | .withClass _ => none
  | .field name target => some ⟨.field name, ObjectRecord.targetOfRaw target, true⟩
  | .weakField name target => some ⟨.field name, ObjectRecord.targetOfRaw target, false⟩
  | .staticField name target => some ⟨.staticField name, ObjectRecord.targetOfRaw target, true⟩
  | .element target => some ⟨.element (UInt32.ofNat position), ObjectRecord.targetOfRaw target, true⟩

/-- A call is admitted where the reference that it adds is allowed. -/
theorem Shape.admits_iff {shape : Shape} {call : RecordCall} {position : Nat} (inside : position < UInt32.size) :
    shape.admits call = true ↔ ∀ r ∈ call.reference? position, shape.Allows position r.label := by
  have index : (UInt32.ofNat position).toNat = position := UInt32.toNat_ofNat_of_lt' inside
  cases shape <;> cases call <;> simp [admits, RecordCall.reference?, Allows, index]

theorem RecordCall.target_ne_zero {call : RecordCall} {position : Nat} {r : RecordRef}
    (h : r ∈ call.reference? position) : r.target ≠ some ⟨0⟩ := by
  have raw : ∀ target, ObjectRecord.targetOfRaw target ≠ some ⟨0⟩ := by
    intro target
    by_cases zero : target = 0 <;> simp [ObjectRecord.targetOfRaw, zero]
  cases call <;> cases h <;> exact raw _

theorem Shape.laidOut_append {shape : Shape} {references : List RecordRef} {last : Option RecordRef} :
    shape.LaidOut (references ++ last.toList) ↔
      shape.LaidOut references ∧ ∀ r ∈ last, shape.Allows references.length r.label := by
  constructor
  · intro h
    constructor
    · intro k r hr
      apply h k r
      rw [List.getElem?_append_left (List.getElem?_eq_some_iff.mp hr).1]
      exact hr
    · intro r hr
      apply h references.length r
      rw [List.getElem?_append_right (Nat.le_refl _), Nat.sub_self, Option.mem_def.mp hr]
      rfl
  · intro h k r hr
    by_cases before : k < references.length
    · rw [List.getElem?_append_left before] at hr
      exact h.1 k r hr
    · rw [List.getElem?_append_right (Nat.le_of_not_lt before)] at hr
      cases last with
      | none => simp at hr
      | some s =>
        obtain ⟨same, rfl⟩ : k - references.length = 0 ∧ s = r := by
          simpa [List.getElem?_singleton] using hr
        have place : k = references.length := by omega
        exact place ▸ h.2 s rfl

namespace ObjectRecord

variable {o : ObjectRecord} {shape : Shape} {call : RecordCall} {calls : List RecordCall}

theorem references_apply (o : ObjectRecord) (call : RecordCall) :
    (o.apply call).references = o.references ++ (call.reference? o.references.length).toList := by
  cases call <;> simp [apply, withClass, field, weakField, staticField, element, addReference, RecordCall.reference?]

theorem length_apply_le (o : ObjectRecord) (call : RecordCall) :
    (o.apply call).references.length ≤ o.references.length + 1 := by
  rw [references_apply, List.length_append]
  cases call.reference? o.references.length <;> simp

/-- One more call keeps a record in its shape exactly when the shape admits it. -/
theorem laidOut_apply (room : o.references.length < UInt32.size) :
    shape.LaidOut (o.apply call).references ↔ shape.LaidOut o.references ∧ shape.admits call = true := by
  rw [references_apply, Shape.laidOut_append, Shape.admits_iff room]

theorem laidOut_applyAll (room : o.references.length + calls.length ≤ UInt32.size) :
    shape.LaidOut (o.applyAll calls).references ↔
      shape.LaidOut o.references ∧ ∀ call ∈ calls, shape.admits call = true := by
  induction calls generalizing o with
  | nil => simp [applyAll]
  | cons call later ih =>
    have grows := o.length_apply_le call
    rw [List.length_cons] at room
    have rest := ih (o := o.apply call) (by omega)
    rw [laidOut_apply (by omega)] at rest
    simp only [applyAll, List.foldl_cons, List.forall_mem_cons] at rest ⊢
    rw [rest, and_assoc]

theorem target_ne_zero_applyAll (h : ∀ r ∈ o.references, r.target ≠ some ⟨0⟩) :
    ∀ r ∈ (o.applyAll calls).references, r.target ≠ some ⟨0⟩ := by
  induction calls generalizing o with
  | nil => exact h
  | cons call later ih =>
    apply @ih (o.apply call)
    intro r hr
    rw [references_apply, List.mem_append, Option.mem_toList] at hr
    cases hr with
    | inl old => exact h r old
    | inr new => exact RecordCall.target_ne_zero new

end ObjectRecord

namespace HeapGraphBuilder

/-- Where there are no other records, the layout alone decides. -/
theorem push_new_eq_ok {shape : Shape} {o : ObjectRecord} :
    (new.push (.object shape o)).2 = .ok () ↔ shape.LaidOut o.references := by
  have fresh : new.drafts.index.contains o.id = false := by simp [new, Drafts.empty]
  rw [← Shape.exists_place]
  cases placed : shape.place o.references with
  | ok references =>
    have inspected : new.drafts.inspect (.object shape o) = .ok (.draft ⟨shape, { o with references }⟩) := by
      simp [Drafts.inspect, fresh, placed, Except.map]
    simp [push_of_inspect inspected]
  | error reason =>
    have refused : new.drafts.inspect (.object shape o) = .error reason := by
      simp [Drafts.inspect, fresh, placed, Except.map]
    simp [push_of_refused refused]

/-- A record that was put together by calls is accepted in the shapes that admit all of them. Whatever
its shape, no reference of it names the id zero, so it is the same when it has been sent. -/
theorem push_called (id shallowSize : UInt64) {calls : List RecordCall} (few : calls.length < UInt32.size)
    (shape : Shape) :
    ((new.push (.object shape ((ObjectRecord.new id shallowSize).applyAll calls))).2 = .ok () ↔
      ∀ call ∈ calls, shape.admits call = true) ∧
    (∀ r ∈ ((ObjectRecord.new id shallowSize).applyAll calls).references, r.target ≠ some ⟨0⟩) ∧
    (Wire.RecordStream.ofRecords [.object shape ((ObjectRecord.new id shallowSize).applyAll calls)]).toRecords =
      .ok [.object shape ((ObjectRecord.new id shallowSize).applyAll calls)] := by
  have blank : (ObjectRecord.new id shallowSize).references = [] := rfl
  have named : ∀ r ∈ ((ObjectRecord.new id shallowSize).applyAll calls).references, r.target ≠ some ⟨0⟩ :=
    ObjectRecord.target_ne_zero_applyAll (by simp [blank])
  refine ⟨?_, named, ?_⟩
  · rw [push_new_eq_ok, ObjectRecord.laidOut_applyAll (by rw [blank, List.length_nil]; omega), blank]
    simp [Shape.LaidOut]
  · rw [Wire.RecordStream.toRecords_ofRecords, List.map_singleton, Record.zeroAsNull_object named]

/-- The calls for an array of three elements, of which the first and the last are null. -/
def elementCalls : List RecordCall := [.element 0, .withClass 7, .element 5, .element 0]

/-- The calls for an object that has statics and a weak field. -/
def staticCalls : List RecordCall := [.field "next" 5, .staticField "shared" 0, .weakField "referent" 6]

theorem push_called_elementCalls :
    elementCalls.length < UInt32.size ∧ staticCalls.length < UInt32.size ∧
    (new.push (.object .objectArray ((ObjectRecord.new 1 24).applyAll elementCalls))).2 = .ok () ∧
    (new.push (.object .instanceObject ((ObjectRecord.new 1 24).applyAll elementCalls))).2 ≠ .ok () ∧
    (new.push (.object (.classObject "Cell") ((ObjectRecord.new 2 16).applyAll staticCalls))).2 = .ok () ∧
    (new.push (.object .instanceObject ((ObjectRecord.new 2 16).applyAll staticCalls))).2 ≠ .ok () ∧
    (Wire.RecordStream.ofRecords [.object .objectArray ((ObjectRecord.new 1 24).applyAll elementCalls)]).toRecords =
      .ok [.object .objectArray ((ObjectRecord.new 1 24).applyAll elementCalls)] := by
  have elements : elementCalls.length < UInt32.size := by decide
  have statics : staticCalls.length < UInt32.size := by decide
  refine ⟨elements, statics, ?_, ?_, ?_, ?_, (push_called 1 24 elements .objectArray).2.2⟩
  · exact (push_called 1 24 elements .objectArray).1.mpr (by decide)
  · exact (push_called 1 24 elements .instanceObject).1.not.mpr (by decide)
  · exact (push_called 2 16 statics (.classObject "Cell")).1.mpr (by decide)
  · exact (push_called 2 16 statics .instanceObject).1.not.mpr (by decide)

end HeapGraphBuilder

end Retention
