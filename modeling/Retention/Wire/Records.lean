import Retention.Record.Layout
import Retention.Wire.Message

namespace Retention.Wire

namespace ReferenceMessage

def toRef (m : ReferenceMessage) : Except MalformedReason RecordRef :=
  let reference := fun label => RecordRef.mk label (ObjectRecord.targetOfRaw m.target) (!m.isWeak)
  match m.field, m.index with
  | some name, none => .ok (reference (if m.isStatic then .staticField name else .field name))
  | none, some index => .ok (reference (.element index))
  | none, none => .error .unlabelledReference
  | some _, some _ => .error .ambiguousReference

def ofRef (r : RecordRef) : ReferenceMessage :=
  let target := r.target.elim 0 ObjectId.value
  match r.label with
  | .field name => ⟨some name, none, false, target, !r.strong⟩
  | .staticField name => ⟨some name, none, true, target, !r.strong⟩
  | .element index => ⟨none, some index, false, target, !r.strong⟩

end ReferenceMessage

namespace RecordMessage

def toObject (m : RecordMessage) : Except MalformedReason ObjectRecord := do
  let references ← m.references.mapM ReferenceMessage.toRef
  pure ⟨⟨m.id⟩, m.classId.map ObjectId.mk, m.shallowSize, references⟩

/-- The type is checked first, then the root kind or the class name, then the references. -/
def toRecord (m : RecordMessage) : Except MalformedReason Record :=
  if m.recordType = 0 then
    match RootKind.ofCode? m.rootKind.toNat with
    | some kind => .ok (.root ⟨m.id⟩ kind)
    | none => .error (.unknownRootKind m.rootKind)
  else if m.recordType = 1 then
    match m.name with
    | some name => m.toObject.map (.object (.classObject name))
    | none => .error .missingClassName
  else if m.recordType = 2 then m.toObject.map (.object .instanceObject)
  else if m.recordType = 3 then m.toObject.map (.object .objectArray)
  else if m.recordType = 4 then m.toObject.map (.object .primitiveArray)
  else .error (.unknownRecordType m.recordType)

def typeOf : Shape → Int32
  | .classObject _ => 1
  | .instanceObject => 2
  | .objectArray => 3
  | .primitiveArray => 4

def ofRecord : Record → RecordMessage
  | .root id kind => { blank with id := id.value, rootKind := UInt32.ofNat kind.code }
  | .object shape o =>
    { recordType := typeOf shape
      id := o.id.value
      classId := o.classId.map ObjectId.value
      shallowSize := o.shallowSize
      references := o.references.map ReferenceMessage.ofRef
      name := shape.className?
      rootKind := 0 }

end RecordMessage

namespace RecordStream

/-- Checks the messages from `position` on; the first bad one decides. -/
def toRecordsFrom : Nat → List RecordMessage → Except MalformedRecord (List Record)
  | _, [] => .ok []
  | position, m :: rest =>
    match m.toRecord with
    | .error reason => .error ⟨position, ⟨m.id⟩, reason⟩
    | .ok record => (toRecordsFrom (position + 1) rest).map (record :: ·)

def toRecords (s : RecordStream) : Except MalformedRecord (List Record) := toRecordsFrom 0 s.records

def ofRecords (records : List Record) : RecordStream := ⟨records.map RecordMessage.ofRecord⟩

end RecordStream

end Retention.Wire
