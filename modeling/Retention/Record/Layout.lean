import Retention.Record

namespace Retention

/-- Why a record is refused. -/
inductive MalformedReason where
  | duplicateId
  | fieldOnArray (name : String)
  | indexOnNonArray (index : UInt32)
  | staticOnInstance (name : String)
  | indexOutOfOrder (expected found : UInt32)
  | referencesOnPrimitiveArray (count : Nat)
  | unlabelledReference
  | ambiguousReference
  | missingClassName
  | unknownRecordType (code : Int32)
  | unknownRootKind (code : UInt32)
  deriving DecidableEq

namespace MalformedReason

def message : MalformedReason → String
  | duplicateId => "id already defined by an earlier record"
  | fieldOnArray name => "object array element labelled with field \x60" ++ name ++ "\x60"
  | indexOnNonArray index => s!"indexed reference [{index.toNat}] on a non-array object"
  | staticOnInstance name => "static field \x60" ++ name ++ "\x60 on an instance"
  | indexOutOfOrder expected found =>
    s!"array element out of order: expected [{expected.toNat}], found [{found.toNat}]"
  | referencesOnPrimitiveArray count => s!"primitive array carries {count} references"
  | unlabelledReference => "reference has neither a field name nor an index"
  | ambiguousReference => "reference has both a field name and an index"
  | missingClassName => "class record without a name"
  | unknownRecordType code => s!"unknown record type {code.toInt}"
  | unknownRootKind code => s!"unknown root kind {code.toNat}"

end MalformedReason

/-- A refused record: where it stands in its stream, whose id it bears, and why. -/
structure MalformedRecord where
  position : Nat
  id : ObjectId
  reason : MalformedReason
  deriving DecidableEq

namespace MalformedRecord

def message (m : MalformedRecord) : String :=
  s!"malformed record #{m.position} (id " ++ m.id.text ++ "): " ++ m.reason.message

end MalformedRecord

namespace Shape

/-- The label that the reference at `position` gets in an object of this shape with `count`
references. Fields of a class object are its statics; array elements come in order. -/
def placeLabel (shape : Shape) (count position : Nat) (label : RefLabel) :
    Except MalformedReason RefLabel :=
  match shape, label with
  | .primitiveArray, _ => .error (.referencesOnPrimitiveArray count)
  | .objectArray, .element index =>
    if index.toNat = position then .ok (.element index)
    else .error (.indexOutOfOrder (UInt32.ofNat position) index)
  | .objectArray, .field name => .error (.fieldOnArray name)
  | .objectArray, .staticField name => .error (.fieldOnArray name)
  | .classObject _, .field name => .ok (.staticField name)
  | .classObject _, .staticField name => .ok (.staticField name)
  | .classObject _, .element index => .error (.indexOnNonArray index)
  | .instanceObject, .field name => .ok (.field name)
  | .instanceObject, .staticField name => .error (.staticOnInstance name)
  | .instanceObject, .element index => .error (.indexOnNonArray index)

/-- Places references from `position` on; the first one out of place decides. -/
def placeFrom (shape : Shape) (count : Nat) : Nat → List RecordRef → Except MalformedReason (List RecordRef)
  | _, [] => .ok []
  | position, r :: rest => do
    let label ← shape.placeLabel count position r.label
    let placed ← shape.placeFrom count (position + 1) rest
    pure ({ r with label := label } :: placed)

def place (shape : Shape) (references : List RecordRef) : Except MalformedReason (List RecordRef) :=
  shape.placeFrom references.length 0 references

end Shape

end Retention
