import Retention.Wire.Field

namespace Retention.Wire

/-- A reference on the wire. -/
structure ReferenceMessage where
  field : Option String
  index : Option UInt32
  isStatic : Bool
  target : UInt64
  isWeak : Bool
  deriving DecidableEq

/-- A record on the wire. -/
structure RecordMessage where
  recordType : Int32
  id : UInt64
  classId : Option UInt64
  shallowSize : UInt64
  references : List ReferenceMessage
  name : Option String
  rootKind : UInt32
  deriving DecidableEq

structure RecordStream where
  records : List RecordMessage
  deriving DecidableEq

def textBytes (text : String) : Bytes := text.toUTF8.data.toList

def readText (bytes : Bytes) : Option String := String.fromUTF8? ⟨bytes.toArray⟩

/-- A number that is left out when it is zero. -/
def plainField (tag : Nat) (value : UInt64) : List Field :=
  if value = 0 then [] else [⟨tag, .varint value⟩]

def optionalField (tag : Nat) (value : Option UInt64) : List Field :=
  value.toList.map fun v => ⟨tag, .varint v⟩

def textField (tag : Nat) (value : Option String) : List Field :=
  value.toList.map fun text => ⟨tag, .block (textBytes text)⟩

/-- A truth value that is left out when it is false. -/
def flagField (tag : Nat) (value : Bool) : List Field := if value then [⟨tag, .varint 1⟩] else []

/-- Groups may nest this deep in a stream, one less in each message inside. -/
def nestingBudget : Nat := 100

namespace ReferenceMessage

def blank : ReferenceMessage := ⟨none, none, false, 0, false⟩

def fields (m : ReferenceMessage) : List Field :=
  textField 1 m.field ++ optionalField 2 (m.index.map UInt32.toUInt64) ++ flagField 3 m.isStatic
    ++ plainField 4 m.target ++ flagField 5 m.isWeak

def merge (m : ReferenceMessage) (f : Field) : Option ReferenceMessage :=
  match f.tag, f.value with
  | 1, .block bytes => (readText bytes).map fun text => { m with field := some text }
  | 1, _ => none
  | 2, .varint v => some { m with index := some v.toUInt32 }
  | 2, _ => none
  | 3, .varint v => some { m with isStatic := v != 0 }
  | 3, _ => none
  | 4, .varint v => some { m with target := v }
  | 4, _ => none
  | 5, .varint v => some { m with isWeak := v != 0 }
  | 5, _ => none
  | _, _ => some m

def write (m : ReferenceMessage) : Bytes := Field.writeAll m.fields

def read (bytes : Bytes) : Option ReferenceMessage := do
  let fields ← Field.readAll (nestingBudget - 2) bytes
  fields.foldlM merge blank

end ReferenceMessage

namespace RecordMessage

def blank : RecordMessage := ⟨0, 0, none, 0, [], none, 0⟩

/-- Negative type codes are written with all their sign bits. -/
def fields (m : RecordMessage) : List Field :=
  plainField 1 m.recordType.toInt64.toUInt64 ++ plainField 2 m.id ++ optionalField 3 m.classId
    ++ plainField 4 m.shallowSize ++ m.references.map (fun r => ⟨5, .block r.write⟩)
    ++ textField 6 m.name ++ plainField 7 m.rootKind.toUInt64

def merge (m : RecordMessage) (f : Field) : Option RecordMessage :=
  match f.tag, f.value with
  | 1, .varint v => some { m with recordType := v.toUInt32.toInt32 }
  | 1, _ => none
  | 2, .varint v => some { m with id := v }
  | 2, _ => none
  | 3, .varint v => some { m with classId := some v }
  | 3, _ => none
  | 4, .varint v => some { m with shallowSize := v }
  | 4, _ => none
  | 5, .block bytes => (ReferenceMessage.read bytes).map fun r => { m with references := m.references ++ [r] }
  | 5, _ => none
  | 6, .block bytes => (readText bytes).map fun text => { m with name := some text }
  | 6, _ => none
  | 7, .varint v => some { m with rootKind := v.toUInt32 }
  | 7, _ => none
  | _, _ => some m

def write (m : RecordMessage) : Bytes := Field.writeAll m.fields

def read (bytes : Bytes) : Option RecordMessage := do
  let fields ← Field.readAll (nestingBudget - 1) bytes
  fields.foldlM merge blank

end RecordMessage

namespace RecordStream

/-- The records found so far, the latest first. -/
def merge (found : List RecordMessage) (f : Field) : Option (List RecordMessage) :=
  match f.tag, f.value with
  | 1, .block bytes => (RecordMessage.read bytes).map (· :: found)
  | 1, _ => none
  | _, _ => some found

def write (s : RecordStream) : Bytes := Field.writeAll (s.records.map fun m => ⟨1, .block m.write⟩)

/-- None when the bytes are no record stream. -/
def read (bytes : Bytes) : Option RecordStream := do
  let fields ← Field.readAll nestingBudget bytes
  let found ← fields.foldlM merge []
  pure ⟨found.reverse⟩

end RecordStream

end Retention.Wire
