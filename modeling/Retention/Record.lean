import Retention.ObjectId
import Retention.RootKind

namespace Retention

/-- How a reference is held inside its object. -/
inductive RefLabel where
  | field (name : String)
  | staticField (name : String)
  | element (index : UInt32)
  deriving DecidableEq

namespace RefLabel

def text : RefLabel → String
  | field name => name
  | staticField name => "." ++ name
  | element index => s!"[{index.toNat}]"

end RefLabel

/-- A reference as recorded: no target means a null reference. -/
structure RecordRef where
  label : RefLabel
  target : Option ObjectId
  strong : Bool
  deriving DecidableEq

/-- What a record says about an object, whatever its shape. -/
structure ObjectRecord where
  id : ObjectId
  classId : Option ObjectId
  shallowSize : UInt64
  references : List RecordRef
  deriving DecidableEq

namespace ObjectRecord

/-- The null convention of raw targets: zero names no object. -/
def targetOfRaw (raw : UInt64) : Option ObjectId :=
  if raw = 0 then none else some ⟨raw⟩

def new (id shallowSize : UInt64) : ObjectRecord := ⟨⟨id⟩, none, shallowSize, []⟩

def withClass (object : ObjectRecord) (classId : UInt64) : ObjectRecord :=
  { object with classId := some ⟨classId⟩ }

def addReference (object : ObjectRecord) (label : RefLabel) (target : UInt64) (strong : Bool) :
    ObjectRecord :=
  { object with references := object.references ++ [⟨label, targetOfRaw target, strong⟩] }

def field (object : ObjectRecord) (name : String) (target : UInt64) : ObjectRecord :=
  object.addReference (.field name) target true

def weakField (object : ObjectRecord) (name : String) (target : UInt64) : ObjectRecord :=
  object.addReference (.field name) target false

def staticField (object : ObjectRecord) (name : String) (target : UInt64) : ObjectRecord :=
  object.addReference (.staticField name) target true

/-- The next element of an array: its index is the number of references before it. -/
def element (object : ObjectRecord) (target : UInt64) : ObjectRecord :=
  object.addReference (.element (UInt32.ofNat object.references.length)) target true

end ObjectRecord

/-- One call that adds to an object's record. -/
inductive RecordCall where
  | withClass (classId : UInt64)
  | field (name : String) (target : UInt64)
  | weakField (name : String) (target : UInt64)
  | staticField (name : String) (target : UInt64)
  | element (target : UInt64)
  deriving DecidableEq

namespace ObjectRecord

def apply (object : ObjectRecord) : RecordCall → ObjectRecord
  | .withClass classId => object.withClass classId
  | .field name target => object.field name target
  | .weakField name target => object.weakField name target
  | .staticField name target => object.staticField name target
  | .element target => object.element target

def applyAll (object : ObjectRecord) (calls : List RecordCall) : ObjectRecord :=
  calls.foldl apply object

end ObjectRecord

/-- The four shapes of heap objects; only class objects have a name of their own. -/
inductive Shape where
  | classObject (name : String)
  | instanceObject
  | objectArray
  | primitiveArray
  deriving DecidableEq

namespace Shape

def className? : Shape → Option String
  | classObject name => some name
  | _ => none

def text : Shape → String
  | classObject _ => "class"
  | instanceObject => "instance"
  | objectArray => "object-array"
  | primitiveArray => "primitive-array"

/-- The form used inside structural dumps of a value. -/
def debugText : Shape → String
  | classObject _ => "Class"
  | instanceObject => "Instance"
  | objectArray => "ObjectArray"
  | primitiveArray => "PrimitiveArray"

end Shape

/-- One record of a heap dump. -/
inductive Record where
  | root (id : ObjectId) (kind : RootKind)
  | object (shape : Shape) (object : ObjectRecord)
  deriving DecidableEq

namespace Record

def id : Record → ObjectId
  | root id _ => id
  | object _ o => o.id

end Record

end Retention
