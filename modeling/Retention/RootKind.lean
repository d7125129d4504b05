namespace Retention

/-- Why an object is a root of the heap. -/
inductive RootKind where
  | jniGlobal
  | jniLocal
  | javaFrame
  | nativeStack
  | stickyClass
  | threadBlock
  | monitor
  | thread
  | internedString
  | finalizing
  | debugger
  | vmInternal
  | jniMonitor
  | unknown
  deriving DecidableEq

namespace RootKind

/-- All kinds, in the order of their codes. -/
def all : List RootKind :=
  [jniGlobal, jniLocal, javaFrame, nativeStack, stickyClass, threadBlock, monitor, thread,
    internedString, finalizing, debugger, vmInternal, jniMonitor, unknown]

def code : RootKind → Nat
  | jniGlobal => 0
  | jniLocal => 1
  | javaFrame => 2
  | nativeStack => 3
  | stickyClass => 4
  | threadBlock => 5
  | monitor => 6
  | thread => 7
  | internedString => 8
  | finalizing => 9
  | debugger => 10
  | vmInternal => 11
  | jniMonitor => 12
  | unknown => 13

def ofCode? (code : Nat) : Option RootKind := all[code]?

theorem ofCode?_code (kind : RootKind) : ofCode? kind.code = some kind := by
  cases kind <;> rfl

theorem code_lt (kind : RootKind) : kind.code < 14 := by
  cases kind <;> decide

def name : RootKind → String
  | jniGlobal => "JNI_GLOBAL"
  | jniLocal => "JNI_LOCAL"
  | javaFrame => "JAVA_FRAME"
  | nativeStack => "NATIVE_STACK"
  | stickyClass => "STICKY_CLASS"
  | threadBlock => "THREAD_BLOCK"
  | monitor => "MONITOR"
  | thread => "THREAD"
  | internedString => "INTERNED_STRING"
  | finalizing => "FINALIZING"
  | debugger => "DEBUGGER"
  | vmInternal => "VM_INTERNAL"
  | jniMonitor => "JNI_MONITOR"
  | unknown => "UNKNOWN"

end RootKind

/-- A set of root kinds, one bit for each code. -/
structure RootKinds where
  bits : BitVec 14
  deriving DecidableEq

namespace RootKinds

def empty : RootKinds := ⟨0⟩

def contains (kinds : RootKinds) (kind : RootKind) : Bool := kinds.bits.getLsbD kind.code

def insert (kinds : RootKinds) (kind : RootKind) : RootKinds :=
  ⟨kinds.bits ||| BitVec.twoPow 14 kind.code⟩

def isEmpty (kinds : RootKinds) : Bool := kinds.bits == 0

/-- The members in the order of their codes. -/
def toList (kinds : RootKinds) : List RootKind := RootKind.all.filter kinds.contains

def size (kinds : RootKinds) : Nat := kinds.toList.length

def text (kinds : RootKinds) : String := "|".intercalate (kinds.toList.map RootKind.name)

@[simp] theorem contains_empty (kind : RootKind) : empty.contains kind = false := by
  simp [empty, contains]

theorem code_injective {a b : RootKind} (h : a.code = b.code) : a = b := by
  have ha := RootKind.ofCode?_code a
  rw [h, RootKind.ofCode?_code b] at ha
  exact (Option.some.inj ha).symm

@[simp] theorem contains_insert (kinds : RootKinds) (a b : RootKind) :
    (kinds.insert a).contains b = (kinds.contains b || decide (a = b)) := by
  have hb := b.code_lt
  simp only [contains, insert, BitVec.getLsbD_or, BitVec.getLsbD_twoPow]
  by_cases h : a = b
  · simp [h, hb]
  · have hc : a.code ≠ b.code := fun he => h (code_injective he)
    simp [h, hc]

end RootKinds

end Retention
