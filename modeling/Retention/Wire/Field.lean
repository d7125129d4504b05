import Retention.Wire.Varint

namespace Retention.Wire

/-- The value of a field as it stands on the wire. -/
inductive WireValue where
  | varint (value : UInt64)
  | fixed64 (bytes : Bytes)
  | block (bytes : Bytes)
  | group
  | fixed32 (bytes : Bytes)
  deriving DecidableEq

structure Field where
  tag : Nat
  value : WireValue
  deriving DecidableEq

/-- What announces a field: its tag and the number of its wire form. -/
structure Key where
  tag : Nat
  form : Nat
  deriving DecidableEq

namespace Key

/-- Keys have 32 bits and tags start at one. -/
def read (bytes : Bytes) : Option (Key × Bytes) := do
  let (key, rest) ← Varint.read bytes
  if key.toNat < UInt32.size ∧ 8 ≤ key.toNat then some (⟨key.toNat / 8, key.toNat % 8⟩, rest) else none

def write (k : Key) : Bytes := Varint.write (k.tag * 8 + k.form)

theorem length_read {bytes : Bytes} {k : Key} {rest : Bytes} (h : read bytes = some (k, rest)) :
    rest.length < bytes.length := by
  simp only [read, Option.bind_eq_bind, Option.bind_eq_some_iff] at h
  obtain ⟨⟨key, after⟩, hread, h⟩ := h
  split at h
  · simp only [Option.some.injEq, Prod.mk.injEq] at h
    rw [← h.2]
    exact Varint.length_read hread
  · simp at h

end Key

/-- The first `count` bytes, if there are as many, and the rest. -/
def splitBytes (count : Nat) (bytes : Bytes) : Option (Bytes × Bytes) :=
  let front := bytes.take count
  if front.length = count then some (front, bytes.drop count) else none

theorem length_splitBytes {count : Nat} {bytes front rest : Bytes}
    (h : splitBytes count bytes = some (front, rest)) : rest.length ≤ bytes.length := by
  unfold splitBytes at h
  dsimp only at h
  split at h
  · simp only [Option.some.injEq, Prod.mk.injEq] at h
    simp [← h.2]
  · simp at h

/-- A value in a form other than a group. -/
def readValue (form : Nat) (bytes : Bytes) : Option (WireValue × Bytes) :=
  match form with
  | 0 => (Varint.read bytes).map fun (v, rest) => (.varint v, rest)
  | 1 => (splitBytes 8 bytes).map fun (b, rest) => (.fixed64 b, rest)
  | 2 => do
    let (length, rest) ← Varint.read bytes
    (splitBytes length.toNat rest).map fun (b, rest) => (.block b, rest)
  | 5 => (splitBytes 4 bytes).map fun (b, rest) => (.fixed32 b, rest)
  | _ => none

theorem length_readValue {form : Nat} {bytes : Bytes} {v : WireValue} {rest : Bytes}
    (h : readValue form bytes = some (v, rest)) : rest.length ≤ bytes.length := by
  unfold readValue at h
  split at h
  · simp only [Option.map_eq_some_iff, Prod.mk.injEq] at h
    obtain ⟨⟨n, after⟩, hread, -, rfl⟩ := h
    exact Nat.le_of_lt (Varint.length_read hread)
  · simp only [Option.map_eq_some_iff, Prod.mk.injEq] at h
    obtain ⟨⟨b, after⟩, hread, -, rfl⟩ := h
    exact length_splitBytes hread
  · simp only [Option.bind_eq_bind, Option.bind_eq_some_iff, Option.map_eq_some_iff, Prod.mk.injEq] at h
    obtain ⟨⟨n, after⟩, hread, ⟨b, tail⟩, hsplit, -, rfl⟩ := h
    have h1 := Varint.length_read hread
    have h2 := length_splitBytes hsplit
    dsimp only at h2 ⊢
    omega
  · simp only [Option.map_eq_some_iff, Prod.mk.injEq] at h
    obtain ⟨⟨b, after⟩, hread, -, rfl⟩ := h
    exact length_splitBytes hread
  · simp at h

/-- Reads to the end of the innermost group and of all groups around it; `opened` holds their tags.
A field inside of `budget` or more groups is refused. -/
def skipGroups (budget : Nat) (opened : List Nat) (bytes : Bytes) : Option Bytes :=
  match opened with
  | [] => some bytes
  | tag :: outer =>
    match _key : Key.read bytes with
    | none => none
    | some (key, rest) =>
      if key.form = 4 then
        if key.tag = tag then skipGroups budget outer rest else none
      else if budget ≤ outer.length + 1 then none
      else if key.form = 3 then skipGroups budget (key.tag :: tag :: outer) rest
      else
        match _value : readValue key.form rest with
        | none => none
        | some (_, rest') => skipGroups budget (tag :: outer) rest'
termination_by bytes.length
decreasing_by
  · exact Key.length_read _key
  · exact Key.length_read _key
  · have h1 := Key.length_read _key
    have h2 := length_readValue _value
    omega

theorem length_skipGroups {budget : Nat} {opened : List Nat} {bytes rest : Bytes}
    (h : skipGroups budget opened bytes = some rest) : rest.length ≤ bytes.length := by
  fun_induction skipGroups budget opened bytes with
  | case1 bytes => simp_all
  | case2 => simp at h
  | case3 bytes outer key after hkey hform ih =>
    have h1 := ih h
    have h2 := Key.length_read hkey
    omega
  | case4 => simp at h
  | case5 => simp at h
  | case6 bytes tag outer key after hkey hform hbudget hstart ih =>
    have h1 := ih h
    have h2 := Key.length_read hkey
    omega
  | case7 => simp at h
  | case8 bytes tag outer key after hkey hform hbudget hstart v tail hvalue ih =>
    have h1 := ih h
    have h2 := Key.length_read hkey
    have h3 := length_readValue hvalue
    omega

namespace Field

/-- Reads one field; an end of a group does not stand alone. -/
def read (budget : Nat) (bytes : Bytes) : Option (Field × Bytes) :=
  match Key.read bytes with
  | none => none
  | some (key, rest) =>
    if key.form = 3 then (skipGroups budget [key.tag] rest).map fun rest => (⟨key.tag, .group⟩, rest)
    else (readValue key.form rest).map fun (v, rest) => (⟨key.tag, v⟩, rest)

theorem length_read {budget : Nat} {bytes : Bytes} {f : Field} {rest : Bytes}
    (h : read budget bytes = some (f, rest)) : rest.length < bytes.length := by
  unfold read at h
  split at h
  · simp at h
  · rename_i key after hkey
    have h1 := Key.length_read hkey
    split at h
    · simp only [Option.map_eq_some_iff, Prod.mk.injEq] at h
      obtain ⟨tail, hskip, -, rfl⟩ := h
      have h2 := length_skipGroups hskip
      omega
    · simp only [Option.map_eq_some_iff, Prod.mk.injEq] at h
      obtain ⟨⟨v, tail⟩, hvalue, -, rfl⟩ := h
      have h2 := length_readValue hvalue
      dsimp only at h2 ⊢
      omega

/-- Reads fields to the end of the bytes. -/
def readAll (budget : Nat) (bytes : Bytes) : Option (List Field) :=
  match bytes with
  | [] => some []
  | b :: tail =>
    match _field : read budget (b :: tail) with
    | none => none
    | some (f, rest) => (readAll budget rest).map (f :: ·)
termination_by bytes.length
decreasing_by exact length_read _field

/-- Writes a field; groups are never written. -/
def write (f : Field) : Bytes :=
  match f.value with
  | .varint v => Key.write ⟨f.tag, 0⟩ ++ Varint.write v.toNat
  | .fixed64 bytes => Key.write ⟨f.tag, 1⟩ ++ bytes
  | .block bytes => Key.write ⟨f.tag, 2⟩ ++ Varint.write bytes.length ++ bytes
  | .group => []
  | .fixed32 bytes => Key.write ⟨f.tag, 5⟩ ++ bytes

def writeAll (fields : List Field) : Bytes := fields.flatMap write

end Field

end Retention.Wire
