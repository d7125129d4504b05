import Mathlib.Algebra.Order.Ring.Nat
import Mathlib.Tactic.SplitIfs
import Retention.Proofs.BuiltGraphs
import Retention.Wire.Records

namespace Retention.Wire

variable {f : Field} {fields : List Field} {budget n tag : Nat} {bytes rest : Bytes}

namespace Varint

theorem readGroups_write (groups : Nat) (h : n < 2 * 128 ^ groups) :
    readGroups (groups + 1) (write n ++ rest) = some (n, rest) := by
  induction groups generalizing n with
  | zero =>
    have hn : n < 128 := by omega
    have hb : (UInt8.ofNat n).toNat = n := by simp; omega
    rw [write, if_pos hn]
    simp only [List.cons_append, List.nil_append, readGroups, hb]
    rw [if_pos hn, if_neg (by omega)]
  | succ groups ih =>
    rw [write]
    split_ifs with hn
    · have hb : (UInt8.ofNat n).toNat = n := by simp; omega
      simp [readGroups, hb, hn]
    · have hb : (UInt8.ofNat (n % 128 + 128)).toNat = n % 128 + 128 := by simp; omega
      have hq : n / 128 < 2 * 128 ^ groups := by
        rw [Nat.pow_succ] at h
        omega
      rw [List.cons_append, readGroups, hb, if_neg (by omega), ih hq]
      simp only [Option.map_some, Option.some.injEq, Prod.mk.injEq, and_true]
      omega

theorem read_write (h : n < UInt64.size) : read (write n ++ rest) = some (UInt64.ofNat n, rest) := by
  have hn : n < 2 * 128 ^ 9 := h
  simp [read, readGroups_write 9 hn]

theorem read_write_toNat (v : UInt64) : read (write v.toNat ++ rest) = some (v, rest) := by
  simp [read_write v.toNat_lt_size]

end Varint

theorem Key.read_write {form : Nat} (ht : 0 < tag) (hs : tag < 2 ^ 29) (hf : form < 8) :
    Key.read (Key.write ⟨tag, form⟩ ++ rest) = some (⟨tag, form⟩, rest) := by
  have hw : tag * 8 + form < 2 ^ 32 := by omega
  have hk : (UInt64.ofNat (tag * 8 + form)).toNat = tag * 8 + form := by simp; omega
  have hb : tag * 8 + form < UInt32.size ∧ 8 ≤ tag * 8 + form := ⟨hw, by omega⟩
  have hread : Varint.read (Varint.write (tag * 8 + form) ++ rest) = some (UInt64.ofNat (tag * 8 + form), rest) :=
    Varint.read_write (Nat.lt_trans hw (by decide))
  simp only [Key.read, Key.write, hread, Option.bind_eq_bind, Option.bind_some, hk, if_pos hb]
  have hq : (tag * 8 + form) / 8 = tag := by omega
  have hr : (tag * 8 + form) % 8 = form := by omega
  rw [hq, hr]

theorem splitBytes_append : splitBytes bytes.length (bytes ++ rest) = some (bytes, rest) := by
  simp [splitBytes]

namespace Field

/-- The fields that messages are written in. -/
def Plain (f : Field) : Prop :=
  0 < f.tag ∧ f.tag < 2 ^ 29 ∧ ((∃ v, f.value = .varint v) ∨ ∃ bytes, f.value = .block bytes)

theorem write_block (bytes : Bytes) :
    write ⟨tag, .block bytes⟩ = Key.write ⟨tag, 2⟩ ++ Varint.write bytes.length ++ bytes := rfl

/-- Blocks stand behind their length, a number of 64 bits. -/
def Counted (f : Field) : Prop := ∀ bytes, f.value = .block bytes → bytes.length < UInt64.size

theorem length_block_le (h : ⟨tag, .block bytes⟩ ∈ fields) : bytes.length ≤ (writeAll fields).length := by
  obtain ⟨front, back, rfl⟩ := List.append_of_mem h
  simp only [writeAll, List.flatMap_append, List.flatMap_cons, write_block, List.length_append]
  omega

theorem counted_of_length (short : (writeAll fields).length < UInt64.size) : ∀ f ∈ fields, f.Counted := by
  intro f hf bytes hb
  have here : (⟨f.tag, .block bytes⟩ : Field) ∈ fields := by rwa [← hb]
  exact Nat.lt_of_le_of_lt (length_block_le here) short

theorem read_write (plain : f.Plain) (short : f.Counted) :
    read budget (f.write ++ rest) = some (f, rest) := by
  obtain ⟨tag, value⟩ := f
  obtain ⟨ht, hs, ⟨v, rfl⟩ | ⟨bytes, rfl⟩⟩ := plain
  · have hk : ∀ later, Key.read (Key.write ⟨tag, 0⟩ ++ later) = some (⟨tag, 0⟩, later) :=
      fun later => Key.read_write ht hs (by decide)
    simp [read, write, hk, readValue, Varint.read_write_toNat]
  · have hl := short bytes rfl
    have hn : (UInt64.ofNat bytes.length).toNat = bytes.length := by
      simp
      omega
    have hk : ∀ later, Key.read (Key.write ⟨tag, 2⟩ ++ later) = some (⟨tag, 2⟩, later) :=
      fun later => Key.read_write ht hs (by decide)
    simp [read, write, hk, readValue, Varint.read_write hl, hn, splitBytes_append]

theorem readAll_write (h : read budget (f.write ++ rest) = some (f, rest)) :
    readAll budget (f.write ++ rest) = (readAll budget rest).map (f :: ·) := by
  cases hw : f.write ++ rest with
  | nil =>
    rw [hw] at h
    simp [read, Key.read, Varint.read, Varint.readGroups] at h
  | cons b tail =>
    rw [hw] at h
    rw [readAll]
    split
    · simp_all
    · simp_all

theorem readAll_writeAll (budget : Nat) (plain : ∀ f ∈ fields, f.Plain) (short : ∀ f ∈ fields, f.Counted) :
    readAll budget (writeAll fields) = some fields := by
  induction fields with
  | nil => simp [writeAll, readAll]
  | cons f later ih =>
    have first : read budget (f.write ++ writeAll later) = some (f, writeAll later) :=
      read_write (plain f List.mem_cons_self) (short f List.mem_cons_self)
    have others := ih (fun g hg => plain g (List.mem_cons_of_mem f hg))
      (fun g hg => short g (List.mem_cons_of_mem f hg))
    have split : writeAll (f :: later) = f.write ++ writeAll later := rfl
    rw [split, readAll_write first, others]
    rfl

end Field

section Merging

variable {M : Type} {merge : M → Field → Option M} {m next last : M}

theorem foldlM_append {front back : List Field} (h : front.foldlM merge m = some next)
    (k : back.foldlM merge next = some last) : (front ++ back).foldlM merge m = some last := by
  rw [List.foldlM_append, h]
  exact k

theorem foldlM_single (h : merge m f = some next) : [f].foldlM merge m = some next := by
  simp [h]

theorem foldlM_plainField {v : UInt64} (absent : v = 0 → next = m)
    (present : merge m ⟨tag, .varint v⟩ = some next) : (plainField tag v).foldlM merge m = some next := by
  unfold plainField
  split_ifs with hv
  · simp [absent hv]
  · exact foldlM_single present

theorem foldlM_flagField {b : Bool} (absent : b = false → next = m)
    (present : b = true → merge m ⟨tag, .varint 1⟩ = some next) : (flagField tag b).foldlM merge m = some next := by
  cases b with
  | false => simp [flagField, absent]
  | true => exact foldlM_single (present rfl)

theorem foldlM_optionalField {v : Option UInt64} (absent : v = none → next = m)
    (present : ∀ n, v = some n → merge m ⟨tag, .varint n⟩ = some next) :
    (optionalField tag v).foldlM merge m = some next := by
  cases v with
  | none => simp [optionalField, absent]
  | some n => exact foldlM_single (present n rfl)

theorem readText_textBytes (text : String) : readText (textBytes text) = some text := by
  have valid : (⟨(textBytes text).toArray⟩ : ByteArray) = text.toUTF8 := by simp [textBytes]
  have decodes : text.toUTF8.IsValidUTF8 := text.isValidUTF8
  rw [readText, valid, String.fromUTF8?, dif_pos decodes]
  rfl

theorem foldlM_textField {text : Option String} (absent : text = none → next = m)
    (present : ∀ t, text = some t → merge m ⟨tag, .block (textBytes t)⟩ = some next) :
    (textField tag text).foldlM merge m = some next := by
  cases text with
  | none => simp [textField, absent]
  | some t => exact foldlM_single (present t rfl)

end Merging

theorem plain_plainField {v : UInt64} (ht : 0 < tag ∧ tag < 2 ^ 29) : ∀ f ∈ plainField tag v, f.Plain := by
  intro f hf
  unfold plainField at hf
  split_ifs at hf
  · simp at hf
  · simp only [List.mem_singleton] at hf
    exact hf ▸ ⟨ht.1, ht.2, .inl ⟨v, rfl⟩⟩

theorem plain_flagField {b : Bool} (ht : 0 < tag ∧ tag < 2 ^ 29) : ∀ f ∈ flagField tag b, f.Plain := by
  intro f hf
  unfold flagField at hf
  split_ifs at hf
  · simp only [List.mem_singleton] at hf
    exact hf ▸ ⟨ht.1, ht.2, .inl ⟨1, rfl⟩⟩
  · simp at hf

theorem plain_optionalField {v : Option UInt64} (ht : 0 < tag ∧ tag < 2 ^ 29) :
    ∀ f ∈ optionalField tag v, f.Plain := by
  intro f hf
  obtain ⟨n, -, rfl⟩ := List.mem_map.mp hf
  exact ⟨ht.1, ht.2, .inl ⟨n, rfl⟩⟩

theorem plain_textField {text : Option String} (ht : 0 < tag ∧ tag < 2 ^ 29) :
    ∀ f ∈ textField tag text, f.Plain := by
  intro f hf
  obtain ⟨t, -, rfl⟩ := List.mem_map.mp hf
  exact ⟨ht.1, ht.2, .inr ⟨_, rfl⟩⟩

namespace ReferenceMessage

theorem plain_fields (m : ReferenceMessage) : ∀ f ∈ m.fields, f.Plain := by
  intro f hf
  simp only [fields, List.mem_append] at hf
  obtain (((hf | hf) | hf) | hf) | hf := hf
  · exact plain_textField (by decide) f hf
  · exact plain_optionalField (by decide) f hf
  · exact plain_flagField (by decide) f hf
  · exact plain_plainField (by decide) f hf
  · exact plain_flagField (by decide) f hf

theorem foldlM_fields (m : ReferenceMessage) : m.fields.foldlM merge blank = some m := by
  obtain ⟨field, index, isStatic, target, isWeak⟩ := m
  have h1 : (textField 1 field).foldlM merge blank = some ⟨field, none, false, 0, false⟩ := by
    apply foldlM_textField
    · intro h
      rw [h, blank]
    · intro t h
      simp [merge, readText_textBytes, blank, h]
  have h2 : (optionalField 2 (index.map UInt32.toUInt64)).foldlM merge ⟨field, none, false, 0, false⟩ =
      some ⟨field, index, false, 0, false⟩ := by
    apply foldlM_optionalField
    · intro h
      rw [Option.map_eq_none_iff.mp h]
    · intro n h
      obtain ⟨i, rfl, rfl⟩ := Option.map_eq_some_iff.mp h
      simp [merge]
  have h3 : (flagField 3 isStatic).foldlM merge ⟨field, index, false, 0, false⟩ =
      some ⟨field, index, isStatic, 0, false⟩ := by
    apply foldlM_flagField <;> intro h <;> simp [merge, h]
  have h4 : (plainField 4 target).foldlM merge ⟨field, index, isStatic, 0, false⟩ =
      some ⟨field, index, isStatic, target, false⟩ := by
    apply foldlM_plainField
    · intro h
      rw [h]
    · rfl
  have h5 : (flagField 5 isWeak).foldlM merge ⟨field, index, isStatic, target, false⟩ =
      some ⟨field, index, isStatic, target, isWeak⟩ := by
    apply foldlM_flagField <;> intro h <;> simp [merge, h]
  exact foldlM_append (foldlM_append (foldlM_append (foldlM_append h1 h2) h3) h4) h5

theorem read_write {m : ReferenceMessage} (short : m.write.length < UInt64.size) : read m.write = some m := by
  have hf := Field.readAll_writeAll (nestingBudget - 2) m.plain_fields (Field.counted_of_length short)
  simp [read, write, hf, foldlM_fields]

end ReferenceMessage

namespace RecordMessage

theorem plain_fields (m : RecordMessage) : ∀ f ∈ m.fields, f.Plain := by
  intro f hf
  simp only [fields, List.mem_append] at hf
  obtain (((((hf | hf) | hf) | hf) | hf) | hf) | hf := hf
  · exact plain_plainField (by decide) f hf
  · exact plain_plainField (by decide) f hf
  · exact plain_optionalField (by decide) f hf
  · exact plain_plainField (by decide) f hf
  · obtain ⟨r, -, rfl⟩ := List.mem_map.mp hf
    exact ⟨by simp, by simp, .inr ⟨_, rfl⟩⟩
  · exact plain_textField (by decide) f hf
  · exact plain_plainField (by decide) f hf

theorem foldlM_references {references : List ReferenceMessage} (m : RecordMessage)
    (short : ∀ r ∈ references, r.write.length < UInt64.size) :
    (references.map fun r => (⟨5, .block r.write⟩ : Field)).foldlM merge m =
      some { m with references := m.references ++ references } := by
  induction references generalizing m with
  | nil => simp
  | cons r later ih =>
    have hr := ReferenceMessage.read_write (short r List.mem_cons_self)
    have hm : merge m ⟨5, .block r.write⟩ = some { m with references := m.references ++ [r] } := by
      simp [merge, hr]
    have hl := ih { m with references := m.references ++ [r] } fun q hq => short q (List.mem_cons_of_mem r hq)
    rw [List.map_cons, List.foldlM_cons, hm]
    simpa using hl

/-- A type code comes back from its sign-extended form. -/
theorem toInt32_toUInt64 (code : Int32) : code.toInt64.toUInt64.toUInt32.toInt32 = code := by
  have low : code.toInt64.toUInt64.toUInt32.toInt32 = code.toInt64.toInt32 := by
    apply Int32.toBitVec_inj.mp
    change code.toInt64.toUInt64.toUInt32.toBitVec = _
    rw [UInt64.toBitVec_toUInt32, Int64.toBitVec_toInt32]
    exact (BitVec.signExtend_eq_setWidth_of_le _ (by decide)).symm
  rw [low, Int32.toInt32_toInt64]

theorem foldlM_fields {m : RecordMessage} (short : m.write.length < UInt64.size) :
    m.fields.foldlM merge blank = some m := by
  have nested : ∀ r ∈ m.references, r.write.length < UInt64.size := by
    intro r hr
    have hf : (⟨5, .block r.write⟩ : Field) ∈ m.fields := by
      simp only [fields, List.mem_append, List.mem_map]
      exact .inl (.inl (.inr ⟨r, hr, rfl⟩))
    exact Nat.lt_of_le_of_lt (Field.length_block_le hf) short
  clear short
  obtain ⟨recordType, id, classId, shallowSize, references, name, rootKind⟩ := m
  have h1 : (plainField 1 recordType.toInt64.toUInt64).foldlM merge blank =
      some ⟨recordType, 0, none, 0, [], none, 0⟩ := by
    apply foldlM_plainField
    · intro h
      have hz : recordType = 0 := by
        rw [← toInt32_toUInt64 recordType, h]
        rfl
      rw [hz, blank]
    · simp [merge, blank, toInt32_toUInt64]
  have h2 : (plainField 2 id).foldlM merge ⟨recordType, 0, none, 0, [], none, 0⟩ =
      some ⟨recordType, id, none, 0, [], none, 0⟩ := by
    apply foldlM_plainField
    · intro h
      rw [h]
    · rfl
  have h3 : (optionalField 3 classId).foldlM merge ⟨recordType, id, none, 0, [], none, 0⟩ =
      some ⟨recordType, id, classId, 0, [], none, 0⟩ := by
    apply foldlM_optionalField <;> intros <;> simp_all [merge]
  have h4 : (plainField 4 shallowSize).foldlM merge ⟨recordType, id, classId, 0, [], none, 0⟩ =
      some ⟨recordType, id, classId, shallowSize, [], none, 0⟩ := by
    apply foldlM_plainField
    · intro h
      rw [h]
    · rfl
  have h5 := foldlM_references ⟨recordType, id, classId, shallowSize, [], none, 0⟩ nested
  have h6 : (textField 6 name).foldlM merge ⟨recordType, id, classId, shallowSize, references, none, 0⟩ =
      some ⟨recordType, id, classId, shallowSize, references, name, 0⟩ := by
    apply foldlM_textField
    · intro h
      rw [h]
    · intro t h
      simp [merge, readText_textBytes, h]
  have h7 : (plainField 7 rootKind.toUInt64).foldlM merge
      ⟨recordType, id, classId, shallowSize, references, name, 0⟩ =
      some ⟨recordType, id, classId, shallowSize, references, name, rootKind⟩ := by
    apply foldlM_plainField
    · intro h
      have hz : rootKind = 0 := by simpa using congrArg UInt64.toUInt32 h
      rw [hz]
    · simp [merge]
  exact foldlM_append (foldlM_append (foldlM_append (foldlM_append (foldlM_append (foldlM_append h1 h2) h3) h4) h5)
    h6) h7

theorem read_write {m : RecordMessage} (short : m.write.length < UInt64.size) : read m.write = some m := by
  have hf := Field.readAll_writeAll (nestingBudget - 1) m.plain_fields (Field.counted_of_length short)
  simp [read, write, hf, foldlM_fields short]

end RecordMessage

namespace RecordStream

theorem foldlM_records {messages : List RecordMessage} (found : List RecordMessage)
    (short : ∀ m ∈ messages, m.write.length < UInt64.size) :
    (messages.map fun m => (⟨1, .block m.write⟩ : Field)).foldlM merge found = some (messages.reverse ++ found) := by
  induction messages generalizing found with
  | nil => simp
  | cons m later ih =>
    have hm : merge found ⟨1, .block m.write⟩ = some (m :: found) := by
      simp [merge, RecordMessage.read_write (short m List.mem_cons_self)]
    have hl := ih (m :: found) fun q hq => short q (List.mem_cons_of_mem m hq)
    rw [List.map_cons, List.foldlM_cons, hm]
    simpa using hl

theorem read_write {stream : RecordStream} (short : ∀ m ∈ stream.records, m.write.length < UInt64.size) :
    read stream.write = some stream := by
  have plain : ∀ f ∈ stream.records.map fun m => (⟨1, .block m.write⟩ : Field), f.Plain := by
    intro f hf
    obtain ⟨m, -, rfl⟩ := List.mem_map.mp hf
    exact ⟨by simp, by simp, .inr ⟨_, rfl⟩⟩
  have counted : ∀ f ∈ stream.records.map fun m => (⟨1, .block m.write⟩ : Field), f.Counted := by
    intro f hf bytes hb
    obtain ⟨m, hm, rfl⟩ := List.mem_map.mp hf
    obtain rfl := WireValue.block.inj hb
    exact short m hm
  have hf := Field.readAll_writeAll nestingBudget plain counted
  simp [read, write, hf, foldlM_records [] short]

end RecordStream

end Retention.Wire

namespace Retention

/-- The id zero as a target made a null reference, as the wire has only the one. -/
def RecordRef.zeroAsNull (r : RecordRef) : RecordRef := { r with target := r.target.filter (· ≠ ⟨0⟩) }

/-- A record with the id zero as a target made a null reference throughout. -/
def Record.zeroAsNull : Record → Record
  | .root id kind => .root id kind
  | .object shape o => .object shape { o with references := o.references.map RecordRef.zeroAsNull }

end Retention

namespace Retention.Wire

theorem targetOfRaw_elim (target : Option ObjectId) :
    ObjectRecord.targetOfRaw (target.elim 0 ObjectId.value) = target.filter (· ≠ ⟨0⟩) := by
  cases target with
  | none => simp [ObjectRecord.targetOfRaw]
  | some id =>
    obtain ⟨value⟩ := id
    by_cases hv : value = 0 <;> simp [ObjectRecord.targetOfRaw, Option.filter_some, hv]

theorem ReferenceMessage.toRef_ofRef (r : RecordRef) : (ofRef r).toRef = .ok r.zeroAsNull := by
  obtain ⟨label, target, strong⟩ := r
  have ht := targetOfRaw_elim target
  cases label <;> simp [ofRef, toRef, RecordRef.zeroAsNull, ht]

namespace RecordMessage

theorem toObject_ofRecord (shape : Shape) (o : ObjectRecord) :
    (ofRecord (.object shape o)).toObject = .ok { o with references := o.references.map RecordRef.zeroAsNull } := by
  have hr : (o.references.map ReferenceMessage.ofRef).mapM ReferenceMessage.toRef =
      .ok (o.references.map RecordRef.zeroAsNull) :=
    mapM_eq_ok fun r _ => ReferenceMessage.toRef_ofRef r
  have hc : (o.classId.map ObjectId.value).map ObjectId.mk = o.classId := by
    cases o.classId <;> rfl
  simp only [toObject, ofRecord, hr, hc]
  rfl

theorem toRecord_ofRecord (r : Record) : (ofRecord r).toRecord = .ok r.zeroAsNull := by
  cases r with
  | root id kind =>
    have hk : (UInt32.ofNat kind.code).toNat = kind.code := by
      have := kind.code_lt
      simp
      omega
    simp [ofRecord, toRecord, blank, hk, RootKind.ofCode?_code, Record.zeroAsNull]
  | object shape o =>
    have ho := toObject_ofRecord shape o
    have name : (ofRecord (.object shape o)).name = shape.className? := rfl
    have code : (ofRecord (.object shape o)).recordType = typeOf shape := rfl
    unfold toRecord
    rw [code, name, ho]
    cases shape <;> simp [typeOf, Shape.className?, Record.zeroAsNull, Except.map]

end RecordMessage

namespace RecordStream

theorem toRecordsFrom_map (position : Nat) (records : List Record) :
    toRecordsFrom position (records.map RecordMessage.ofRecord) = .ok (records.map Record.zeroAsNull) := by
  induction records generalizing position with
  | nil => rfl
  | cons r later ih =>
    rw [List.map_cons, toRecordsFrom, RecordMessage.toRecord_ofRecord, ih]
    rfl

theorem toRecords_ofRecords (records : List Record) :
    (ofRecords records).toRecords = .ok (records.map Record.zeroAsNull) :=
  toRecordsFrom_map 0 records

/-- Every stream is read as it was written, and records come back with the id zero as a target made a
null reference and nothing else changed. The bytes of a record stand behind their length, a number of
64 bits. -/
theorem round_trip :
    (∀ stream : RecordStream, (∀ m ∈ stream.records, m.write.length < UInt64.size) →
      read stream.write = some stream) ∧
    ∀ records : List Record, (∀ r ∈ records, (RecordMessage.ofRecord r).write.length < UInt64.size) →
      (read (ofRecords records).write).map toRecords = some (.ok (records.map Record.zeroAsNull)) := by
  refine ⟨fun stream short => read_write short, ?_⟩
  intro records short
  have messages : ∀ m ∈ (ofRecords records).records, m.write.length < UInt64.size := by
    intro m hm
    obtain ⟨r, hr, rfl⟩ := List.mem_map.mp hm
    exact short r hr
  rw [read_write messages, Option.map_some, toRecords_ofRecords]

/-- A message that no record has: a negative type, an optional id of zero, an empty name, a reference
with both labels, and the largest numbers. -/
def strayMessage : RecordMessage :=
  ⟨-1, 18446744073709551615, some 0, 0, [⟨some "", some 4294967295, true, 0, true⟩], some "", 4294967295⟩

/-- A class object of the empty name and the id zero that refers to itself. -/
def zeroRecord : Record :=
  .object (.classObject "") ⟨⟨0⟩, some ⟨0⟩, 18446744073709551615,
    [⟨.staticField "", some ⟨0⟩, false⟩, ⟨.element 4294967295, some ⟨7⟩, true⟩]⟩

theorem round_trip_stray :
    strayMessage.write.length < UInt64.size ∧ read (write ⟨[strayMessage]⟩) = some ⟨[strayMessage]⟩ ∧
    (RecordMessage.ofRecord zeroRecord).write.length < UInt64.size ∧
    (read (ofRecords [zeroRecord, .root ⟨0⟩ .unknown]).write).map toRecords =
      some (.ok [.object (.classObject "") ⟨⟨0⟩, some ⟨0⟩, 18446744073709551615,
        [⟨.staticField "", none, false⟩, ⟨.element 4294967295, some ⟨7⟩, true⟩]⟩, .root ⟨0⟩ .unknown]) := by
  have stray : strayMessage.write.length < UInt64.size := by decide +kernel
  have zero : (RecordMessage.ofRecord zeroRecord).write.length < UInt64.size := by decide +kernel
  have root : (RecordMessage.ofRecord (.root ⟨0⟩ .unknown)).write.length < UInt64.size := by decide +kernel
  refine ⟨stray, round_trip.1 _ (by simpa using stray), zero, ?_⟩
  exact round_trip.2 [zeroRecord, .root ⟨0⟩ .unknown] (by simpa using ⟨zero, root⟩)

end RecordStream

end Retention.Wire
