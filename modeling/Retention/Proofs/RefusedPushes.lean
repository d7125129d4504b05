import Retention.Proofs.RecordFaults

namespace Retention.HeapGraphBuilder

/-- The records that were accepted, by what each push returned. -/
def accepted (records : List Record) (results : List (Except MalformedRecord Unit)) : List Record :=
  ((records.zip results).filter fun pushed => pushed.2.isOk).map Prod.fst

/-- One of the records before position `k` that were accepted defines the id. -/
def DefinedBefore (records : List Record) (results : List (Except MalformedRecord Unit)) (k : Nat) (id : ObjectId) :
    Prop :=
  ∃ i < k, ∃ shape entry, records[i]? = some (.object shape entry) ∧ entry.id = id ∧ results[i]? = some (.ok ())

variable {records kept : List Record} {record : Record} {b c : HeapGraphBuilder} {id : ObjectId} {k : Nat}
  {results : List (Except MalformedRecord Unit)}

@[simp] theorem accepted_nil : accepted [] results = [] := rfl

@[simp] theorem accepted_ok : accepted (record :: records) (.ok () :: results) = record :: accepted records results := rfl

@[simp] theorem accepted_error {m : MalformedRecord} :
    accepted (record :: records) (.error m :: results) = accepted records results := rfl

theorem mem_accepted :
    record ∈ accepted records results ↔ ∃ i : Nat, records[i]? = some record ∧ results[i]? = some (.ok ()) := by
  have pushed_iff : ∀ pushed : Record × Except MalformedRecord Unit, pushed ∈ records.zip results ↔
      ∃ i : Nat, records[i]? = some pushed.1 ∧ results[i]? = some pushed.2 := by
    intro pushed
    rw [List.mem_iff_getElem?]
    simp only [List.getElem?_zip_eq_some]
  simp only [accepted, List.mem_map, List.mem_filter, pushed_iff]
  constructor
  · intro h
    obtain ⟨⟨other, result⟩, ⟨⟨i, there, pushed⟩, ok⟩, rfl⟩ := h
    cases result with
    | error m => cases ok
    | ok _ => exact ⟨i, there, pushed⟩
  · intro h
    obtain ⟨i, there, pushed⟩ := h
    exact ⟨(record, .ok ()), ⟨⟨i, there, pushed⟩, rfl⟩, rfl⟩

/-- The ids that accepted records define. -/
theorem mem_defined_accepted :
    id ∈ (accepted (records.take k) (results.take k)).filterMap Record.defined? ↔ DefinedBefore records results k id := by
  simp only [List.mem_filterMap, mem_accepted, List.getElem?_take]
  constructor
  · intro h
    obtain ⟨record, ⟨i, there, pushed⟩, named⟩ := h
    split at there
    · rename_i before
      cases record with
      | root other kind => cases named
      | object shape entry =>
        rw [if_pos before] at pushed
        exact ⟨i, before, shape, entry, there, Option.some.inj named, pushed⟩
    · cases there
  · intro h
    obtain ⟨i, before, shape, entry, there, rfl, pushed⟩ := h
    exact ⟨.object shape entry, ⟨i, by rw [if_pos before]; exact there, by rw [if_pos before]; exact pushed⟩, rfl⟩

theorem push_of_inspect {entry : Entry} (h : b.drafts.inspect record = .ok entry) :
    b.push record = (⟨b.drafts.insert entry, b.position + 1⟩, .ok ()) := by
  simp only [push, h]

theorem push_of_refused {reason : MalformedReason} (h : b.drafts.inspect record = .error reason) :
    b.push record = (⟨b.drafts, b.position + 1⟩, .error ⟨b.position, record.id, reason⟩) := by
  simp only [push, h]

theorem pushAll_cons (b : HeapGraphBuilder) (record : Record) (records : List Record) :
    b.pushAll (record :: records) =
      (((b.push record).1.pushAll records).1, (b.push record).2 :: ((b.push record).1.pushAll records).2) := rfl

theorem pushAll_append (b : HeapGraphBuilder) (front back : List Record) :
    b.pushAll (front ++ back) =
      (((b.pushAll front).1.pushAll back).1, (b.pushAll front).2 ++ ((b.pushAll front).1.pushAll back).2) := by
  induction front generalizing b with
  | nil => rfl
  | cons record front ih => simp [pushAll_cons, ih]

@[simp] theorem length_pushAll (b : HeapGraphBuilder) (records : List Record) :
    (b.pushAll records).2.length = records.length := by
  induction records generalizing b with
  | nil => rfl
  | cons record records ih => simp [pushAll_cons, ih]

@[simp] theorem position_push (b : HeapGraphBuilder) (record : Record) : (b.push record).1.position = b.position + 1 := by
  cases h : b.drafts.inspect record with
  | ok entry => rw [push_of_inspect h]
  | error reason => rw [push_of_refused h]

/-- Every record uses up one position, refused or not. -/
theorem position_pushAll (b : HeapGraphBuilder) (records : List Record) :
    (b.pushAll records).1.position = b.position + records.length := by
  induction records generalizing b with
  | nil => rfl
  | cons record records ih =>
    simp only [pushAll_cons, ih, position_push, List.length_cons]
    omega

/-- A push takes a record in, or refuses it for its fault and changes nothing but the position. -/
theorem Taken.push (h : Taken kept b) (record : Record) :
    ((b.push record).2 = .ok () ∧ Taken (kept ++ [record]) (b.push record).1 ∧ ∀ reason, ¬ record.Fault kept reason) ∨
      ∃ reason, b.push record = (⟨b.drafts, b.position + 1⟩, .error ⟨b.position, record.id, reason⟩) ∧
        record.Fault kept reason := by
  cases inspected : b.drafts.inspect record with
  | error reason => exact .inr ⟨reason, push_of_refused inspected, h.inspect_eq_error.mp inspected⟩
  | ok entry =>
    rw [push_of_inspect inspected]
    refine .inl ⟨rfl, ?_, ?_⟩
    · have taken := take_of_inspect inspected
      cases h.take record with
      | inl done =>
        obtain ⟨next, also, more⟩ := done
        exact Except.ok.inj (also.symm.trans taken) ▸ more
      | inr failed =>
        obtain ⟨⟨refused, also⟩, -⟩ := failed
        rw [taken] at also
        cases also
    · intro reason fault
      rw [← h.inspect_eq_error, inspected] at fault
      cases fault

/-- After any pushes the builder has taken the accepted records and no others. -/
theorem Taken.pushAll (h : Taken kept b) (records : List Record) :
    Taken (kept ++ accepted records (b.pushAll records).2) (b.pushAll records).1 := by
  induction records generalizing kept b with
  | nil => simpa [HeapGraphBuilder.pushAll] using h
  | cons record records ih =>
    rw [pushAll_cons]
    cases h.push record with
    | inl done =>
      obtain ⟨ok, taken, -⟩ := done
      rw [ok, accepted_ok]
      simpa using ih taken
    | inr failed =>
      obtain ⟨reason, refused, -⟩ := failed
      have same : Taken kept (b.push record).1 := by
        rw [refused]
        exact ⟨h.acceptable, h.indexed, h.objects, h.roots⟩
      have later := ih same
      rw [refused] at later ⊢
      exact later

/-- The accepted records alone lead a builder with the same records to the same records, and none of
them is refused. -/
theorem pushAll_accepted (same : c.drafts = b.drafts) (records : List Record) :
    (c.pushAll (accepted records (b.pushAll records).2)).1.drafts = (b.pushAll records).1.drafts ∧
      ∀ result ∈ (c.pushAll (accepted records (b.pushAll records).2)).2, result = .ok () := by
  induction records generalizing b c with
  | nil => exact ⟨same, by simp [pushAll]⟩
  | cons record records ih =>
    rw [pushAll_cons]
    cases inspected : b.drafts.inspect record with
    | error reason =>
      rw [push_of_refused inspected]
      exact ih same
    | ok entry =>
      have also : c.push record = (⟨b.drafts.insert entry, c.position + 1⟩, .ok ()) := by
        rw [← same] at inspected ⊢
        exact push_of_inspect inspected
      rw [push_of_inspect inspected, accepted_ok, pushAll_cons, also]
      have later := @ih ⟨b.drafts.insert entry, b.position + 1⟩ ⟨b.drafts.insert entry, c.position + 1⟩ rfl
      refine ⟨later.1, ?_⟩
      intro result there
      cases List.mem_cons.mp there with
      | inl first => exact first
      | inr rest => exact later.2 result rest

theorem pushAll_take (b : HeapGraphBuilder) (records : List Record) (k : Nat) :
    (b.pushAll (records.take k)).2 = (b.pushAll records).2.take k := by
  induction records generalizing b k with
  | nil => simp [pushAll]
  | cons record records ih =>
    cases k with
    | zero => rfl
    | succ k => simp [pushAll_cons, ih]

/-- What becomes of the record at a position is told by the builder after those before it. -/
theorem getElem?_pushAll (b : HeapGraphBuilder) (there : records[k]? = some record) :
    (b.pushAll records).2[k]? = some ((b.pushAll (records.take k)).1.push record).2 ∧
      (b.pushAll (records.take (k + 1))).1 = ((b.pushAll (records.take k)).1.push record).1 := by
  obtain ⟨inside, rfl⟩ := List.getElem?_eq_some_iff.mp there
  constructor
  · have split : records = records.take k ++ records[k] :: records.drop (k + 1) := by simp
    conv_lhs => rw [split, pushAll_append, pushAll_cons]
    rw [List.getElem?_append_right (by rw [length_pushAll]; exact List.length_take_le k records)]
    simp [Nat.min_eq_left (Nat.le_of_lt inside)]
  · rw [List.take_succ_eq_append_getElem inside, pushAll_append]
    rfl

/-- The records that were accepted before a position are those that the builder has taken. -/
theorem taken_take (records : List Record) (k : Nat) :
    Taken (accepted (records.take k) ((new.pushAll records).2.take k)) (new.pushAll (records.take k)).1 := by
  have taken := taken_new.pushAll (records.take k)
  rwa [List.nil_append, pushAll_take] at taken

theorem position_take (inside : k ≤ records.length) : (new.pushAll (records.take k)).1.position = k := by
  rw [position_pushAll, List.length_take, Nat.min_eq_left inside]
  exact Nat.zero_add k

/-- What becomes of a record, by its fault after the accepted ones before it. -/
theorem result_cases (there : records[k]? = some record) :
    ((new.pushAll records).2[k]? = some (.ok ()) ∧
        ∀ reason, ¬ record.Fault (accepted (records.take k) ((new.pushAll records).2.take k)) reason) ∨
      ∃ reason, (new.pushAll records).2[k]? = some (.error ⟨k, record.id, reason⟩) ∧
        (new.pushAll (records.take (k + 1))).1 = ⟨(new.pushAll (records.take k)).1.drafts, k + 1⟩ ∧
        record.Fault (accepted (records.take k) ((new.pushAll records).2.take k)) reason := by
  have position := position_take (Nat.le_of_lt (List.getElem?_eq_some_iff.mp there).1)
  obtain ⟨result, next⟩ := new.getElem?_pushAll there
  rw [result, next]
  cases (taken_take records k).push record with
  | inl done =>
    obtain ⟨ok, -, fine⟩ := done
    exact .inl ⟨by rw [ok], fine⟩
  | inr failed =>
    obtain ⟨reason, refused, fault⟩ := failed
    rw [refused, position]
    exact .inr ⟨reason, rfl, rfl, fault⟩

theorem result_of_fault {reason : MalformedReason} (there : records[k]? = some record)
    (fault : record.Fault (accepted (records.take k) ((new.pushAll records).2.take k)) reason) :
    (new.pushAll records).2[k]? = some (.error ⟨k, record.id, reason⟩) := by
  cases result_cases there with
  | inl fine => exact absurd fault (fine.2 reason)
  | inr refused =>
    obtain ⟨other, result, -, also⟩ := refused
    rwa [also.unique fault] at result

theorem result_of_faultless (there : records[k]? = some record)
    (fine : ∀ reason, ¬ record.Fault (accepted (records.take k) ((new.pushAll records).2.take k)) reason) :
    (new.pushAll records).2[k]? = some (.ok ()) := by
  cases result_cases there with
  | inl taken => exact taken.1
  | inr refused =>
    obtain ⟨reason, -, -, fault⟩ := refused
    exact absurd fault (fine reason)

theorem refused_cases {m : MalformedRecord} (refused : (new.pushAll records).2[k]? = some (.error m)) :
    k < records.length ∧ m.position = k ∧ (∃ record, records[k]? = some record ∧ m.id = record.id) ∧
      (new.pushAll (records.take (k + 1))).1 = ⟨(new.pushAll (records.take k)).1.drafts, k + 1⟩ := by
  have inside : k < records.length := by
    simpa using (List.getElem?_eq_some_iff.mp refused).1
  have there := List.getElem?_eq_getElem inside
  cases result_cases there with
  | inl taken =>
    rw [refused] at taken
    cases taken.1
  | inr failed =>
    obtain ⟨reason, result, next, -⟩ := failed
    rw [refused] at result
    obtain rfl := Except.error.inj (Option.some.inj result)
    exact ⟨inside, rfl, ⟨_, there, rfl⟩, next⟩

/-- How records come through one builder that goes on after those that it refuses. -/
structure IgnoresRefused (records : List Record) (b : HeapGraphBuilder)
    (results : List (Except MalformedRecord Unit)) : Prop where
  /-- The accepted records alone are all accepted by a new builder. -/
  accepted_again : ∀ result ∈ (new.pushAll (accepted records results)).2, result = .ok ()
  /-- They lead to the same graph. -/
  finish_eq : b.finish = (new.pushAll (accepted records results)).1.finish
  finishes : ∃ g, b.finish.outcome.1 = .ok g
  /-- A refused record changes nothing but the position. -/
  untouched : ∀ (k : Nat) m, results[k]? = some (.error m) →
    (new.pushAll (records.take k)).1.position = k ∧
      (new.pushAll (records.take (k + 1))).1 = ⟨(new.pushAll (records.take k)).1.drafts, k + 1⟩
  /-- It is reported at its place among all records. -/
  reported : ∀ (k : Nat) m, results[k]? = some (.error m) →
    m.position = k ∧ ∃ record, records[k]? = some record ∧ m.id = record.id
  root : ∀ (k : Nat) id kind, records[k]? = some (.root id kind) → results[k]? = some (.ok ())
  /-- An id stays taken once a record that defines it is accepted. -/
  repeated : ∀ (k : Nat) shape entry, records[k]? = some (.object shape entry) →
    DefinedBefore records results k entry.id → results[k]? = some (.error ⟨k, entry.id, .duplicateId⟩)
  /-- Until then it is free, whatever records that bear it were refused. -/
  free : ∀ (k : Nat) shape entry, records[k]? = some (.object shape entry) →
    ¬ DefinedBefore records results k entry.id → shape.LaidOut entry.references → results[k]? = some (.ok ())
  misplaced : ∀ (k : Nat) shape entry reason, records[k]? = some (.object shape entry) →
    ¬ DefinedBefore records results k entry.id →
    shape.FirstOffence entry.references.length 0 entry.references reason →
    results[k]? = some (.error ⟨k, entry.id, reason⟩)

/-- Refused records leave no trace in the builder but the positions that they use up. -/
theorem pushAll_ignores_refused (records : List Record) :
    IgnoresRefused records (new.pushAll records).1 (new.pushAll records).2 := by
  have again := pushAll_accepted (rfl : new.drafts = new.drafts) records
  constructor
  · exact again.2
  · simp only [finish, again.1]
  · exact ⟨_, (finish_runs _).returns.outcome_eq⟩
  · intro k m refused
    obtain ⟨inside, -, -, next⟩ := refused_cases refused
    exact ⟨position_take (Nat.le_of_lt inside), next⟩
  · intro k m refused
    obtain ⟨-, position, named, -⟩ := refused_cases refused
    exact ⟨position, named⟩
  · intro k id kind there
    apply result_of_faultless there
    intro reason fault
    cases fault
  · intro k shape entry there known
    exact result_of_fault there (.repeated (mem_defined_accepted.mpr known))
  · intro k shape entry there unknown laidOut
    apply result_of_faultless there
    intro reason fault
    cases fault with
    | repeated known => exact unknown (mem_defined_accepted.mp known)
    | misplaced _ offence => exact laidOut.not_firstOffence offence
  · intro k shape entry reason there unknown offence
    exact result_of_fault there (.misplaced (fun known => unknown (mem_defined_accepted.mp known)) offence)

/-- The id of a refused record is taken by the next one that bears it, and refused from then on. -/
example : (new.pushAll
    [.root ⟨2⟩ .thread,
      .object .instanceObject ⟨⟨2⟩, none, 16, [⟨.staticField "shared", none, true⟩]⟩,
      .object .objectArray ⟨⟨2⟩, none, 24, [⟨.element 0, some ⟨2⟩, true⟩]⟩,
      .object .primitiveArray ⟨⟨2⟩, none, 8, []⟩]).2 =
    [.ok (), .error ⟨1, ⟨2⟩, .staticOnInstance "shared"⟩, .ok (), .error ⟨3, ⟨2⟩, .duplicateId⟩] := rfl

end Retention.HeapGraphBuilder
