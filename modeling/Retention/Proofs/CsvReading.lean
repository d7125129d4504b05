import Retention.Table

namespace Retention

/-- The table with these columns whose rows hold these values. -/
def Table.ofRows (names : List String) (rows : List (List (Option Nat))) : Table :=
  ⟨names.zipIdx.map fun (name, k) => ⟨name, rows.map fun row => (row[k]?).join⟩⟩

namespace Csv

/-- The lines of a text, of which every one has an end. -/
def lines? (text : List Char) : Option (List (List Char)) :=
  let pieces := text.splitOn '\n'
  if pieces.getLast? = some [] then some pieces.dropLast else none

/-- The value of a cell. -/
def value? (cell : List Char) : Option (Option Nat) :=
  if cell = [] then some none
  else if cell.all Char.isDigit then some (some (Nat.ofDigitChars 10 cell 0))
  else none

/-- The values of a line of so many cells. -/
def row? (width : Nat) (line : List Char) : Option (List (Option Nat)) :=
  let cells := line.splitOn ','
  if cells.length = width then cells.mapM value? else none

/-- Reads a text: the names of the columns are in the first line, and each other line is a row. -/
def read? (text : String) : Option Table :=
  match lines? text.toList with
  | some (header :: later) =>
    let names := (header.splitOn ',').map String.ofList
    (later.mapM (row? names.length)).map (Table.ofRows names)
  | _ => none

variable {c : Char} {cells lines : List (List Char)} {names : List String} {row : List (Option Nat)}
  {rows : List (List (Option Nat))}

theorem isDigit_of_mem_cell {v : Option Nat} (h : c ∈ cell v) : c.isDigit = true := by
  cases v with
  | none => simp [cell] at h
  | some n => exact Nat.isDigit_of_mem_toDigits (by decide) (by decide) h

theorem not_mem_cell {v : Option Nat} (sign : c.isDigit = false) : c ∉ cell v := by
  intro h
  rw [isDigit_of_mem_cell h] at sign
  cases sign

theorem value?_cell (v : Option Nat) : value? (cell v) = some v := by
  cases v with
  | none => rfl
  | some n =>
    have digits : (cell (some n)).all Char.isDigit = true := List.all_eq_true.mpr fun c => isDigit_of_mem_cell
    have written : cell (some n) ≠ [] := Nat.toDigits_ne_nil
    rw [value?, if_neg written, if_pos digits]
    simp [cell, decimal]

/-- Values that are read as they were written are so also in a list. -/
theorem mapM_map_eq_some {α β : Type} {read : β → Option α} {write : α → β} {items : List α}
    (h : ∀ a ∈ items, read (write a) = some a) : (items.map write).mapM read = some items := by
  induction items with
  | nil => rfl
  | cons a rest ih =>
    have later := ih fun b hb => h b (List.mem_cons_of_mem _ hb)
    simp [List.mapM_cons, h a List.mem_cons_self, later]

/-- A line has no signs but those of its cells and commas. -/
theorem not_mem_intercalate (other : c ≠ ',') (h : ∀ cell ∈ cells, c ∉ cell) : c ∉ [','].intercalate cells := by
  induction cells with
  | nil => simp
  | cons first rest ih =>
    have here := h first List.mem_cons_self
    have later := ih fun cell hc => h cell (List.mem_cons_of_mem _ hc)
    by_cases last : rest = []
    · simp [last, here]
    · simp [List.intercalate_cons_of_ne_nil last, here, other, later]

/-- Lines that have an end are found again. -/
theorem lines?_flatMap (whole : ∀ line ∈ lines, '\n' ∉ line) :
    lines? (lines.flatMap fun line => line ++ ['\n']) = some lines := by
  have split : (lines.flatMap fun line => line ++ ['\n']) = ['\n'].intercalate (lines ++ [[]]) := by
    induction lines with
    | nil => rfl
    | cons line later ih =>
      have rest := ih fun line hl => whole line (List.mem_cons_of_mem _ hl)
      rw [List.flatMap_cons, rest, List.cons_append, List.intercalate_cons_of_ne_nil (by simp)]
  have pieces : (['\n'].intercalate (lines ++ [[]])).splitOn '\n' = lines ++ [[]] := by
    apply List.splitOn_intercalate
    · intro line hl
      cases List.mem_append.mp hl with
      | inl line' => exact whole line line'
      | inr last => simp [List.mem_singleton.mp last]
    · simp
  simp [lines?, split, pieces]

/-- A row of values is read as it was written. -/
theorem row?_line (filled : row ≠ []) : row? row.length ([','].intercalate (row.map cell)) = some row := by
  have split : ([','].intercalate (row.map cell)).splitOn ',' = row.map cell := by
    apply List.splitOn_intercalate
    · intro cell hc
      obtain ⟨v, -, rfl⟩ := List.mem_map.mp hc
      exact not_mem_cell (by decide)
    · simpa using filled
  have values : (row.map cell).mapM value? = some row := mapM_map_eq_some fun v _ => value?_cell v
  simp [row?, split, values]

/-- A text is read as the table that was written. -/
theorem read?_text (named : names ≠ []) (plain : ∀ name ∈ names, ',' ∉ name.toList ∧ '\n' ∉ name.toList)
    (square : ∀ row ∈ rows, row.length = names.length) :
    read? (text names rows) = some (Table.ofRows names rows) := by
  have broken : (text names rows).toList = ([','].intercalate (names.map String.toList) ::
      rows.map fun row => [','].intercalate (row.map cell)).flatMap fun line => line ++ ['\n'] := by
    simp [text, line, List.flatMap_map]
  have whole : lines? (text names rows).toList = some ([','].intercalate (names.map String.toList) ::
      rows.map fun row => [','].intercalate (row.map cell)) := by
    rw [broken]
    apply lines?_flatMap
    intro line hl
    cases List.mem_cons.mp hl with
    | inl first =>
      rw [first]
      apply not_mem_intercalate (by decide)
      intro cell hc
      obtain ⟨name, hn, rfl⟩ := List.mem_map.mp hc
      exact (plain name hn).2
    | inr later =>
      obtain ⟨row, -, rfl⟩ := List.mem_map.mp later
      apply not_mem_intercalate (by decide)
      intro cell hc
      obtain ⟨v, -, rfl⟩ := List.mem_map.mp hc
      exact not_mem_cell (by decide)
  have header : ([','].intercalate (names.map String.toList)).splitOn ',' = names.map String.toList := by
    apply List.splitOn_intercalate
    · intro cell hc
      obtain ⟨name, hn, rfl⟩ := List.mem_map.mp hc
      exact (plain name hn).1
    · simpa using named
  have later : (rows.map fun row => [','].intercalate (row.map cell)).mapM (row? names.length) = some rows := by
    apply mapM_map_eq_some
    intro row hr
    rw [← square row hr]
    apply row?_line
    intro empty
    have wide := square row hr
    rw [empty] at wide
    exact named (List.length_eq_zero_iff.mp wide.symm)
  simp [read?, whole, header, later]

end Csv

end Retention
