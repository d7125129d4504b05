import Retention.Snapshot

namespace Retention

structure Column where
  name : String
  values : List (Option Nat)
  deriving DecidableEq

structure Table where
  columns : List Column
  deriving DecidableEq

namespace Csv

def decimal (n : Nat) : List Char := Nat.toDigits 10 n

def cell (value : Option Nat) : List Char := value.elim [] decimal

/-- A line of cells, each but the first after a comma. -/
def line (cells : List (List Char)) : List Char := [','].intercalate cells ++ ['\n']

/-- A line of names and a line for each row. -/
def text (names : List String) (rows : List (List (Option Nat))) : String :=
  String.ofList (line (names.map String.toList) ++ rows.flatMap fun row => line (row.map cell))

end Csv

namespace Table

def height (t : Table) : Nat := (t.columns.head?).elim 0 fun c => c.values.length

end Table

/-- One exported object; no dominator means that the roots retain it together. -/
structure RetentionRow where
  id : ObjectId
  dominator : Option ObjectId
  shallow : UInt64
  retained : UInt64
  deriving DecidableEq

namespace RetentionRow

/-- The fields of a line; an object without a dominator leaves the field empty. -/
def fields (r : RetentionRow) : List (Option Nat) :=
  [some r.id.value.toNat, r.dominator.map fun d => d.value.toNat, some r.shallow.toNat,
    some r.retained.toNat]

end RetentionRow

namespace Snapshot

/-- The objects that strong references reach, by id. -/
def retentionRows (s : Snapshot) : List RetentionRow :=
  (s.graph.sortById s.reachablePlaces).map fun i =>
    { id := s.graph.idOf i
      dominator :=
        match s.tree.idomOf i with
        | some (.node d) => some (s.graph.idOf d)
        | _ => none
      shallow := s.graph.shallowSizeOf i
      retained := s.retained.sizeOf i }

def retentionColumns : List String := ["id", "dominator", "shallow", "retained"]

/-- The exported objects as text. -/
def csv (s : Snapshot) : String := Csv.text retentionColumns (s.retentionRows.map RetentionRow.fields)

/-- The exported objects as columns. -/
def retentionTable (s : Snapshot) : Table :=
  let rows := s.retentionRows
  ⟨[⟨"id", rows.map fun r => some r.id.value.toNat⟩,
    ⟨"dominator", rows.map fun r => r.dominator.map fun d => d.value.toNat⟩,
    ⟨"shallow", rows.map fun r => some r.shallow.toNat⟩,
    ⟨"retained", rows.map fun r => some r.retained.toNat⟩]⟩

end Snapshot

namespace Table

/-- The rows of the table, cell by cell. -/
def rows (t : Table) : List (List (Option Nat)) :=
  (List.range t.height).map fun k => t.columns.map fun c => (c.values[k]?).join

/-- The table as text. -/
def csv (t : Table) : String := Csv.text (t.columns.map Column.name) t.rows

/-- The depth counts of one snapshot or more below each other, each with its number. -/
def depths (first : Snapshot) (others : List Snapshot) : Table :=
  let rows := (first :: others).zipIdx.flatMap fun (s, iteration) =>
    s.dominatorDepths.map fun (depth, count) => (depth, count, iteration)
  ⟨[⟨"depth", rows.map fun r => some r.1⟩,
    ⟨"counts", rows.map fun r => some r.2.1⟩,
    ⟨"iteration", rows.map fun r => some r.2.2⟩]⟩

end Table

end Retention
