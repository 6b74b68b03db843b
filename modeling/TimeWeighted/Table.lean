import TimeWeighted.Error
import TimeWeighted.Observation

/-!
# Tables

A table has columns of one length, each holding floats, timestamps or symbols.  A row is a position
in a table; reading a column from it never fails, what cannot be had reads as missing.

* `Table.ofColumns` : a table, unless the columns differ in length.
* `Row.float`, `Row.timestamp`, `Row.symbol` : reading a cell as one of the three kinds.
* `Frame`, `Table.frame`, `Table.frameCount` : the table cut into ranges of rows.
-/

namespace TimeWeighted

/-- A column of cells of one kind. -/
inductive Column where
  /-- Floats, `NaN` where a value is missing. -/
  | floats (cells : Array Float)
  /-- Timestamps, `Timestamp.null` where one is missing. -/
  | timestamps (cells : Array Timestamp)
  /-- Symbols to group by. -/
  | symbols (cells : Array String)
  deriving BEq

namespace Column

/-- The number of cells. -/
def size : Column → Nat
  | floats cells => cells.size
  | timestamps cells => cells.size
  | symbols cells => cells.size

/-- Whether the column holds symbols. -/
def isSymbols : Column → Bool
  | symbols _ => true
  | floats _ | timestamps _ => false

end Column

/-- Columns of one length. -/
structure Table where
  /-- The columns, in order. -/
  columns : Array Column
  /-- The length of every column. -/
  rowCount : Nat
  /-- No column is shorter or longer. -/
  size_eq : ∀ c ∈ columns, c.size = rowCount

/-- Tables are equal if their columns are; a `NaN` makes a column differ from itself. -/
instance : BEq Table where
  beq a b := a.columns == b.columns && a.rowCount == b.rowCount

/-- A position in a table. -/
structure Row where
  /-- The table. -/
  table : Table
  /-- The position, which may lie beyond the last row; then every cell is missing. -/
  index : Nat

/-- A range of consecutive rows. -/
structure Frame where
  /-- The first row of the range. -/
  start : Nat
  /-- The first row after the range. -/
  stop : Nat
  deriving DecidableEq, Repr

/-- The rows of a frame, in order. -/
def Frame.indices (frame : Frame) : List Nat :=
  List.range' frame.start (frame.stop - frame.start)

namespace Table

/-- The table with the given columns.  The first column fixes the number of rows, and the first
one that differs from it is reported. -/
def ofColumns (columns : Array Column) : Except Error Table :=
  let rowCount := (columns[0]?.map Column.size).getD 0
  match h : columns.find? fun c => c.size != rowCount with
  | some c => .error (.columnMismatch rowCount c.size)
  | none => .ok { columns, rowCount, size_eq := by simpa [Array.find?_eq_none] using h }

/-- The column at a position. -/
def column? (table : Table) (i : Nat) : Option Column :=
  table.columns[i]?

/-- The row at a position. -/
def row (table : Table) (index : Nat) : Row :=
  ⟨table, index⟩

/-- The number of frames of `size` rows, the last of which may be shorter. -/
def frameCount (table : Table) (size : Nat) : Nat :=
  (table.rowCount + (size - 1)) / size

/-- The frame `i` of `size` rows. -/
def frame (table : Table) (size i : Nat) : Frame :=
  ⟨i * size, min (i * size + size) table.rowCount⟩

end Table

namespace Row

/-- The float in a column; a timestamp reads as the float nearest to it. -/
def float (row : Row) (column : Nat) : Float :=
  match row.table.column? column with
  | some (.floats cells) => cells[row.index]?.getD missingValue
  | some (.timestamps cells) =>
    match cells[row.index]? with
    | some ts => if ts = Timestamp.null then missingValue else ts.toFloat
    | none => missingValue
  | some (.symbols _) | none => missingValue

/-- The timestamp in a column. -/
def timestamp (row : Row) (column : Nat) : Timestamp :=
  match row.table.column? column with
  | some (.timestamps cells) => cells[row.index]?.getD Timestamp.null
  | some (.floats _) | some (.symbols _) | none => Timestamp.null

/-- The symbol in a column. -/
def symbol (row : Row) (column : Nat) : Option String :=
  match row.table.column? column with
  | some (.symbols cells) => cells[row.index]?
  | some (.floats _) | some (.timestamps _) | none => none

end Row

end TimeWeighted
