import TimeWeighted.Table

/-!
# Sources

A source is what an aggregate reads from a row: a value or a timestamp.  `Source.column` takes
them from a column as they are.
-/

namespace TimeWeighted

/-- Values and timestamps computed from rows. -/
structure Source where
  /-- How the source is shown. -/
  label : String
  /-- The value of a row, `NaN` if it has none. -/
  float : Row → Float
  /-- The timestamp of a row. -/
  timestamp : Row → Timestamp

/-- The cells of one column. -/
def Source.column (i : Nat) : Source where
  label := s!"Column({i})"
  float row := row.float i
  timestamp row := row.timestamp i

end TimeWeighted
