/-!
# Errors

The errors a caller is told about: a configuration that cannot run, columns that do not form a
table, a group column that does not exist.  `Error.message` holds their wording.
-/

namespace TimeWeighted

/-- What a configuration lacks. -/
inductive ConfigProblem where
  | noWorkers
  | emptyFrames
  | noFunctions
  deriving DecidableEq, Repr

/-- What is missing, in words. -/
def ConfigProblem.message : ConfigProblem → String
  | noWorkers => "workers must be at least 1"
  | emptyFrames => "frame size must be at least 1"
  | noFunctions => "at least one aggregate function is required"

/-- An error reported to the caller. -/
inductive Error where
  /-- The settings of a query cannot be run. -/
  | invalidConfig (problem : ConfigProblem)
  /-- A column of a table has `actual` rows where the first column has `expected`. -/
  | columnMismatch (expected actual : Nat)
  /-- The column to group by does not exist or holds no symbols. -/
  | unknownColumn (column : Nat)
  deriving DecidableEq, Repr

namespace Error

/-- The kind of an error, the word its message starts with. -/
def kind : Error → String
  | invalidConfig _ => "InvalidConfig"
  | columnMismatch _ _ => "ColumnMismatch"
  | unknownColumn _ => "UnknownColumn"

/-- What the error is about. -/
def detail : Error → String
  | invalidConfig problem => problem.message
  | columnMismatch expected actual => s!"expected {expected} rows, got {actual}"
  | unknownColumn column => toString column

/-- The text of an error: its kind, then what it is about. -/
def message (error : Error) : String :=
  s!"{error.kind}: {error.detail}"

end Error

end TimeWeighted
