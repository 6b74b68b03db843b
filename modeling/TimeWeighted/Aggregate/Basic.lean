import TimeWeighted.Arena.Basic
import TimeWeighted.Slots
import TimeWeighted.Table
import TimeWeighted.Aggregate.FillPolicy

/-!
# Aggregates

An aggregate turns the rows of a group into one value.  The engine keeps one record of slots per
group and hands it to the aggregate with every row of that group; bytes that do not fit into slots
go to the arena the aggregate was given.  Workers gather records side by side, each with instances
and arenas of its own, and the records of one group are then merged into one.

* `Aggregate` : what the engine asks of an aggregate.
* `Capabilities` : what an aggregate can be used for, by default for nothing special.
* `UpdateM` : changes to an aggregate and the record of a group.
-/

namespace TimeWeighted

/-- What an aggregate can be used for. -/
structure Capabilities where
  /-- Records gathered apart can be merged. -/
  parallel : Bool := false
  /-- One instance may serve several workers. -/
  threadSafe : Bool := false
  /-- The value does not depend on the rows. -/
  constant : Bool := false
  /-- The ways to make up a value for an empty time bucket. -/
  fill : FillPolicies := .none
  deriving DecidableEq, Repr

/-- Changes to an aggregate and to the record of one group. -/
abbrev UpdateM (φ : Type) := EStateM Fault (φ × SlotRecord)

/-- Carries out an update whose fault ends everything. -/
def UpdateM.apply {φ : Type} (update : UpdateM φ Unit) (f : φ) (record : SlotRecord) :
    Except Fault (φ × SlotRecord) :=
  match update (f, record) with
  | .ok _ state => .ok state
  | .error fault _ => .error fault

/-- What the engine asks of an aggregate. -/
class Aggregate (φ : Type) where
  /-- The name used in queries. -/
  name : φ → String
  /-- Appends the slots it needs to a layout and remembers where they start. -/
  register : SlotLayout → φ → φ × SlotLayout
  /-- Where its slots start. -/
  slotIndex : φ → Nat
  /-- Sets where its slots start. -/
  setSlotIndex : Nat → φ → φ
  /-- Takes over an arena for everything it allocates. -/
  adopt : Arena → φ → φ
  /-- The arena it allocates in. -/
  arena : φ → Arena
  /-- The first row of a group. -/
  first : Row → UpdateM φ Unit
  /-- Every further row of a group. -/
  next : Row → UpdateM φ Unit
  /-- Adds the record of the same group that another instance gathered with another arena. -/
  merge : SlotRecord → Arena → UpdateM φ Unit
  /-- Makes the record that of a group without values. -/
  clear : UpdateM φ Unit
  /-- The value of a record, `NaN` if it has none. -/
  value : SlotRecord → EStateM Fault φ Float
  /-- What it can be used for. -/
  capabilities : φ → Capabilities := fun _ => {}

/-- Makes instances of an aggregate; every instance takes ids for the arenas it makes. -/
abbrev Factory (φ : Type) := StateM IdSupply φ

end TimeWeighted
