import TimeWeighted.Aggregate.Basic

/-!
# Recorded aggregates

A `Recorder` behaves as the aggregate inside and writes down what the engine asks of it.  Its
capabilities are its own, so that an aggregate can be run as if it had fewer.
-/

namespace TimeWeighted

/-- Something the engine asks of an aggregate. -/
inductive Call where
  /-- To take over an arena. -/
  | adopt
  /-- To take the first row of a group. -/
  | first (row : Nat)
  /-- To take a further row of a group. -/
  | next (row : Nat)
  /-- To merge another record. -/
  | merge
  /-- To empty a record. -/
  | clear
  /-- To compute a value. -/
  | value
  deriving DecidableEq, Repr

/-- The row that a call hands over, if it hands over one. -/
def Call.row? : Call → Option Nat
  | first row | next row => some row
  | adopt | merge | clear | value => none

/-- An aggregate and the calls made to it. -/
structure Recorder (φ : Type) where
  /-- The aggregate. -/
  inner : φ
  /-- What it may be used for. -/
  capabilities : Capabilities
  /-- The calls so far, in order. -/
  calls : Array Call := #[]

namespace Recorder

variable {φ : Type}

/-- Writes down a call and passes it on. -/
def passOn (call : Call) (update : UpdateM φ Unit) : UpdateM (Recorder φ) Unit :=
  fun (⟨inner, capabilities, calls⟩, record) =>
    let calls := calls.push call
    match update (inner, record) with
    | .ok a (inner, record) => .ok a (⟨inner, capabilities, calls⟩, record)
    | .error fault (inner, record) => .error fault (⟨inner, capabilities, calls⟩, record)

/-- Writes down that a value was asked for and computes it. -/
def value [Aggregate φ] (record : SlotRecord) : EStateM Fault (Recorder φ) Float :=
  fun ⟨inner, capabilities, calls⟩ =>
    let calls := calls.push .value
    match Aggregate.value record inner with
    | .ok a inner => .ok a ⟨inner, capabilities, calls⟩
    | .error fault inner => .error fault ⟨inner, capabilities, calls⟩

/-- A recorder around a new instance, with the capabilities of that instance. -/
def observing [Aggregate φ] (factory : Factory φ) : Factory (Recorder φ) := do
  let inner ← factory
  return { inner, capabilities := Aggregate.capabilities inner }

/-- A recorder around a new instance, with the capabilities every aggregate has. -/
def restricting (factory : Factory φ) : Factory (Recorder φ) := do
  return { inner := ← factory, capabilities := {} }

instance [Aggregate φ] : Aggregate (Recorder φ) where
  name recorder := Aggregate.name recorder.inner
  register layout recorder :=
    let (inner, layout) := Aggregate.register layout recorder.inner
    ({ recorder with inner }, layout)
  slotIndex recorder := Aggregate.slotIndex recorder.inner
  setSlotIndex i recorder := { recorder with inner := Aggregate.setSlotIndex i recorder.inner }
  adopt arena recorder :=
    { recorder with
      inner := Aggregate.adopt arena recorder.inner
      calls := recorder.calls.push .adopt }
  arena recorder := Aggregate.arena recorder.inner
  first row := passOn (.first row.index) (Aggregate.first row)
  next row := passOn (.next row.index) (Aggregate.next row)
  merge other source := passOn .merge (Aggregate.merge other source)
  clear := passOn .clear Aggregate.clear
  value := Recorder.value
  capabilities recorder := recorder.capabilities

end Recorder

end TimeWeighted
