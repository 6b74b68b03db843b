import TimeWeighted.Aggregate.Basic
import TimeWeighted.Average
import TimeWeighted.Source
import TimeWeighted.Twap.BufferMerge

/-!
# The time-weighted average price

The aggregate `Twap` gathers the valid observations of every group in a buffer and averages them
when the value is asked for.  It remembers the value it computed last together with the place and
the count of the buffer it came from, and answers from memory while both stay the same.

* `Twap.start`, `Twap.append`, `Twap.absorb`, `Twap.clear` : changes to the record of a group.
* `Twap.value` : the value of a record.
* the instance `Aggregate Twap`.
-/

namespace TimeWeighted

/-- The value of a buffer, remembered. -/
structure Memo where
  /-- The place of the buffer. -/
  start : Handle
  /-- The number of entries it had. -/
  count : Nat
  /-- Their average. -/
  value : Float

namespace Memo

/-- The remembered value, if it is that of the buffer. -/
def lookup (memo : Option Memo) (buffer : Buffer) : Option Float :=
  memo.bind fun m =>
    if buffer.start = some m.start ∧ buffer.count = m.count then some m.value else none

/-- What to remember of a buffer; nothing, if it has no place. -/
def ofBuffer (buffer : Buffer) (value : Float) : Option Memo :=
  buffer.start.map fun start => ⟨start, buffer.count, value⟩

end Memo

/-- A time-weighted average of the values of one source at the times of another. -/
structure Twap where
  /-- Where values come from. -/
  valueSource : Source
  /-- Where timestamps come from. -/
  timeSource : Source
  /-- Where observations are kept. -/
  arena : Arena
  /-- The value computed last. -/
  memo : Option Memo := none
  /-- Where the slots of the buffer start. -/
  slotIndex : Nat := 0

namespace Twap

/-- A new aggregate with an arena of its own. -/
def create (valueSource timeSource : Source) : Factory Twap := do
  return { valueSource, timeSource, arena := ← Arena.fresh }

/-- A new aggregate that reads values and timestamps from two columns. -/
def ofColumns (valueColumn timeColumn : Nat) : Factory Twap :=
  create (.column valueColumn) (.column timeColumn)

/-- A short description: the sources and where the slots start. -/
def describe (twap : Twap) : String :=
  s!"twap({twap.valueSource.label}, {twap.timeSource.label})@{twap.slotIndex}"

/-- The observation in a row. -/
def observe (twap : Twap) (row : Row) : Observation where
  ts := twap.timeSource.timestamp row
  value := twap.valueSource.float row

/-- Runs an operation on the arena of the aggregate. -/
def onArena {α : Type} (operation : ArenaM α) : UpdateM Twap α :=
  -- The aggregate is taken apart first: an arena with one owner is changed in place.
  fun (⟨valueSource, timeSource, arena, memo, slotIndex⟩, record) =>
    match operation arena with
    | .ok a arena => .ok a (⟨valueSource, timeSource, arena, memo, slotIndex⟩, record)
    | .error fault arena =>
      .error fault (⟨valueSource, timeSource, arena, memo, slotIndex⟩, record)

theorem onArena_apply {α : Type} (operation : ArenaM α) (twap : Twap) (record : SlotRecord) :
    onArena operation (twap, record) =
      match operation twap.arena with
      | .ok a arena => .ok a ({ twap with arena }, record)
      | .error fault arena => .error fault ({ twap with arena }, record) :=
  rfl

/-- Runs an operation on the record of the group. -/
def onRecord {α : Type} (operation : SlotM α) : UpdateM Twap α :=
  fun (twap, record) =>
    match operation record with
    | .ok a record => .ok a (twap, record)
    | .error fault record => .error fault (twap, record)

/-- Starts the record of a group with an observation and forgets the remembered value. -/
def start (o : Observation) : UpdateM Twap Unit := do
  modify fun (twap, record) => ({ twap with memo := none }, record)
  let buffer ← onArena (Buffer.first o)
  onRecord (buffer.store (← get).1.slotIndex)

/-- Appends an observation to the record of a group; one that is not valid changes nothing. -/
def append (o : Observation) : UpdateM Twap Unit := do
  if o.isValid then
    let i := (← get).1.slotIndex
    let buffer ← Buffer.load (← get).2 i
    let buffer ← onArena (buffer.push o)
    onRecord (buffer.store i)

/-- Merges the observations of another record, which lie in the arena `source`; a record without
any changes nothing. -/
def absorb (other : SlotRecord) (source : Arena) : UpdateM Twap Unit := do
  let i := (← get).1.slotIndex
  let incoming ← Buffer.load other i
  if incoming.count ≠ 0 then
    let buffer ← Buffer.load (← get).2 i
    let buffer ← onArena (buffer.merge incoming source)
    onRecord (buffer.store i)

/-- Empties the record of a group. -/
def clear : UpdateM Twap Unit := do
  onRecord (Buffer.empty.store (← get).1.slotIndex)

/-- The average of the observations of a record, remembered or computed. -/
def value (record : SlotRecord) : EStateM Fault Twap Float := do
  let twap ← get
  let buffer ← Buffer.load record twap.slotIndex
  if buffer.count = 0 then
    return missingValue
  match Memo.lookup twap.memo buffer with
  | some value => return value
  | none =>
    let value := Observation.average (← buffer.entries twap.arena)
    set { twap with memo := Memo.ofBuffer buffer value }
    return value

end Twap

instance : Aggregate Twap where
  name _ := "twap"
  register layout twap :=
    ({ twap with slotIndex := layout.size }, layout.addMany .long Buffer.slotCount)
  slotIndex := Twap.slotIndex
  setSlotIndex i twap := { twap with slotIndex := i }
  adopt arena twap := { twap with arena, memo := none }
  arena := Twap.arena
  first row := do Twap.start ((← get).1.observe row)
  next row := do Twap.append ((← get).1.observe row)
  merge := Twap.absorb
  clear := Twap.clear
  value := Twap.value
  capabilities _ := { parallel := true, fill := .all }

end TimeWeighted
