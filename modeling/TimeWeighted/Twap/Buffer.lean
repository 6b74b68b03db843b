import TimeWeighted.Arena.Basic
import TimeWeighted.Observation
import TimeWeighted.Slots

/-!
# Buffers

A buffer is a growing array of encoded observations in an arena, in the order they arrived.  The
arena holds the entries; the buffer itself is only a place, a count and a capacity, and lives in
three slots of a group record.  Entries are never moved in place: a full buffer is copied to twice
the room, and its old bytes stay behind until the arena is reset.

* `Buffer.load`, `Buffer.store` : the three slots.
* `Buffer.first`, `Buffer.push` : starting a buffer and appending to it.
* `Buffer.entries` : the observations in a buffer.
-/

namespace TimeWeighted

/-- Where the observations of a group are, how many there are, and how many have room. -/
structure Buffer where
  /-- The place of the first entry; a buffer without entries may have none. -/
  start : Option Handle
  /-- The number of entries. -/
  count : Nat
  /-- The number of entries there is room for. -/
  capacity : Nat
  deriving DecidableEq, Repr

namespace Buffer

/-- The capacity of the first buffer of a group. -/
def initialCapacity : Nat := 16

/-- The number of slots a buffer is kept in. -/
def slotCount : Nat := 3

/-- The buffer with nothing in it. -/
def empty : Buffer := ⟨none, 0, 0⟩

/-- The length in a slot; a negative number reads as zero. -/
def lengthOfSlot (slot : Int64) : Nat :=
  slot.toInt.toNat

/-- The greatest length a slot can hold. -/
def maxLength : Nat := 0x7fffffffffffffff

/-- The slot that holds a length; lengths that are too great for a slot become the greatest. -/
def slotOfLength (n : Nat) : Int64 :=
  Int64.ofNat (min n maxLength)

/-- The buffer in the slots from `i` on: place, count and capacity. -/
def load (record : SlotRecord) (i : Nat) : Except Fault Buffer := do
  let count ← record.read (i + 1)
  let start ← record.read i
  let capacity ← record.read (i + 2)
  return ⟨Handle.ofSlot? start, lengthOfSlot count, lengthOfSlot capacity⟩

/-- Writes the buffer into the slots from `i` on, one after the other. -/
def store (buffer : Buffer) (i : Nat) : SlotM Unit := do
  SlotRecord.write i (buffer.start.elim 0 Handle.toSlot)
  SlotRecord.write (i + 1) (slotOfLength buffer.count)
  SlotRecord.write (i + 2) (slotOfLength buffer.capacity)

/-- The place of the first entry, if there is an entry. -/
def place? (buffer : Buffer) : Option Handle :=
  if buffer.count = 0 then none else buffer.start

/-- Bytes taken by `n` entries. -/
def byteLength (n : Nat) : Except Fault Nat :=
  checkedLength (n * Observation.width)

/-- The place of the entry `i` of the entries from `start` on. -/
def entryPlace (start : Handle) (i : Nat) : Except Fault Handle := do
  start.offsetBy (← byteLength i)

/-- A buffer with one observation, or the empty buffer if that observation is not valid. -/
def first (o : Observation) : ArenaM Buffer :=
  if o.isValid then do
    let start ← Arena.alloc (← byteLength initialCapacity)
    Arena.write start o.encode
    return ⟨some start, 1, initialCapacity⟩
  else
    return empty

/-- The place and the capacity of `count` entries at `start` once there is room for one more: a
full buffer moves to a new place with twice the capacity. -/
def makeRoom (start : Handle) (count capacity : Nat) : ArenaM (Handle × Nat) :=
  if count < capacity then return (start, capacity)
  else do
    let grown := max (capacity * 2) initialCapacity
    let target ← Arena.alloc (← byteLength grown)
    Arena.copyWithin start target (← byteLength count)
    return (target, grown)

/-- Appends a valid observation; one that is not valid is passed over.  A buffer without entries
starts afresh. -/
def push (buffer : Buffer) (o : Observation) : ArenaM Buffer :=
  if o.isValid then
    match buffer.place? with
    | none => first o
    | some start => do
      let (start, capacity) ← makeRoom start buffer.count buffer.capacity
      Arena.write (← entryPlace start buffer.count) o.encode
      return ⟨some start, buffer.count + 1, capacity⟩
  else
    return buffer

/-- The observations in the buffer, in order. -/
def entries (buffer : Buffer) (arena : Arena) : Except Fault (List Observation) :=
  match buffer.start with
  | none => return []
  | some start => do
    let bytes ← arena.read start (← byteLength buffer.count)
    return Observation.decodeRun bytes buffer.count

end Buffer

end TimeWeighted
