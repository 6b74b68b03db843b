import TimeWeighted.Fault

/-!
# Group records

Every group has one record of 64-bit slots, shared by all aggregates of a query.  A layout says how
many slots there are; an aggregate appends the ones it needs and remembers where they start.

* `SlotLayout` : the slots registered so far; `SlotLayout.newRecord` makes a zeroed record.
* `SlotRecord` : the slots; reading or writing one that is not there faults.
-/

namespace TimeWeighted

/-- The type of a slot. -/
inductive SlotType where
  /-- A signed 64-bit integer. -/
  | long
  deriving DecidableEq, Repr

/-- The name of a slot type. -/
def SlotType.name : SlotType → String
  | long => "Long"

/-- The slots of one group. -/
structure SlotRecord where
  /-- The slots, in order. -/
  slots : Array Int64
  deriving DecidableEq, Repr

/-- Operations on a record that may fault. -/
abbrev SlotM := EStateM Fault SlotRecord

namespace SlotRecord

/-- The number of slots. -/
def size (record : SlotRecord) : Nat :=
  record.slots.size

/-- The slot `i`. -/
def read (record : SlotRecord) (i : Nat) : Except Fault Int64 :=
  match record.slots[i]? with
  | some x => .ok x
  | none => .error .outOfBounds

/-- Writes `x` to slot `i`. -/
def write (i : Nat) (x : Int64) : SlotM Unit := do
  let record ← get
  if h : i < record.slots.size then set (SlotRecord.mk (record.slots.set i x h))
  else throw .outOfBounds

end SlotRecord

/-- The types of the slots registered so far. -/
structure SlotLayout where
  /-- The types, in order. -/
  types : Array SlotType := #[]
  deriving DecidableEq, Repr

namespace SlotLayout

/-- The number of slots. -/
def size (layout : SlotLayout) : Nat :=
  layout.types.size

/-- Appends one slot. -/
def add (layout : SlotLayout) (type : SlotType) : SlotLayout :=
  ⟨layout.types.push type⟩

/-- Appends `n` slots of one type. -/
def addMany (layout : SlotLayout) (type : SlotType) (n : Nat) : SlotLayout :=
  ⟨layout.types ++ Array.replicate n type⟩

/-- The type of slot `i`, if there is one. -/
def type? (layout : SlotLayout) (i : Nat) : Option SlotType :=
  layout.types[i]?

/-- A record with every slot zero. -/
def newRecord (layout : SlotLayout) : SlotRecord :=
  ⟨Array.replicate layout.size 0⟩

end SlotLayout

end TimeWeighted
