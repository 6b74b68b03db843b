import TimeWeighted.Fault
import TimeWeighted.Bytes.LittleEndian

/-!
# Observations

An observation is a value seen at a point in time.  Times are microseconds in 64 signed bits, the
least of which means "no time"; a value that is not a number means "no value".  In memory an
observation takes `Observation.width` bytes: the time, then the bits of the value, both
little-endian.

* `Sample` : time and value, over any number type; an `Observation` is a `Sample` of floats.
* `Observation.isValid` : both parts are there.
* `Observation.encodeInto`, `Observation.decode`, `Observation.decodeTimestamp` : the codec.
-/

namespace TimeWeighted

/-- A point in time, in microseconds. -/
abbrev Timestamp := Int64

namespace Timestamp

/-- The timestamp that stands for a missing one. -/
def null : Timestamp := Int64.minValue

/-- The float nearest to a timestamp. -/
def toFloat (ts : Timestamp) : Float :=
  Float.ofInt ts.toInt

end Timestamp

/-- The float that stands for a missing value. -/
def missingValue : Float := Float.ofBits 0x7ff8000000000000

/-- A value seen at a point in time. -/
structure Sample (α : Type) where
  /-- When it was seen. -/
  ts : Timestamp
  /-- What was seen. -/
  value : α
  deriving DecidableEq, Repr

/-- Observations are compared by time and by float equality, under which no `NaN` equals itself
and the two zeros are equal. -/
instance {α : Type} [BEq α] : BEq (Sample α) where
  beq a b := a.ts == b.ts && a.value == b.value

/-- A sample of a float, as it is buffered and integrated. -/
abbrev Observation := Sample Float

namespace Observation

open LittleEndian

/-- Bytes taken by an encoded observation. -/
def width : Nat := 16

/-- Whether the observation has both a time and a value. -/
def isValid (o : Observation) : Bool :=
  o.ts != Timestamp.null && !o.value.isNaN

/-- The encoded form: the time, then the bits of the value. -/
def encode (o : Observation) : ByteArray :=
  (digits 8 o.ts.toUInt64.toNat ++ digits 8 o.value.toBits.toNat).toByteArray

@[simp] theorem size_encode (o : Observation) : o.encode.size = width := by
  simp [encode, width]

/-- The time encoded at offset `i`. -/
def timestampAt (bytes : ByteArray) (i : Nat) : Timestamp :=
  (wordAt bytes i).toInt64

/-- The observation encoded at offset `i`. -/
def ofBytesAt (bytes : ByteArray) (i : Nat) : Observation where
  ts := timestampAt bytes i
  value := Float.ofBits (wordAt bytes (i + 8))

/-- Writes the encoded form over the start of a buffer. -/
def encodeInto (o : Observation) (buffer : ByteArray) : Except Fault ByteArray :=
  if width ≤ buffer.size then .ok (o.encode.copySlice 0 buffer 0 width)
  else .error .outOfBounds

/-- Reads an observation from the start of a buffer; what follows it is ignored. -/
def decode (bytes : ByteArray) : Except Fault Observation :=
  if width ≤ bytes.size then .ok (ofBytesAt bytes 0) else .error .outOfBounds

/-- Reads the time alone, for which the first half of an encoded observation is enough. -/
def decodeTimestamp (bytes : ByteArray) : Except Fault Timestamp :=
  if 8 ≤ bytes.size then .ok (timestampAt bytes 0) else .error .outOfBounds

/-- The first `count` observations of a run of encoded ones. -/
def decodeRun (bytes : ByteArray) (count : Nat) : List Observation :=
  (List.range count).map fun i => ofBytesAt bytes (i * width)

end Observation

end TimeWeighted
