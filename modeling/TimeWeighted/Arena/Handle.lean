import TimeWeighted.Fault
import TimeWeighted.Arena.Id

/-!
# Handles

A handle names a place in an arena: the arena's id in the upper 16 bits of a word, the byte offset
in the lower 48.  The word is never zero, so that a 64-bit slot can hold a handle or, as zero, none.

* `Handle.make` : the handle of an offset in an arena.
* `Handle.offsetBy` : moving a handle on; offsets wrap at 48 bits and never touch the id.
* `Handle.toSlot`, `Handle.ofSlot?` : the signed slot a handle is stored in.
* `Handle.arenaId_make`, `Handle.offset_make`, `Handle.ofSlot?_toSlot` : nothing is lost.
-/

namespace TimeWeighted

/-- A place in an arena, packed into a word. -/
structure Handle where
  /-- The id in the upper 16 bits, the offset in the lower 48. -/
  word : UInt64
  /-- Zero is no handle. -/
  word_ne_zero : word ≠ 0
  deriving DecidableEq, Repr

namespace Handle

/-- The number of offsets a handle can hold, one for each value of 48 bits. -/
def offsetSpan : Nat := 0x1000000000000

/-- The id of the arena the handle points into. -/
def arenaId (h : Handle) : Nat :=
  h.word.toNat / offsetSpan

/-- The offset in bytes from the start of the arena. -/
def offset (h : Handle) : Nat :=
  h.word.toNat % offsetSpan

/-- Id and offset side by side in one word; an offset keeps its lower 48 bits. -/
def pack (arenaId offset : Nat) : UInt64 :=
  UInt64.ofNat (arenaId * offsetSpan + offset % offsetSpan)

theorem toNat_pack {arenaId : Nat} (h : arenaId < 65536) (offset : Nat) :
    (pack arenaId offset).toNat = arenaId * offsetSpan + offset % offsetSpan := by
  simp only [pack, offsetSpan, UInt64.toNat_ofNat']
  omega

theorem pack_ne_zero (id : ArenaId) (offset : Nat) : pack id.val.toNat offset ≠ 0 := by
  intro h
  have h' := congrArg UInt64.toNat h
  rw [toNat_pack id.toNat_lt] at h'
  have := id.toNat_pos
  simp only [offsetSpan, UInt64.reduceToNat] at h'
  omega

/-- The handle of an offset in the arena `id`. -/
def make (id : ArenaId) (offset : Nat) : Handle :=
  ⟨pack id.val.toNat offset, pack_ne_zero id offset⟩

/-- The handle `bytes` further on in the same arena. -/
def offsetBy (h : Handle) (bytes : Nat) : Except Fault Handle := do
  let target ← checkedLength (h.offset + bytes)
  if hw : pack h.arenaId target ≠ 0 then .ok ⟨pack h.arenaId target, hw⟩
  else .error .zeroHandle

/-- The slot that holds a handle. -/
def toSlot (h : Handle) : Int64 :=
  h.word.toInt64

/-- The handle in a slot, if it holds one. -/
def ofSlot? (slot : Int64) : Option Handle :=
  if h : slot.toUInt64 ≠ 0 then some ⟨slot.toUInt64, h⟩ else none

theorem arenaId_lt (h : Handle) : h.arenaId < 65536 := by
  have := h.word.toNat_lt
  simp only [arenaId, offsetSpan]
  omega

theorem offset_lt (h : Handle) : h.offset < offsetSpan :=
  Nat.mod_lt _ (by decide)

@[simp] theorem arenaId_make (id : ArenaId) (offset : Nat) :
    (make id offset).arenaId = id.val.toNat := by
  simp only [arenaId, make, toNat_pack id.toNat_lt, offsetSpan]
  omega

@[simp] theorem offset_make (id : ArenaId) (offset : Nat) :
    (make id offset).offset = offset % offsetSpan := by
  simp only [Handle.offset, make, toNat_pack id.toNat_lt, offsetSpan]
  omega

@[simp] theorem ofSlot?_toSlot (h : Handle) : ofSlot? h.toSlot = some h := by
  have hw : h.toSlot.toUInt64 = h.word := rfl
  simp [ofSlot?, hw, h.word_ne_zero]

end Handle

end TimeWeighted
