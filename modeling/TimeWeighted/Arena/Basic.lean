import TimeWeighted.Arena.Handle

/-!
# Arenas

An arena is a run of bytes that only grows until it is reset.  Allocations start at multiples of
eight and are zeroed; a handle names the place an allocation starts at.  Every access checks that
the handle belongs to the arena and that all bytes asked for have been allocated.

The operations that change an arena live in `ArenaM`.  Each checks first and changes afterwards, so
an operation that faults has changed nothing.

* `Arena.create` : an empty arena, with some room set aside.
* `Arena.alloc` : fresh zeroed bytes at the end.
* `Arena.read`, `Arena.write`, `Arena.copyWithin`, `Arena.copyFrom` : access through handles.
* `Arena.reset` : all bytes are given back and the arena takes a new id.
-/

namespace TimeWeighted

/-- A bump allocator: an id and the bytes handed out since the last reset. -/
structure Arena where
  /-- The id its handles carry. -/
  id : ArenaId
  /-- The bytes handed out, padding between allocations included. -/
  bytes : ByteArray
  /-- Every byte has an offset that a handle can hold, the last of which stays unused. -/
  size_lt : bytes.size < Handle.offsetSpan

/-- Operations on an arena that may fault. -/
abbrev ArenaM := EStateM Fault Arena

namespace Arena

/-- Allocations start at multiples of this. -/
def alignment : Nat := 8

/-- The most bytes that can be asked to be set aside: the greatest distance between two places in
memory, a signed 64-bit number. -/
def maxReservation : Nat := 0x7fffffffffffffff

/-- The most bytes that are set aside ahead of use, however many were asked for. -/
def reserveLimit : Nat := 0x100000

/-- The arena `id` before its first allocation.  Room for `reserve` bytes is set aside; that saves
work and changes no answer. -/
def empty (id : ArenaId) (reserve : Nat) : Arena where
  id
  bytes := .emptyWithCapacity (min reserve reserveLimit)
  size_lt := show 0 < Handle.offsetSpan by decide

/-- An empty arena with the next id and nothing set aside. -/
def fresh : StateM IdSupply Arena :=
  return empty (← modifyGet IdSupply.take) 0

/-- An empty arena with the next id and room for `reserve` bytes.  The id is taken first, and it is
gone even if more bytes are asked for than can be set aside. -/
def create (reserve : Nat) : EStateM Fault IdSupply Arena := do
  let id ← modifyGet IdSupply.take
  if reserve ≤ maxReservation then
    return empty id reserve
  else
    throw .reservationTooLarge

/-- Empty arenas differ in their ids only: the room set aside does not show. -/
theorem empty_eq (id : ArenaId) (reserve : Nat) : empty id reserve = empty id 0 :=
  rfl

/-- A reservation that is granted makes no difference. -/
theorem create_of_le {reserve : Nat} (h : reserve ≤ maxReservation) :
    create reserve = liftM fresh := by
  simp only [create, if_pos h]
  rfl

/-- The bytes allocated since the last reset, padding included. -/
def size (arena : Arena) : Nat :=
  arena.bytes.size

/-- Where the next allocation starts. -/
def nextOffset (arena : Arena) : Nat :=
  (arena.size + (alignment - 1)) / alignment * alignment

/-- `n` zero bytes. -/
def zeros (n : Nat) : ByteArray :=
  ⟨Array.replicate n 0⟩

@[simp] theorem size_zeros (n : Nat) : (zeros n).size = n := by
  simp [zeros, ByteArray.size]

/-- The arena with zero bytes up to the offset `stop`. -/
def growTo (arena : Arena) (stop : Nat) (h : stop < Handle.offsetSpan) : Arena where
  id := arena.id
  bytes := arena.bytes ++ zeros (stop - arena.bytes.size)
  size_lt := by
    have := arena.size_lt
    simp only [ByteArray.size_append, size_zeros]
    omega

/-- Allocates `size` zeroed bytes and returns a handle to the first. -/
def alloc (size : Nat) : ArenaM Handle := do
  let arena ← get
  let start := arena.nextOffset
  let stop ← checkedLength (start + size)
  if h : stop < Handle.offsetSpan then
    set (arena.growTo stop h)
    return .make arena.id start
  else
    throw .arenaExhausted

/-- Whether the handle points to a byte this arena has handed out since its last reset. -/
def owns (arena : Arena) (h : Handle) : Bool :=
  h.arenaId == arena.id.val.toNat && h.offset < arena.size

/-- Whether `len` bytes from `h` on may be accessed: none need no owner, but even then the offset
may not lie beyond the end. -/
def checkAccess (arena : Arena) (h : Handle) (len : Nat) : Except Fault Unit :=
  if !arena.owns h && len != 0 then .error .foreignHandle
  else if arena.size < h.offset + len then .error .outOfBounds
  else .ok ()

/-- The `len` bytes from `h` on. -/
def read (arena : Arena) (h : Handle) (len : Nat) : Except Fault ByteArray := do
  arena.checkAccess h len
  return arena.bytes.extract h.offset (h.offset + len)

/-- The arena with the bytes from `offset` on replaced by `chunk`, which has to fit. -/
def overwrite (arena : Arena) (offset : Nat) (chunk : ByteArray)
    (h : offset + chunk.size ≤ arena.bytes.size) : Arena where
  id := arena.id
  bytes := chunk.copySlice 0 arena.bytes offset chunk.size
  size_lt := by
    have := arena.size_lt
    have hc : chunk.data.size = chunk.size := rfl
    have ha : arena.bytes.data.size = arena.bytes.size := rfl
    simp only [ByteArray.copySlice_eq_append, ByteArray.size_append, ByteArray.size_extract, hc, ha]
    omega

/-- Writes `chunk` to the bytes from `h` on. -/
def write (h : Handle) (chunk : ByteArray) : ArenaM Unit := do
  let arena ← get
  arena.checkAccess h chunk.size
  if fits : h.offset + chunk.size ≤ arena.bytes.size then
    set (arena.overwrite h.offset chunk fits)
  else
    throw .outOfBounds

/-- Copies `len` bytes between two places of the arena.  The places may overlap: the target
receives the bytes that the source held before. -/
def copyWithin (src dst : Handle) (len : Nat) : ArenaM Unit := do
  let chunk ← (← get).read src len
  write dst chunk

/-- Copies `len` bytes from a place in the arena `source`. -/
def copyFrom (source : Arena) (src dst : Handle) (len : Nat) : ArenaM Unit := do
  let chunk ← source.read src len
  write dst chunk

/-- Gives all bytes back and takes a new id, so that no handle made before is owned any more. -/
def reset (arena : Arena) : StateM IdSupply Arena := do
  let id ← modifyGet IdSupply.take
  return { id, bytes := arena.bytes.extract 0 0, size_lt := by simp [Handle.offsetSpan] }

/-- A short description, in which the arena goes by the number `label`. -/
def describeAs (arena : Arena) (label : Nat) : String :=
  s!"Arena#{label}({arena.size} bytes)"

end Arena

end TimeWeighted
