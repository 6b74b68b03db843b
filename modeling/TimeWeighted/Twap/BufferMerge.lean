import TimeWeighted.Twap.Buffer

/-!
# Merging buffers

Two buffers in time order, each in an arena of its own, become one in the arena of the first.  The
result is always in fresh bytes, for the second arena may be gone soon, and of entries with equal
times those of the first buffer come first.

* `Buffer.weave` : entry by entry until one buffer is used up.
* `Buffer.merge` : the merged buffer.
-/

namespace TimeWeighted

namespace Buffer

/-- The time of the entry at `place`. -/
def timestampAt (arena : Arena) (place : Handle) : Except Fault Timestamp := do
  Observation.decodeTimestamp (← arena.read place Observation.width)

/-- Copies entries in time order from `dest` and from `src`, a run of `srcCount` entries in the
arena `source`, to the run at `out`, until one side is used up.  `i` and `j` entries have been taken
so far; the answer says how many were in the end. -/
def weave (dest : Handle) (destCount : Nat) (src : Handle) (srcCount : Nat) (source : Arena)
    (out : Handle) (i j : Nat) : ArenaM (Nat × Nat) :=
  if h : i < destCount ∧ j < srcCount then do
    let fromDest ← entryPlace dest i
    let fromSrc ← entryPlace src j
    let target ← entryPlace out (i + j)
    let destTs ← timestampAt (← get) fromDest
    let srcTs ← timestampAt source fromSrc
    if destTs ≤ srcTs then
      Arena.copyWithin fromDest target Observation.width
      weave dest destCount src srcCount source out (i + 1) j
    else
      Arena.copyFrom source fromSrc target Observation.width
      weave dest destCount src srcCount source out i (j + 1)
  else
    return (i, j)
termination_by (destCount - i) + (srcCount - j)

/-- Copies the `n` entries from `start` on to a new buffer in another arena. -/
def copyOver (start : Handle) (n : Nat) (source : Arena) : ArenaM Buffer := do
  let capacity := max initialCapacity n
  let target ← Arena.alloc (← byteLength capacity)
  Arena.copyFrom source start target (← byteLength n)
  return ⟨some target, n, capacity⟩

/-- Merges the entries at `dest` with those that `src` has in the arena `source`. -/
def mergeRuns (dest : Handle) (destCount : Nat) (src : Handle) (srcCount : Nat)
    (source : Arena) : ArenaM Buffer := do
  let count := destCount + srcCount
  let out ← Arena.alloc (← byteLength count)
  let (i, j) ← weave dest destCount src srcCount source out 0 0
  if i < destCount then
    Arena.copyWithin (← entryPlace dest i) (← entryPlace out (i + j))
      (← byteLength (destCount - i))
  if j < srcCount then
    Arena.copyFrom source (← entryPlace src j) (← entryPlace out (i + j))
      (← byteLength (srcCount - j))
  return ⟨some out, count, count⟩

/-- The buffer with the entries of `dest` and of `src`, which lives in the arena `source`.  Without
entries in `src` that is `dest` itself, without entries in `dest` a copy of `src`. -/
def merge (dest src : Buffer) (source : Arena) : ArenaM Buffer :=
  match src.place?, dest.place? with
  | none, _ => return dest
  | some incoming, none => copyOver incoming src.count source
  | some incoming, some start => mergeRuns start dest.count incoming src.count source

end Buffer

end TimeWeighted
