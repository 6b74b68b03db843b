/-!
# Arena ids

Arenas are told apart by 16-bit ids.  Ids are drawn from one 64-bit counter by keeping its low 16
bits; zero is never handed out, so that a handle, which holds an id, is never the zero word.

* `IdSupply.take` : the next id, drawing again when the low bits are zero.
* `IdSupply.take_counter` : one call draws at most twice.
* `ArenaId.since` : how far apart two ids are in the cycle of 65535.
-/

namespace TimeWeighted

/-- The id of an arena: 16 bits that are not all zero. -/
structure ArenaId where
  /-- The bits of the id. -/
  val : UInt16
  /-- Zero is no id. -/
  val_ne_zero : val ≠ 0
  deriving DecidableEq, Repr

namespace ArenaId

/-- The number of different ids, after which they repeat. -/
def period : Nat := 65535

/-- How many ids were taken after `base` up to `id`, disregarding whole rounds. -/
def since (base id : Nat) : Nat :=
  (id + period - base) % period

theorem toNat_pos (id : ArenaId) : 0 < id.val.toNat := by
  have h := id.val_ne_zero
  rcases Nat.eq_zero_or_pos id.val.toNat with h0 | h0
  · exact absurd (UInt16.toNat_inj.1 h0) h
  · exact h0

theorem toNat_lt (id : ArenaId) : id.val.toNat < 65536 :=
  id.val.toNat_lt

end ArenaId

/-- The counter all ids are drawn from. -/
structure IdSupply where
  /-- The number the next draw takes its bits from. -/
  counter : UInt64 := 1
  deriving DecidableEq, Repr

namespace IdSupply

/-- The low 16 bits of the counter. -/
def low (supply : IdSupply) : UInt16 :=
  supply.counter.toUInt16

/-- The supply after one draw; the counter wraps at 64 bits. -/
def advance (supply : IdSupply) : IdSupply :=
  ⟨supply.counter + 1⟩

theorem toNat_low (supply : IdSupply) : supply.low.toNat = supply.counter.toNat % 65536 := by
  simp [low]

/-- Of two draws in a row at most the first is zero. -/
theorem low_advance_ne_zero {supply : IdSupply} (h : supply.low = 0) : supply.advance.low ≠ 0 := by
  intro h'
  have h1 := congrArg UInt16.toNat h
  have h2 := congrArg UInt16.toNat h'
  simp only [toNat_low, advance, UInt64.toNat_add, UInt64.reduceToNat, UInt16.reduceToNat] at h1 h2
  omega

/-- Takes the next id: draws until the low bits are not zero. -/
def take (supply : IdSupply) : ArenaId × IdSupply :=
  if h : supply.low = 0 then supply.advance.take
  else (⟨supply.low, h⟩, supply.advance)
termination_by if supply.low = 0 then 1 else 0
decreasing_by simp [h, low_advance_ne_zero h]

theorem take_of_ne_zero {supply : IdSupply} (h : supply.low ≠ 0) :
    supply.take = (⟨supply.low, h⟩, supply.advance) := by
  rw [take, dif_neg h]

theorem take_of_eq_zero {supply : IdSupply} (h : supply.low = 0) :
    supply.take = (⟨supply.advance.low, low_advance_ne_zero h⟩, supply.advance.advance) := by
  rw [take, dif_pos h, take_of_ne_zero (low_advance_ne_zero h)]

/-- One call draws from the counter once, or twice if the first draw was zero. -/
theorem take_counter (supply : IdSupply) :
    supply.take.2 = if supply.low = 0 then supply.advance.advance else supply.advance := by
  split
  · next h => rw [take_of_eq_zero h]
  · next h => rw [take_of_ne_zero h]

end IdSupply

end TimeWeighted
