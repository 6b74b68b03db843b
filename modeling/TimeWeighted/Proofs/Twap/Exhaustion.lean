import Mathlib
import TimeWeighted.Proofs.Twap.Updates

/-!
# Updates without room

An update of a record allocates at most one buffer, and does so before it changes anything else.  So
if that buffer does not fit, the record and the arena are left as they were, and the value of the
record is the one it had.

* `Twap.Update` : the first row of a group, a further row, another record of the group.
* `Twap.Update.room` : how many entries the buffer has to have room for that an update allocates.
* `Twap.Update.outcome` : an update goes through, or there is no room and almost nothing changes.
* `Twap.Update.atomic` : **an update faults exactly for want of room, and then nothing has
  happened.**
-/

namespace TimeWeighted

open Observation

/-- The slots of the record from `i` on spell a buffer in the arena. -/
def SlotRecord.WellFormed (record : SlotRecord) (i : ℕ) (a : Arena) : Prop :=
  ∃ (b : Buffer) (s : Shelf), b.InSlots record i ∧ b.Holds a s

/-! ### Bytes as entries -/

namespace Buffer

variable {b incoming : Buffer} {a source : Arena} {s t : Shelf}

/-- The entries there has to be room for if a buffer is started. -/
def firstRoom (o : Observation) : ℕ :=
  if o.isValid then initialCapacity else 0

/-- The entries there has to be new room for if an observation is appended. -/
def pushRoom (b : Buffer) (o : Observation) : ℕ :=
  if o.isValid then
    if b.count = 0 then initialCapacity
    else if b.count < b.capacity then 0
    else max (b.capacity * 2) initialCapacity
  else 0

/-- The entries there has to be new room for if another buffer is merged. -/
def mergeRoom (b incoming : Buffer) : ℕ :=
  if incoming.count = 0 then 0
  else if b.count = 0 then max initialCapacity incoming.count
  else b.count + incoming.count

theorem firstBytes_eq (o : Observation) : Shelf.firstBytes o = width * firstRoom o := by
  unfold Shelf.firstBytes firstRoom
  split_ifs <;> rfl

theorem Holds.pushBytes_eq (h : b.Holds a s) (o : Observation) :
    s.pushBytes o = width * b.pushRoom o := by
  unfold Shelf.pushBytes Shelf.firstBytes Shelf.grownCapacity pushRoom
  simp only [h.entries_eq_nil_iff, h.length_eq, ← h.capacity_eq]
  split_ifs <;> rfl

theorem Holds.mergeBytes_eq (h : b.Holds a s) (hin : incoming.Holds source t) :
    s.mergeBytes t.entries = width * b.mergeRoom incoming := by
  unfold Shelf.mergeBytes Shelf.merge mergeRoom
  simp only [h.entries_eq_nil_iff, hin.entries_eq_nil_iff]
  split_ifs <;> simp [h.length_eq, hin.length_eq]

end Buffer

namespace Twap

/-- The updates of a record that may need room. -/
inductive Update where
  /-- The first row of its group. -/
  | first (row : Row)
  /-- A further row. -/
  | next (row : Row)
  /-- Another record of the group, with the arena its buffer lies in. -/
  | merge (other : SlotRecord) (source : Arena)

/-- What is remembered is right for the arena, and the slots of the record spell a buffer in it. -/
structure WellFormed (twap : Twap) (record : SlotRecord) : Prop where
  /-- What is remembered is right. -/
  memo : twap.RightMemo
  /-- The record has the slots, and they spell a buffer. -/
  record : record.WellFormed twap.slotIndex twap.arena

/-- Whatever the family of buffers that an aggregate keeps, all records of it are well-formed. -/
theorem Keeps.wellFormed {ι : Type} {twap : Twap} {buffer : ι → Buffer} {shelf : ι → Shelf} {v : ι}
    {record : SlotRecord} (h : twap.Keeps buffer shelf)
    (hslots : (buffer v).InSlots record twap.slotIndex) : twap.WellFormed record :=
  ⟨h.rightMemo, buffer v, shelf v, hslots, h.holds v⟩

namespace Update

/-- Carries out the update. -/
def run : Update → UpdateM Twap Unit
  | first row => Aggregate.first row
  | next row => Aggregate.next row
  | merge other source => Aggregate.merge other source

/-- The other record, if there is one, is well-formed, too. -/
def WellFormed (i : ℕ) : Update → Prop
  | merge other source => other.WellFormed i source
  | first _ | next _ => True

/-- How many entries the buffer has to have room for that an update of the record allocates; zero if
it does not allocate any. -/
def room (twap : Twap) (record : SlotRecord) : Update → Except Fault ℕ
  | first row => return Buffer.firstRoom (twap.observe row)
  | next row => return (← Buffer.load record twap.slotIndex).pushRoom (twap.observe row)
  | merge other _ => do
    let b ← Buffer.load record twap.slotIndex
    return b.mergeRoom (← Buffer.load other twap.slotIndex)

/-- The updates that leave the arena at its size. -/
inductive Spares (twap : Twap) (record : SlotRecord) : Update → Prop where
  /-- A further row without a valid observation. -/
  | invalidRow {row : Row} (invalid : (twap.observe row).isValid = false) :
      Spares twap record (next row)
  /-- A further row for a buffer with entries and with room for one more. -/
  | inPlace {row : Row} {b : Buffer} (load : Buffer.load record twap.slotIndex = .ok b)
      (count_pos : 0 < b.count) (count_lt : b.count < b.capacity) : Spares twap record (next row)
  /-- Another record without entries. -/
  | emptySource {other : SlotRecord} {source : Arena} {incoming : Buffer}
      (load : Buffer.load other twap.slotIndex = .ok incoming) (count_eq : incoming.count = 0) :
      Spares twap record (merge other source)

/-- What an update of the record may end in if it needs room for `n` entries. -/
inductive Outcome (twap : Twap) (record : SlotRecord) (n : ℕ)
    (result : EStateM.Result Fault (Twap × SlotRecord) Unit) : Prop where
  /-- The entries fit, and the arena has grown by them. -/
  | done {twap' : Twap} {record' : SlotRecord} (eq : result = .ok () (twap', record'))
      (fits : Arena.grown twap.arena.size (width * n) < Handle.offsetSpan)
      (size_eq : twap'.arena.size = Arena.grown twap.arena.size (width * n))
  /-- The entries do not fit.  At most what was remembered is forgotten. -/
  | full {memo : Option Memo} (eq : result = .error .arenaExhausted ({ twap with memo }, record))
      (full : Handle.offsetSpan ≤ Arena.grown twap.arena.size (width * n))
      (memo_eq : memo = none ∨ memo = twap.memo)

variable {twap : Twap} {record : SlotRecord} {n : ℕ}
  {result : EStateM.Result Fault (Twap × SlotRecord) Unit}

theorem Outcome.error_iff (h : Outcome twap record n result) :
    (∃ fault after, result = .error fault after) ↔
      0 < n ∧ Handle.offsetSpan ≤ twap.arena.nextOffset + width * n := by
  have hpos : 0 < width * n ↔ 0 < n := Nat.mul_pos_iff_of_pos_left (by decide)
  rw [← hpos, ← Arena.offsetSpan_le_grown_iff]
  cases h with
  | done eq fits size_eq =>
    refine iff_of_false ?_ (Nat.not_le.2 fits)
    rintro ⟨fault, after, hafter⟩
    cases eq.symm.trans hafter
  | full eq full memo_eq => exact iff_of_true ⟨_, _, eq⟩ full

theorem Outcome.size_eq {twap' : Twap} {record' : SlotRecord} (h : Outcome twap record n result)
    (hok : result = .ok () (twap', record')) :
    twap'.arena.size = if n = 0 then twap.arena.size else twap.arena.nextOffset + width * n := by
  cases h with
  | full eq full memo_eq => cases eq.symm.trans hok
  | done eq fits size_eq =>
    cases eq.symm.trans hok
    have hzero : width * n = 0 ↔ n = 0 := by simp [width]
    rw [size_eq, Arena.grown]
    exact if_congr hzero rfl rfl

theorem Outcome.of_error {fault : Fault} {twap' : Twap} {record' : SlotRecord}
    (h : Outcome twap record n result) (herror : result = .error fault (twap', record')) :
    fault = .arenaExhausted ∧ record' = record ∧
      ∃ memo, (memo = none ∨ memo = twap.memo) ∧ twap' = { twap with memo } := by
  cases h with
  | done eq fits size_eq => cases eq.symm.trans herror
  | full eq full memo_eq =>
    cases eq.symm.trans herror
    exact ⟨rfl, rfl, _, memo_eq, rfl⟩

theorem Outcome.of_change {b : Buffer} {s : Shelf} {bytes : ℕ}
    (h : twap.Change b s bytes record result) (hbytes : bytes = width * n) :
    Outcome twap record n result := by
  subst hbytes
  cases h with
  | done eq memo_eq holds change size_eq =>
    exact .done eq (size_eq ▸ Arena.size_lt_offsetSpan _) size_eq
  | full eq memo_eq full => exact .full eq full memo_eq

/-- An update goes through, or there is no room for what it needs and next to nothing changes. -/
theorem outcome (update : Update) (h : twap.WellFormed record)
    (hupdate : update.WellFormed twap.slotIndex) :
    ∃ n, update.room twap record = .ok n ∧ Outcome twap record n (update.run (twap, record)) := by
  obtain ⟨b, s, hslots, hholds⟩ := h.record
  have hload := hslots.load hholds.storable
  cases update with
  | first row =>
    have hchange := change_start b hslots.size_le (twap.observe row)
    exact ⟨_, rfl, .of_change hchange (Buffer.firstBytes_eq _)⟩
  | next row =>
    have hchange := change_append hholds hslots (twap.observe row)
    refine ⟨_, ?_, .of_change hchange (hholds.pushBytes_eq _)⟩
    rw [room, hload]
    rfl
  | merge other source =>
    obtain ⟨incoming, t, hin, hsource⟩ := hupdate
    have hchange := change_absorb hholds hslots hin hsource
    refine ⟨_, ?_, .of_change hchange (hholds.mergeBytes_eq hsource)⟩
    rw [room, hload, hin.load hsource.storable]
    rfl

theorem Spares.room_eq {update : Update} (h : update.Spares twap record)
    (hn : update.room twap record = .ok n) : n = 0 := by
  cases h with
  | invalidRow invalid =>
    obtain ⟨b, -, hb⟩ := exists_of_bind_ok hn
    simpa [Buffer.pushRoom, invalid] using (Except.ok.inj hb).symm
  | inPlace load count_pos count_lt =>
    rw [room, load] at hn
    have hne := Nat.pos_iff_ne_zero.1 count_pos
    simpa [Buffer.pushRoom, hne, count_lt] using (Except.ok.inj hn).symm
  | emptySource load count_eq =>
    obtain ⟨b, -, hb⟩ := exists_of_bind_ok hn
    rw [load] at hb
    simpa [Buffer.mergeRoom, count_eq] using (Except.ok.inj hb).symm

/-- If all that was forgotten is a remembered value, the record has the value that it had. -/
theorem value_forget {memo : Option Memo} (h : twap.WellFormed record)
    (hmemo : memo = none ∨ memo = twap.memo) :
    ∃ x after after', Aggregate.value record twap = .ok x after ∧
      Aggregate.value record { twap with memo } = .ok x after' := by
  obtain ⟨b, s, hslots, hholds⟩ := h.record
  have hright : ({ twap with memo } : Twap).RightMemo := by
    intro m hm
    rcases hmemo with rfl | rfl
    · cases hm
    · exact h.memo m hm
  obtain ⟨memo₁, hvalue, -⟩ := h.memo.value_apply hholds hslots
  obtain ⟨memo₂, hvalue', -⟩ := hright.value_apply hholds hslots
  exact ⟨_, _, _, hvalue, hvalue'⟩

/-- **An update faults exactly for want of room, and then nothing has happened.**  The only fault is
that the one buffer which has to be allocated would end past the last offset; it leaves the slots of
the record and the arena as they were, so that the record has the same value as before.  A further
row that is not valid or that finds room in its buffer, and another record without entries, go
through however full the arena is. -/
theorem atomic (update : Update) (h : twap.WellFormed record)
    (hupdate : update.WellFormed twap.slotIndex) :
    (∃ n, update.room twap record = .ok n ∧
      ((∃ fault after, update.run (twap, record) = .error fault after) ↔
        0 < n ∧ Handle.offsetSpan ≤ twap.arena.nextOffset + width * n) ∧
      ∀ twap' record', update.run (twap, record) = .ok () (twap', record') →
        twap'.arena.size = if n = 0 then twap.arena.size else twap.arena.nextOffset + width * n) ∧
    (∀ fault twap' record', update.run (twap, record) = .error fault (twap', record') →
      fault = .arenaExhausted ∧ record' = record ∧ twap'.arena = twap.arena ∧
      ∃ x after after', Aggregate.value record twap = .ok x after ∧
        Aggregate.value record' twap' = .ok x after') ∧
    (update.Spares twap record → ∃ after, update.run (twap, record) = .ok () after) := by
  obtain ⟨n, hroom, hout⟩ := update.outcome h hupdate
  refine ⟨⟨n, hroom, hout.error_iff, fun _ _ => hout.size_eq⟩, ?_, ?_⟩
  · intro fault twap' record' herror
    obtain ⟨rfl, rfl, memo, hmemo, rfl⟩ := hout.of_error herror
    exact ⟨rfl, rfl, rfl, value_forget h hmemo⟩
  · intro hspares
    cases hrun : update.run (twap, record) with
    | ok answer after => exact ⟨after, rfl⟩
    | error fault after =>
      obtain ⟨hpos, -⟩ := hout.error_iff.1 ⟨fault, after, hrun⟩
      exact absurd (hspares.room_eq hroom) (Nat.pos_iff_ne_zero.1 hpos)

end Update

end Twap

/-! ### An arena without a byte to spare -/

/-- An arena with one observation at its start and no offset left. -/
def Arena.crammed (id : ArenaId) (o : Observation) : Arena where
  id
  bytes := o.encode ++ zeros (Handle.offsetSpan - 1 - width)
  size_lt := by
    simp only [ByteArray.size_append, size_zeros, o.size_encode, Handle.offsetSpan, width]
    decide

theorem Arena.size_crammed (id : ArenaId) (o : Observation) :
    (crammed id o).size = Handle.offsetSpan - 1 := by
  simp only [size, crammed, ByteArray.size_append, size_zeros, o.size_encode, Handle.offsetSpan,
    width]

theorem Buffer.holds_crammed (id : ArenaId) (o : Observation) :
    Buffer.Holds ⟨some (.make id 0), 1, 1⟩ (.crammed id o) ⟨[o], 1⟩ := by
  have hsize := Arena.size_crammed id o
  have hextract : (Arena.crammed id o).bytes.extract 0 width = o.encode :=
    ByteArray.extract_append_eq_left o.size_encode.symm
  have hrun : (Arena.crammed id o).observations 0 1 = [o] := Arena.observations_succ hextract
  refine .inr ⟨.make id 0, rfl, ⟨Handle.arenaId_make id 0, ?_⟩, ?_, Nat.one_pos, le_rfl, ?_, rfl⟩
  · rw [Handle.offset_make, hsize]
    simp [width, Handle.offsetSpan]
  · rw [Handle.offset_make]
    rfl
  · rw [Handle.offset_make]
    exact hrun

/-- A further row for the full buffer in that arena faults and leaves everything as it is; a row
that is not valid goes through. -/
theorem Twap.Update.atomic_crammed :
    let table : Table :=
      ⟨#[.floats #[5, 5], .timestamps #[0, Timestamp.null]], 2, by simp [Column.size]⟩
    let id : ArenaId := ⟨1, by decide⟩
    let twap : Twap := ⟨.column 0, .column 1, .crammed id ⟨0, 5⟩, none, 0⟩
    let record : SlotRecord := ⟨#[(Handle.make id 0).toSlot, 1, 1]⟩
    twap.WellFormed record ∧
    (∃ twap', (next (table.row 0)).run (twap, record) = .error .arenaExhausted (twap', record) ∧
      twap'.arena = twap.arena ∧ ∃ x after after', Aggregate.value record twap = .ok x after ∧
        Aggregate.value record twap' = .ok x after') ∧
    ∃ after, (next (table.row 1)).run (twap, record) = .ok () after := by
  intro table id twap record
  have hslots : Buffer.InSlots ⟨some (.make id 0), 1, 1⟩ record 0 := ⟨rfl, rfl, rfl⟩
  have hholds := Buffer.holds_crammed id ⟨0, 5⟩
  have hmemo : twap.RightMemo := by
    intro m hm
    cases hm
  have h : twap.WellFormed record := ⟨hmemo, _, _, hslots, hholds⟩
  refine ⟨h, ?_, ?_⟩
  · obtain ⟨⟨n, hroom, hiff, -⟩, hfault, -⟩ := atomic (next (table.row 0)) h trivial
    have hvalid : (twap.observe (table.row 0)).isValid = true := by decide +kernel
    have hn : n = Buffer.initialCapacity := by
      rw [room, hslots.load hholds.storable] at hroom
      simpa [Buffer.pushRoom, hvalid, Buffer.initialCapacity] using (Except.ok.inj hroom).symm
    have hfull : Handle.offsetSpan ≤ twap.arena.nextOffset + width * n := by
      rw [Arena.nextOffset, Arena.size_crammed, hn]
      decide
    obtain ⟨fault, ⟨twap', record'⟩, hrun⟩ := hiff.2 ⟨by rw [hn]; decide, hfull⟩
    obtain ⟨rfl, rfl, harena, hvalue⟩ := hfault fault twap' record' hrun
    exact ⟨twap', hrun, harena, hvalue⟩
  · exact (atomic (next (table.row 1)) h trivial).2.2 (.invalidRow (by decide +kernel))

end TimeWeighted
