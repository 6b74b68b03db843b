import Mathlib
import TimeWeighted.Proofs.Buffer.Shelf

/-!
# Buffers in group records

A buffer takes three slots of a record.  Storing it writes these and no others, and what was stored
is loaded again, whatever the id of the arena: an id from 32768 on makes the first slot negative.

* `Buffer.InSlots` : the slots of a record from some index on spell a buffer.
* `Buffer.store_apply`, `Buffer.InSlots.load` : storing and loading.
* `Buffer.InSlots.withBuffer_of_apart` : storing at one index leaves the slots elsewhere alone.
* `Buffer.inSlots_update` : one of many records is replaced.
* `Handle.kept_and_moved` : **slots keep handles, and moves keep inside their arena.**
-/

namespace TimeWeighted

namespace SlotRecord

/-- The record with the slots from `i` on, as far as they are there, taken by a buffer. -/
def withBuffer (r : SlotRecord) (i : ℕ) (b : Buffer) : SlotRecord :=
  ⟨((r.slots.setIfInBounds i (b.start.elim 0 Handle.toSlot)).setIfInBounds (i + 1)
    (Buffer.slotOfLength b.count)).setIfInBounds (i + 2) (Buffer.slotOfLength b.capacity)⟩

theorem write_apply {r : SlotRecord} {i : ℕ} (h : i < r.size) (x : Int64) :
    write i x r = .ok () ⟨r.slots.setIfInBounds i x⟩ := by
  have h' : i < r.slots.size := h
  simp [write, h', Array.setIfInBounds]

@[simp] theorem size_withBuffer (r : SlotRecord) (i : ℕ) (b : Buffer) :
    (r.withBuffer i b).size = r.size := by
  simp [withBuffer, size]

theorem getElem?_withBuffer (r : SlotRecord) {i k : ℕ} (b : Buffer) (hk : k < i ∨ i + 2 < k) :
    (r.withBuffer i b).slots[k]? = r.slots[k]? := by
  rw [withBuffer, Array.getElem?_setIfInBounds_ne (by omega),
    Array.getElem?_setIfInBounds_ne (by omega), Array.getElem?_setIfInBounds_ne (by omega)]

theorem read_of_getElem? {r : SlotRecord} {i : ℕ} {x : Int64} (h : r.slots[i]? = some x) :
    r.read i = .ok x := by
  rw [read, h]

end SlotRecord

namespace Buffer

/-- The slots of a record from `i` on spell the buffer. -/
structure InSlots (b : Buffer) (r : SlotRecord) (i : ℕ) : Prop where
  /-- The first slot holds the place, or zero for none. -/
  start_eq : r.slots[i]? = some (b.start.elim 0 Handle.toSlot)
  /-- The second slot holds the count. -/
  count_eq : r.slots[i + 1]? = some (slotOfLength b.count)
  /-- The third slot holds the capacity. -/
  capacity_eq : r.slots[i + 2]? = some (slotOfLength b.capacity)

/-- The lengths of the buffer fit into slots. -/
def Storable (b : Buffer) : Prop :=
  b.count ≤ maxLength ∧ b.capacity ≤ maxLength

variable {b c : Buffer} {r : SlotRecord} {i j : ℕ}

theorem Holds.storable {a : Arena} {s : Shelf} (h : b.Holds a s) : b.Storable := by
  rcases h with ⟨rfl, -⟩ | ⟨p, h⟩
  · exact ⟨Nat.zero_le _, Nat.zero_le _⟩
  · have h1 := h.room_lt
    have h2 := h.count_le
    simp only [Handle.offsetSpan, Observation.width] at h1
    constructor <;> simp only [maxLength] <;> omega

theorem lengthOfSlot_slotOfLength {n : ℕ} (h : n ≤ maxLength) :
    lengthOfSlot (slotOfLength n) = n := by
  have hlt : n < 2 ^ 63 := by
    simp only [maxLength] at h
    omega
  rw [lengthOfSlot, slotOfLength, Nat.min_eq_left h, Int64.toInt_ofNat_of_lt hlt,
    Int.toNat_natCast]

theorem ofSlot?_elim (start : Option Handle) :
    Handle.ofSlot? (start.elim 0 Handle.toSlot) = start := by
  cases start with
  | none => exact dif_neg (fun h => h rfl)
  | some p => exact Handle.ofSlot?_toSlot p

theorem InSlots.size_le (h : b.InSlots r i) : i + slotCount ≤ r.size := by
  obtain ⟨hlt, -⟩ := Array.getElem?_eq_some_iff.1 h.capacity_eq
  exact hlt

/-- A buffer is loaded from the slots that spell it. -/
theorem InSlots.load (h : b.InSlots r i) (hb : b.Storable) : load r i = .ok b := by
  simp only [Buffer.load, SlotRecord.read_of_getElem? h.count_eq,
    SlotRecord.read_of_getElem? h.start_eq, SlotRecord.read_of_getElem? h.capacity_eq, ok_bind,
    ofSlot?_elim, lengthOfSlot_slotOfLength hb.1, lengthOfSlot_slotOfLength hb.2]
  rfl

/-- Storing a buffer in slots that are there. -/
theorem store_apply (b : Buffer) (h : i + slotCount ≤ r.size) :
    b.store i r = .ok () (r.withBuffer i b) := by
  simp only [slotCount] at h
  have h1 := SlotRecord.write_apply (show i < r.size by omega) (b.start.elim 0 Handle.toSlot)
  rw [store, bind_of_ok h1]
  have h2 := SlotRecord.write_apply (r := ⟨r.slots.setIfInBounds i (b.start.elim 0 Handle.toSlot)⟩)
    (i := i + 1) (by simpa [SlotRecord.size] using (show i + 1 < r.size by omega))
    (slotOfLength b.count)
  rw [bind_of_ok h2]
  exact SlotRecord.write_apply
    (by simpa [SlotRecord.size] using (show i + 2 < r.size by omega)) (slotOfLength b.capacity)

theorem inSlots_withBuffer (b : Buffer) (h : i + slotCount ≤ r.size) :
    b.InSlots (r.withBuffer i b) i := by
  have h' : i + 2 < r.slots.size := h
  constructor <;> simp [SlotRecord.withBuffer, Array.getElem?_setIfInBounds] <;> omega

/-- Storing a buffer leaves the slots of others alone. -/
theorem InSlots.withBuffer_of_apart (h : c.InSlots r j)
    (hij : i + slotCount ≤ j ∨ j + slotCount ≤ i) : c.InSlots (r.withBuffer i b) j := by
  simp only [slotCount] at hij
  have hout : ∀ k, j ≤ k → k ≤ j + 2 → (r.withBuffer i b).slots[k]? = r.slots[k]? :=
    fun k h1 h2 => r.getElem?_withBuffer b (by omega)
  exact ⟨(hout j le_rfl (by omega)).trans h.start_eq,
    (hout (j + 1) (by omega) (by omega)).trans h.count_eq,
    (hout (j + 2) (by omega) le_rfl).trans h.capacity_eq⟩

theorem InSlots.withBuffer_self (h : b.InSlots r i) : r.withBuffer i b = r := by
  have hset : ∀ {xs : Array Int64} {k : ℕ} {x : Int64}, xs[k]? = some x →
      xs.setIfInBounds k x = xs := by
    intro xs k x hx
    apply Array.ext_getElem?
    intro m
    rw [Array.getElem?_setIfInBounds]
    split_ifs <;> simp_all
  cases r with
  | mk slots =>
    rw [SlotRecord.withBuffer, hset h.start_eq, hset h.count_eq, hset h.capacity_eq]

theorem empty_inSlots_newRecord {layout : SlotLayout} (h : i + slotCount ≤ layout.size) :
    empty.InSlots layout.newRecord i := by
  simp only [slotCount] at h
  have hzero : ∀ k, k < layout.size → layout.newRecord.slots[k]? = some 0 := by
    intro k hk
    simp [SlotLayout.newRecord, hk]
  exact ⟨hzero _ (by omega), hzero _ (by omega), hzero _ (by omega)⟩

/-! ### Many records -/

section

variable {κ : Type} [DecidableEq κ] {records : κ → Option SlotRecord} {buffer : κ → Buffer} {k : κ}

/-- Records spell a family of buffers if the one that is replaced and the others do. -/
theorem inSlots_update (hk : (buffer k).InSlots r i)
    (hslots : ∀ l ≠ k, ∀ s, records l = some s → (buffer l).InSlots s i) :
    ∀ l s, Function.update records k (some r) l = some s → (buffer l).InSlots s i := by
  refine (Function.forall_update_iff records
    fun l x => ∀ s, x = some s → (buffer l).InSlots s i).2 ⟨?_, hslots⟩
  rintro s ⟨⟩
  exact hk

theorem inSlots_update_withBuffer (hr : records k = some r)
    (hslots : ∀ l s, records l = some s → (buffer l).InSlots s i) (b : Buffer) :
    ∀ l s, Function.update records k (some (r.withBuffer i b)) l = some s →
      (Function.update buffer k b l).InSlots s i := by
  refine inSlots_update ?_ fun l hl => ?_
  · rw [Function.update_self]
    exact inSlots_withBuffer b (hslots k r hr).size_le
  · rw [Function.update_of_ne hl]
    exact hslots l

theorem inSlots_update_of_apart (hr : records k = some r)
    (hslots : ∀ l s, records l = some s → (buffer l).InSlots s j)
    (hij : i + slotCount ≤ j ∨ j + slotCount ≤ i) (b : Buffer) :
    ∀ l s, Function.update records k (some (r.withBuffer i b)) l = some s →
      (buffer l).InSlots s j :=
  inSlots_update ((hslots k r hr).withBuffer_of_apart hij) fun l _ => hslots l

end

end Buffer

/-! ### Handles -/

namespace Handle

/-- **Slots keep handles, and moves keep inside their arena.**  A buffer with any place in any arena
and with any lengths that signed slots can hold is loaded as it was stored, no other slot of the
record is touched, and the slot of the place, which is negative for half of all ids, is never taken
for that of a buffer without a place.  A handle that is moved on keeps its arena id, its offset
wraps at 48 bits, and two moves are one; a move fails exactly if the sum does not fit into a word or
the moved handle would be the zero word. -/
theorem kept_and_moved :
    (∀ (id : ArenaId) (offset count capacity : ℕ) (record : SlotRecord) (i : ℕ),
      offset < offsetSpan → count < 2 ^ 63 → capacity < 2 ^ 63 → i + 2 < record.size →
      ∃ (record' : SlotRecord) (slot : Int64),
        let p := make id offset
        let b : Buffer := ⟨some p, count, capacity⟩
        p.arenaId = id.val.toNat ∧ p.offset = offset ∧
        b.store i record = .ok () record' ∧ Buffer.load record' i = .ok b ∧
        record'.size = record.size ∧
        (∀ k, k < i ∨ i + 2 < k → record'.slots[k]? = record.slots[k]?) ∧
        record'.read i = .ok slot ∧ slot ≠ 0 ∧ (slot < 0 ↔ 32768 ≤ id.val.toNat) ∧
        ofSlot? slot = some p) ∧
    ∀ (h : Handle) (n m : ℕ),
      (∀ q, h.offsetBy n = .ok q →
        q.arenaId = h.arenaId ∧ q.offset = (h.offset + n) % offsetSpan) ∧
      (∀ q r s, h.offsetBy n = .ok q → q.offsetBy m = .ok r → h.offsetBy (n + m) = .ok s →
        r = s) ∧
      ((∃ fault, h.offsetBy n = .error fault) ↔
        wordSpan ≤ h.offset + n ∨ (h.arenaId = 0 ∧ (h.offset + n) % offsetSpan = 0)) := by
  refine ⟨?_, fun h n m => ⟨?_, fun q r s => offsetBy_add, ?_⟩⟩
  · intro id offset count capacity record i hoffset hcount hcapacity hi
    let b : Buffer := ⟨some (make id offset), count, capacity⟩
    have hstorable : b.Storable := by
      constructor <;> simp only [b, Buffer.maxLength] <;> omega
    have hslots : b.InSlots (record.withBuffer i b) i := Buffer.inSlots_withBuffer b hi
    refine ⟨record.withBuffer i b, (make id offset).toSlot, arenaId_make id offset, ?_,
      Buffer.store_apply b hi, hslots.load hstorable, record.size_withBuffer i b,
      fun k => record.getElem?_withBuffer b, SlotRecord.read_of_getElem? hslots.start_eq,
      toSlot_ne_zero _, ?_, ofSlot?_toSlot _⟩
    · rw [offset_make, Nat.mod_eq_of_lt hoffset]
    · rw [toSlot_neg_iff, arenaId_make]
  · intro q hq
    exact (offsetBy_eq_ok_iff.1 hq).2
  · simp only [offsetBy_eq_error_iff]
    constructor
    · rintro ⟨fault, ⟨-, hge⟩ | ⟨-, -, hzero⟩⟩
      · exact .inl hge
      · exact .inr hzero
    · rcases Nat.lt_or_ge (h.offset + n) wordSpan with hlt | hge
      · intro hfails
        exact ⟨.zeroHandle, .inr ⟨rfl, hlt, hfails.resolve_left (Nat.not_le.2 hlt)⟩⟩
      · exact fun _ => ⟨.lengthOverflow, .inl ⟨rfl, hge⟩⟩

/-- The last id, the last offset and the greatest lengths, in the middle of a record; and a handle
that is moved past the last offset in two steps and in one. -/
theorem kept_and_moved_last :
    let id : ArenaId := ⟨65535, by decide⟩
    let p := make id 0xffffffffffff
    let b : Buffer := ⟨some p, 0x7fffffffffffffff, 0x7fffffffffffffff⟩
    let record : SlotRecord := ⟨#[7, 0, 0, 0, 9]⟩
    (∃ record', b.store 1 record = .ok () record' ∧ Buffer.load record' 1 = .ok b ∧
      record'.slots[0]? = some 7 ∧ record'.slots[4]? = some 9 ∧
      ∃ slot, record'.read 1 = .ok slot ∧ slot < 0) ∧
    p.offsetBy 1 = .ok (make id 0) ∧ (make id 0).offsetBy 2 = .ok (make id 2) ∧
      ∀ s, p.offsetBy 3 = .ok s → make id 2 = s := by
  intro id p b record
  obtain ⟨record', slot, -, -, hstore, hload, -, hothers, hread, -, hneg, -⟩ :=
    kept_and_moved.1 id 0xffffffffffff 0x7fffffffffffffff 0x7fffffffffffffff record 1 (by decide)
      (by decide) (by decide) (by decide)
  have hone : p.offsetBy 1 = .ok (make id 0) := by decide
  have htwo : (make id 0).offsetBy 2 = .ok (make id 2) := by decide
  refine ⟨⟨record', hstore, hload, hothers 0 (by decide), hothers 4 (by decide), slot, hread,
    hneg.2 (by decide)⟩, hone, htwo, fun s hs => ?_⟩
  exact (kept_and_moved.2 p 1 2).2.1 _ _ s hone htwo hs

end Handle

end TimeWeighted
