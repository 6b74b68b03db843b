import Mathlib
import TimeWeighted.Proofs.Twap.Family

/-!
# Updates of a record

What the four updates of an aggregate do to the record of a group, the arena and the family of
buffers kept in it.  Each either goes through and leaves the buffers of all other groups alone, or
needs bytes that the arena cannot give and changes nothing the next update could notice.

* `Twap.Change` : what an update of the buffer in a record may end in.
* `Twap.change_start`, `Twap.change_append`, `Twap.change_absorb`, `Twap.change_clear` : the
  updates.
* `Twap.Attempt` : what an update may end in, seen from the family of all buffers.
* `Twap.Change.attempt` : **whatever an update does to one buffer, all others stay as they are.**
-/

namespace TimeWeighted

namespace Twap

variable {ι : Type} {twap : Twap} {buffer : ι → Buffer} {shelf : ι → Shelf} {v : ι}
  {r : SlotRecord} {o : Observation}

/-- What an update may end in that makes the buffer `b` in the record `r` stand for shelf `s` and
needs `bytes` more bytes for it. -/
inductive Change (twap : Twap) (b : Buffer) (s : Shelf) (bytes : ℕ) (r : SlotRecord)
    (result : EStateM.Result Fault (Twap × SlotRecord) Unit) : Prop
  /-- There is room, and only the slots of the buffer have changed. -/
  | done {memo : Option Memo} {b' : Buffer} {a : Arena}
      (eq : result = .ok () ({ twap with memo, arena := a }, r.withBuffer twap.slotIndex b'))
      (memo_eq : memo = none ∨ memo = twap.memo) (holds : b'.Holds a s)
      (change : b.Change twap.arena b' a)
      (size_eq : a.size = Arena.grown twap.arena.size bytes)
  /-- The bytes do not fit.  At most what was remembered is forgotten. -/
  | full {memo : Option Memo} (eq : result = .error .arenaExhausted ({ twap with memo }, r))
      (memo_eq : memo = none ∨ memo = twap.memo)
      (full : Handle.offsetSpan ≤ Arena.grown twap.arena.size bytes)

theorem onArena_of_ok {α : Type} {operation : ArenaM α} {x : α} {a : Arena}
    (h : operation twap.arena = .ok x a) (r : SlotRecord) :
    onArena operation (twap, r) = .ok x ({ twap with arena := a }, r) := by
  rw [onArena_apply, h]

theorem onArena_of_error {α : Type} {operation : ArenaM α} {fault : Fault} {a : Arena}
    (h : operation twap.arena = .error fault a) (r : SlotRecord) :
    onArena operation (twap, r) = .error fault ({ twap with arena := a }, r) := by
  rw [onArena_apply, h]

theorem onRecord_store (b : Buffer) {i : ℕ} (h : i + Buffer.slotCount ≤ r.size) (twap : Twap) :
    onRecord (b.store i) (twap, r) = .ok () (twap, r.withBuffer i b) := by
  simp only [onRecord, Buffer.store_apply b h]

/-! ### The first row of a group -/

/-- A first row starts a buffer in new bytes, whatever was there. -/
theorem change_start (b : Buffer) (hsize : twap.slotIndex + Buffer.slotCount ≤ r.size)
    (o : Observation) :
    twap.Change b (Shelf.first o) (Shelf.firstBytes o) r (start o (twap, r)) := by
  rcases Nat.lt_or_ge (Arena.grown twap.arena.size (Shelf.firstBytes o)) Handle.offsetSpan
    with hfit | hfull
  · obtain ⟨b', a, hfirst, hb, hext, hpast, hgrown⟩ := Buffer.first_of_fits hfit
    refine .done ?_ (.inl rfl) hb (.moved hext hpast) hgrown
    have harena : onArena (Buffer.first o) ({ twap with memo := none }, r) =
        .ok b' ({ twap with memo := none, arena := a }, r) := by
      rw [onArena_apply, hfirst]
    rw [start, modify_bind_apply, bind_of_ok harena, get_bind_apply, onRecord_store b' hsize]
  · refine .full ?_ (.inl rfl) hfull
    have harena : onArena (Buffer.first o) ({ twap with memo := none }, r) =
        .error .arenaExhausted ({ twap with memo := none }, r) := by
      rw [onArena_apply, Buffer.first_of_full hfull]
    rw [start, modify_bind_apply, bind_of_error harena]

/-! ### Further rows -/

theorem append_of_invalid (hv : o.isValid = false) : append o (twap, r) = .ok () (twap, r) := by
  simp [append, hv]

theorem append_of_valid {b : Buffer} (hv : o.isValid = true)
    (hload : Buffer.load r twap.slotIndex = .ok b) :
    append o (twap, r) = (do
      let b ← onArena (b.push o)
      onRecord (b.store twap.slotIndex) : UpdateM Twap Unit) (twap, r) := by
  simp only [append, hv, if_true, get_bind_apply, hload, liftM_ok, pure_bind]

/-- A further row changes the buffer of the record. -/
theorem change_append {b : Buffer} {s : Shelf} (h : b.Holds twap.arena s)
    (hslots : b.InSlots r twap.slotIndex) (o : Observation) :
    twap.Change b (s.push o) (s.pushBytes o) r (append o (twap, r)) := by
  have hload := hslots.load h.storable
  rcases Nat.lt_or_ge (Arena.grown twap.arena.size (s.pushBytes o)) Handle.offsetSpan
    with hfit | hfull
  · obtain ⟨b', a, hpush, hb, hchange, hgrown⟩ := Buffer.push_of_fits h hfit
    refine .done ?_ (.inr rfl) hb hchange hgrown
    cases hv : o.isValid with
    | false =>
      have hnone : b.push o twap.arena = .ok b twap.arena := by simp [Buffer.push, hv]
      obtain ⟨rfl, rfl⟩ : b = b' ∧ twap.arena = a := by simpa using hnone.symm.trans hpush
      rw [append_of_invalid hv, hslots.withBuffer_self]
    | true =>
      rw [append_of_valid hv hload, bind_of_ok (onArena_of_ok hpush r),
        onRecord_store b' hslots.size_le]
  · refine .full ?_ (.inr rfl) hfull
    cases hv : o.isValid with
    | false => exact absurd (by simp [Shelf.pushBytes, hv]) (Arena.ne_zero_of_full hfull)
    | true =>
      rw [append_of_valid hv hload,
        bind_of_error (onArena_of_error (Buffer.push_of_full h hfull) r)]

/-! ### Another record of the same group -/

section

variable {source : Arena} {other : SlotRecord} {incoming : Buffer} {t : Shelf}

theorem absorb_of_empty (hin : incoming.InSlots other twap.slotIndex)
    (hholds : incoming.Holds source t) (ht : t.entries = []) :
    absorb other source (twap, r) = .ok () (twap, r) := by
  have hzero := hholds.entries_eq_nil_iff.1 ht
  simp [absorb, hin.load hholds.storable, hzero]

theorem absorb_of_ne_nil {b : Buffer} (hin : incoming.InSlots other twap.slotIndex)
    (hholds : incoming.Holds source t) (ht : t.entries ≠ [])
    (hload : Buffer.load r twap.slotIndex = .ok b) :
    absorb other source (twap, r) = (do
      let b ← onArena (b.merge incoming source)
      onRecord (b.store twap.slotIndex) : UpdateM Twap Unit) (twap, r) := by
  have hne : incoming.count ≠ 0 := fun h => ht (hholds.entries_eq_nil_iff.2 h)
  simp only [absorb, get_bind_apply, hin.load hholds.storable, hload, liftM_ok, pure_bind, ne_eq,
    hne, not_false_eq_true, if_true]

/-- Another record of the group changes the buffer of the record. -/
theorem change_absorb {b : Buffer} {s : Shelf} (h : b.Holds twap.arena s)
    (hslots : b.InSlots r twap.slotIndex) (hin : incoming.InSlots other twap.slotIndex)
    (hholds : incoming.Holds source t) :
    twap.Change b (s.merge t.entries) (s.mergeBytes t.entries) r
      (absorb other source (twap, r)) := by
  have hload := hslots.load h.storable
  rcases Nat.lt_or_ge (Arena.grown twap.arena.size (s.mergeBytes t.entries)) Handle.offsetSpan
    with hfit | hfull
  · obtain ⟨b', a, hmerge, hb, hchange, hgrown⟩ := Buffer.merge_of_fits h hholds hfit
    refine .done ?_ (.inr rfl) hb hchange hgrown
    by_cases ht : t.entries = []
    · have hnone : b.merge incoming source twap.arena = .ok b twap.arena := by
        simp [Buffer.merge, hholds.place?_eq_none ht]
      obtain ⟨rfl, rfl⟩ : b = b' ∧ twap.arena = a := by simpa using hnone.symm.trans hmerge
      rw [absorb_of_empty hin hholds ht, hslots.withBuffer_self]
    · rw [absorb_of_ne_nil hin hholds ht hload, bind_of_ok (onArena_of_ok hmerge r),
        onRecord_store b' hslots.size_le]
  · refine .full ?_ (.inr rfl) hfull
    by_cases ht : t.entries = []
    · exact absurd (if_pos ht) (Arena.ne_zero_of_full hfull)
    · rw [absorb_of_ne_nil hin hholds ht hload,
        bind_of_error (onArena_of_error (Buffer.merge_of_full h hholds hfull) r)]

end

/-! ### No rows at all -/

theorem clear_apply (hsize : twap.slotIndex + Buffer.slotCount ≤ r.size) :
    clear (twap, r) = .ok () (twap, r.withBuffer twap.slotIndex .empty) := by
  rw [clear, get_bind_apply, onRecord_store _ hsize]

/-- Emptying a record always goes through. -/
theorem change_clear (b : Buffer) (hsize : twap.slotIndex + Buffer.slotCount ≤ r.size) :
    twap.Change b {} 0 r (clear (twap, r)) := by
  have hpast : Buffer.empty.Past twap.arena.size := by simp [Buffer.Past, Buffer.empty]
  exact .done (clear_apply hsize) (.inr rfl) (Buffer.holds_empty twap.arena)
    (.moved (.refl _) hpast) rfl

/-! ### The family of all buffers -/

/-- An aggregate after an update: the buffer of group `v` is now `b` and stands for shelf `s`, and
`bytes` more bytes have been allocated.  All other buffers are as they were. -/
structure Updated [DecidableEq ι] (twap : Twap) (buffer : ι → Buffer) (shelf : ι → Shelf) (v : ι)
    (b : Buffer) (s : Shelf) (bytes : ℕ) (twap' : Twap) : Prop where
  /-- The slots are where they were. -/
  slotIndex_eq : twap'.slotIndex = twap.slotIndex
  /-- Values come from the same source. -/
  valueSource_eq : twap'.valueSource = twap.valueSource
  /-- Timestamps come from the same source. -/
  timeSource_eq : twap'.timeSource = twap.timeSource
  /-- The family but for group `v` is the old one. -/
  keeps : twap'.Keeps (Function.update buffer v b) (Function.update shelf v s)
  /-- The bytes in use. -/
  size_eq : twap'.arena.size = Arena.grown twap.arena.size bytes

theorem Updated.observe_eq [DecidableEq ι] {twap' : Twap} {b : Buffer} {s : Shelf} {bytes : ℕ}
    (h : twap.Updated buffer shelf v b s bytes twap') : twap'.observe = twap.observe := by
  funext row
  rw [observe, observe, h.valueSource_eq, h.timeSource_eq]

/-- What an update of group `v` may end in that leaves a buffer for shelf `s` in the record `r` of
the group and needs `bytes` more bytes for it. -/
inductive Attempt [DecidableEq ι] (twap : Twap) (buffer : ι → Buffer) (shelf : ι → Shelf) (v : ι)
    (s : Shelf) (bytes : ℕ) (r : SlotRecord)
    (result : EStateM.Result Fault (Twap × SlotRecord) Unit) : Prop
  /-- There is room, and only the slots of the buffer have changed. -/
  | done {twap' : Twap} {b : Buffer}
      (eq : result = .ok () (twap', r.withBuffer twap.slotIndex b))
      (updated : twap.Updated buffer shelf v b s bytes twap')
  /-- The bytes do not fit. -/
  | full {state : Twap × SlotRecord} (eq : result = .error .arenaExhausted state)
      (full : Handle.offsetSpan ≤ Arena.grown twap.arena.size bytes)

/-- **Whatever an update does to one buffer, all others stay as they are.** -/
theorem Change.attempt [DecidableEq ι] {s : Shelf} {bytes : ℕ}
    {result : EStateM.Result Fault (Twap × SlotRecord) Unit}
    (h : twap.Change (buffer v) s bytes r result) (hkeeps : twap.Keeps buffer shelf) :
    twap.Attempt buffer shelf v s bytes r result := by
  cases h with
  | @done memo b a eq memo_eq holds change size_eq =>
    have hmemo : ({ twap with memo } : Twap).Keeps buffer shelf := by
      rcases memo_eq with rfl | rfl
      · exact hkeeps.forget
      · exact hkeeps
    exact .done eq ⟨rfl, rfl, rfl, hmemo.change holds change, size_eq⟩
  | full eq memo_eq full => exact .full eq full

end Twap

end TimeWeighted
