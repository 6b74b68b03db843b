import Mathlib
import TimeWeighted.Proofs.Buffer.Entries

/-!
# What a buffer holds

A buffer stands for a list of observations with room for some more: a `Shelf`.  Shelves can be
worked on without any memory, and every operation on buffers does to memory what the operation on
shelves says, or faults because an arena is too small.

* `Shelf.first`, `Shelf.push`, `Shelf.merge` : the operations, with the bytes that each allocates.
* `Buffer.Holds` : a buffer in an arena stands for a shelf.
* `Buffer.first_of_fits`, `Buffer.push_of_fits` : starting a buffer and appending to it.
* `Buffer.first_of_full`, `Buffer.push_of_full` : without room nothing changes.
* `Buffer.entries_of_holds` : what is read from a buffer.
-/

namespace TimeWeighted

/-! ### Shelves -/

/-- Observations and the number there is room for. -/
@[ext]
structure Shelf where
  /-- The observations, in the order they arrived or were merged. -/
  entries : List Observation := []
  /-- How many there is room for. -/
  capacity : ℕ := 0

namespace Shelf

/-- The order by time that merging goes by. -/
def le (x y : Observation) : Bool :=
  x.ts ≤ y.ts

/-- A shelf with one observation, or nothing if that one is not valid. -/
def first (o : Observation) : Shelf :=
  if o.isValid then ⟨[o], Buffer.initialCapacity⟩ else {}

/-- The bytes that `first` allocates. -/
def firstBytes (o : Observation) : ℕ :=
  if o.isValid then Observation.width * Buffer.initialCapacity else 0

/-- The capacity after one more observation: that of a full shelf doubles. -/
def grownCapacity (s : Shelf) : ℕ :=
  if s.entries.length < s.capacity then s.capacity
  else max (s.capacity * 2) Buffer.initialCapacity

/-- One more observation, if it is valid. -/
def push (s : Shelf) (o : Observation) : Shelf :=
  if o.isValid then
    if s.entries = [] then first o else ⟨s.entries ++ [o], s.grownCapacity⟩
  else s

/-- The bytes that `push` allocates: a full shelf moves. -/
def pushBytes (s : Shelf) (o : Observation) : ℕ :=
  if o.isValid then
    if s.entries = [] then firstBytes o
    else if s.entries.length < s.capacity then 0 else Observation.width * s.grownCapacity
  else 0

/-- The observations of two shelves in order of time; of equal times those of the first come
first. -/
def merge (s : Shelf) (incoming : List Observation) : Shelf :=
  if incoming = [] then s
  else if s.entries = [] then ⟨incoming, max Buffer.initialCapacity incoming.length⟩
  else ⟨s.entries.merge incoming le, s.entries.length + incoming.length⟩

/-- The bytes that `merge` allocates: the result always lies in fresh bytes. -/
def mergeBytes (s : Shelf) (incoming : List Observation) : ℕ :=
  if incoming = [] then 0 else Observation.width * (s.merge incoming).capacity

theorem entries_push (s : Shelf) (o : Observation) :
    (s.push o).entries = if o.isValid then s.entries ++ [o] else s.entries := by
  unfold push first
  split_ifs with hv he <;> simp_all

theorem entries_merge (s : Shelf) (incoming : List Observation) :
    (s.merge incoming).entries = s.entries.merge incoming le := by
  unfold merge
  split_ifs with hi he
  · simp [hi]
  · simp [he]
  · rfl

end Shelf

/-- The bytes in use once `n` more have been allocated where `used` are in use: none more for no
bytes, else an allocation starts at a multiple of eight. -/
def Arena.grown (used n : ℕ) : ℕ :=
  if n = 0 then used
  else (used + (Arena.alignment - 1)) / Arena.alignment * Arena.alignment + n

theorem Arena.grown_of_pos {used n : ℕ} (h : 0 < n) :
    Arena.grown used n =
      (used + (Arena.alignment - 1)) / Arena.alignment * Arena.alignment + n :=
  if_neg (by omega)

@[simp] theorem Arena.grown_zero (used : ℕ) : Arena.grown used 0 = used :=
  rfl

theorem Arena.le_grown (used n : ℕ) : used ≤ Arena.grown used n := by
  unfold Arena.grown
  split_ifs
  · exact le_rfl
  · simp only [Arena.alignment]
    omega

theorem Arena.ne_zero_of_full {a : Arena} {n : ℕ}
    (h : Handle.offsetSpan ≤ Arena.grown a.size n) : n ≠ 0 := by
  rintro rfl
  exact Nat.not_le.2 a.size_lt_offsetSpan h

theorem Arena.offsetSpan_le_grown_iff (a : Arena) (n : ℕ) :
    Handle.offsetSpan ≤ Arena.grown a.size n ↔ 0 < n ∧ Handle.offsetSpan ≤ a.nextOffset + n := by
  constructor
  · intro h
    have hpos : 0 < n := Nat.pos_of_ne_zero (Arena.ne_zero_of_full h)
    rw [Arena.grown_of_pos hpos] at h
    exact ⟨hpos, h⟩
  · rintro ⟨hpos, h⟩
    rwa [Arena.grown_of_pos hpos]

namespace Buffer

open Observation

/-- The buffer has its entries at `p` in the arena, and they are those of the shelf. -/
structure Stored (b : Buffer) (a : Arena) (s : Shelf) (p : Handle) : Prop where
  /-- The buffer starts at `p`. -/
  start_eq : b.start = some p
  /-- All its room belongs to the arena. -/
  covers : a.Covers p (width * b.capacity)
  /-- Its place is that of an allocation. -/
  aligned : p.offset % Arena.alignment = 0
  /-- There is an entry. -/
  count_pos : 0 < b.count
  /-- There is room for the entries. -/
  count_le : b.count ≤ b.capacity
  /-- The shelf has the observations in the entries. -/
  entries_eq : a.observations p.offset b.count = s.entries
  /-- The shelf has the same room. -/
  capacity_eq : b.capacity = s.capacity

/-- A buffer in an arena stands for a shelf: both are empty, or the entries are there. -/
def Holds (b : Buffer) (a : Arena) (s : Shelf) : Prop :=
  (b = empty ∧ s = {}) ∨ ∃ p, b.Stored a s p

/-- A buffer, if it has a place, has it past the first `n` bytes. -/
def Past (b : Buffer) (n : ℕ) : Prop :=
  ∀ p, b.start = some p → n ≤ p.offset

/-- How a buffer `b` in an arena `a` may become `b'` in `a'`: it moves to new bytes, or to none, or
it takes up more of the room that it had. -/
inductive Change (b : Buffer) (a : Arena) (b' : Buffer) (a' : Arena) : Prop where
  /-- The new buffer lies past all that was there before. -/
  | moved (grows : a.Extends a') (fresh : b'.Past a.size)
  /-- Only bytes of the old buffer that held no entry are written. -/
  | inPlace (p : Handle) (start_eq : b.start = some p) (start_eq' : b'.start = some p)
      (capacity_eq : b'.capacity = b.capacity) (count_le : b.count ≤ b'.count)
      (edits : a.Edited a' (p.offset + width * b.count) (p.offset + width * b.capacity))

variable {b b' : Buffer} {a a' : Arena} {s : Shelf} {p : Handle} {o : Observation}

theorem holds_empty (a : Arena) : empty.Holds a {} :=
  .inl ⟨rfl, rfl⟩

theorem Stored.holds (h : b.Stored a s p) : b.Holds a s :=
  .inr ⟨p, h⟩

theorem Stored.length_eq (h : b.Stored a s p) : s.entries.length = b.count := by
  rw [← h.entries_eq, Arena.length_observations]

theorem Stored.entries_ne_nil (h : b.Stored a s p) : s.entries ≠ [] := by
  rw [← List.length_pos_iff, h.length_eq]
  exact h.count_pos

theorem Stored.room_lt (h : b.Stored a s p) : width * b.capacity < Handle.offsetSpan := by
  have := h.covers.le_size
  have := a.size_lt_offsetSpan
  omega

theorem Stored.owns (h : b.Stored a s p) : a.owns p := by
  have h1 := h.covers.le_size
  have h2 := h.count_pos
  have h3 := h.count_le
  simp only [Arena.owns, h.covers.id_eq, beq_self_eq_true, Bool.true_and, decide_eq_true_eq]
  simp only [width] at h1
  omega

theorem Stored.place?_eq (h : b.Stored a s p) : b.place? = some p := by
  rw [place?, if_neg (Nat.pos_iff_ne_zero.1 h.count_pos), h.start_eq]

theorem Stored.run_le (h : b.Stored a s p) : p.offset + width * b.count ≤ a.size := by
  have h1 := h.covers.le_size
  have h2 := h.count_le
  simp only [width] at *
  omega

theorem Holds.length_eq (h : b.Holds a s) : s.entries.length = b.count := by
  rcases h with ⟨rfl, rfl⟩ | ⟨p, h⟩
  · rfl
  · exact h.length_eq

theorem Holds.capacity_eq (h : b.Holds a s) : b.capacity = s.capacity := by
  rcases h with ⟨rfl, rfl⟩ | ⟨p, h⟩
  · rfl
  · exact h.capacity_eq

theorem Holds.entries_eq_nil_iff (h : b.Holds a s) : s.entries = [] ↔ b.count = 0 := by
  rw [← List.length_eq_zero_iff, h.length_eq]

theorem Holds.stored (h : b.Holds a s) (hne : s.entries ≠ []) : ∃ p, b.Stored a s p := by
  rcases h with ⟨-, rfl⟩ | h
  · exact absurd rfl hne
  · exact h

theorem Holds.empty_of_nil (h : b.Holds a s) (hnil : s.entries = []) : b = empty ∧ s = {} := by
  rcases h with h | ⟨p, h⟩
  · exact h
  · exact absurd hnil h.entries_ne_nil

theorem Stored.extends (h : b.Stored a s p) (he : a.Extends a') : b.Stored a' s p :=
  { h with
    covers := h.covers.extends he
    entries_eq := by rw [he.observations_eq h.run_le, h.entries_eq] }

theorem Holds.extends (h : b.Holds a s) (he : a.Extends a') : b.Holds a' s := by
  rcases h with h | ⟨p, h⟩
  · exact .inl h
  · exact (h.extends he).holds

theorem Stored.edited {lo hi : ℕ} (h : b.Stored a s p) (he : a.Edited a' lo hi)
    (hout : p.offset + width * b.count ≤ lo ∨ hi ≤ p.offset) : b.Stored a' s p :=
  { h with
    covers := h.covers.edited he
    entries_eq := by rw [he.observations_eq h.run_le hout, h.entries_eq] }

theorem byteLength_of_lt {n : ℕ} (h : width * n < wordSpan) :
    byteLength n = .ok (width * n) := by
  rw [byteLength, Nat.mul_comm, checkedLength_of_lt h]

theorem entryPlace_of_covers {n i : ℕ} (h : a.Covers p (width * n)) (hi : i ≤ n) :
    ∃ q, entryPlace p i = .ok q ∧ q.offset = p.offset + width * i ∧
      a.Covers q (width * (n - i)) := by
  have hle : width * i ≤ width * n := Nat.mul_le_mul_left _ hi
  have hlt : width * i < wordSpan := by
    have := h.le_size
    have := a.size_lt_wordSpan
    omega
  obtain ⟨q, hq, hoff, hcov⟩ := h.offsetBy hle
  refine ⟨q, ?_, hoff, by rwa [Nat.mul_sub]⟩
  rw [entryPlace, byteLength_of_lt hlt, ok_bind, hq]

theorem Holds.change_refl (h : b.Holds a s) : b.Change a b a := by
  rcases h with ⟨rfl, -⟩ | ⟨p, h⟩
  · exact .moved (.refl a) (by simp [Past, empty])
  · exact .inPlace p h.start_eq h.start_eq rfl le_rfl (.refl a _ _)

/-! ### Starting a buffer -/

theorem first_of_invalid (h : o.isValid = false) (a : Arena) : first o a = .ok empty a := by
  simp [first, h]

theorem first_of_valid (h : o.isValid = true) :
    first o = do
      let start ← Arena.alloc (width * initialCapacity)
      Arena.write start o.encode
      return ⟨some start, 1, initialCapacity⟩ := by
  have hlen : byteLength initialCapacity = .ok (width * initialCapacity) :=
    byteLength_of_lt (by decide)
  funext a
  simp [first, h, hlen]

theorem first_of_fits (hfit : Arena.grown a.size (Shelf.firstBytes o) < Handle.offsetSpan) :
    ∃ b a', first o a = .ok b a' ∧ b.Holds a' (Shelf.first o) ∧ a.Extends a' ∧ b.Past a.size ∧
      a'.size = Arena.grown a.size (Shelf.firstBytes o) := by
  cases hv : o.isValid with
  | false =>
    refine ⟨empty, a, first_of_invalid hv a, ?_, .refl a, by simp [Past, empty], ?_⟩
    · simpa [Shelf.first, hv] using holds_empty a
    · simp [Shelf.firstBytes, hv]
  | true =>
    have hbytes : Shelf.firstBytes o = width * initialCapacity := by simp [Shelf.firstBytes, hv]
    rw [hbytes, Arena.grown_of_pos (by decide)] at hfit ⊢
    obtain ⟨p, a₁, halloc, hext, hsize, hcov, hoff⟩ := Arena.alloc_of_fits hfit
    have hwidth : o.encode.size = width := o.size_encode
    have hcov1 : a₁.Covers p o.encode.size := hcov.mono (by rw [hwidth]; decide)
    obtain ⟨a₂, hwrite, hedit, hextract⟩ := Arena.write_of_covers hcov1
    have hnext := a.nextOffset_spec
    have hbuffer : Stored ⟨some p, 1, initialCapacity⟩ a₂ (Shelf.first o) p := by
      rw [hwidth] at hextract
      have hrun : a₂.observations p.offset 1 = [o] := Arena.observations_succ hextract
      refine ⟨rfl, hcov.edited hedit, by rw [hoff]; exact hnext.2.2, Nat.one_pos, ?_, ?_, ?_⟩
      · simp [initialCapacity]
      · simp [hrun, Shelf.first, hv]
      · simp [Shelf.first, hv]
    refine ⟨_, a₂, ?_, hbuffer.holds, hext.edited hedit (by omega), ?_, ?_⟩
    · rw [first_of_valid hv, bind_of_ok halloc, bind_of_ok hwrite, pure_apply]
    · rintro q ⟨⟩
      omega
    · rw [hedit.size_eq, hsize]
      rfl

theorem first_of_full (hfull : Handle.offsetSpan ≤ Arena.grown a.size (Shelf.firstBytes o)) :
    first o a = .error .arenaExhausted a := by
  have hsize := a.size_lt_offsetSpan
  cases hv : o.isValid with
  | false => exact absurd (by simp [Shelf.firstBytes, hv]) (Arena.ne_zero_of_full hfull)
  | true =>
    have hbytes : Shelf.firstBytes o = width * initialCapacity := by simp [Shelf.firstBytes, hv]
    rw [hbytes, Arena.grown_of_pos (by decide)] at hfull
    have hword : a.nextOffset + width * initialCapacity < wordSpan := by
      have hnext := a.nextOffset_spec
      simp only [Handle.offsetSpan, wordSpan, width, initialCapacity, Arena.alignment] at *
      omega
    rw [first_of_valid hv, bind_of_error (Arena.alloc_of_full hfull hword)]

/-! ### Appending -/

/-- An observation written behind the first `i` entries of a covered run is one more of them, and
nothing outside the rest of the run changes. -/
theorem write_entry_of_covers {n i : ℕ} (h : a.Covers p (width * n)) (hi : i < n)
    (o : Observation) :
    ∃ q a', entryPlace p i = .ok q ∧ Arena.write q o.encode a = .ok () a' ∧
      a.Edited a' (p.offset + width * i) (p.offset + width * n) ∧
      a'.observations p.offset (i + 1) = a.observations p.offset i ++ [o] := by
  have hwidth : o.encode.size = width := o.size_encode
  obtain ⟨q, hq, hoff, hqcov⟩ := entryPlace_of_covers h hi.le
  have hqcov1 : a.Covers q o.encode.size := by
    refine hqcov.mono ?_
    simp only [hwidth, width]
    omega
  have hle : p.offset + width * i ≤ a.size := by
    rw [← hoff]
    exact (Nat.le_add_right _ _).trans hqcov.le_size
  obtain ⟨a', hwrite, hedit, hextract⟩ := Arena.write_of_covers hqcov1
  rw [hwidth, hoff] at hedit hextract
  refine ⟨q, a', hq, hwrite, hedit.mono le_rfl ?_, ?_⟩
  · simp only [width]
    omega
  · rw [Arena.observations_succ hextract, hedit.observations_eq hle (.inl le_rfl)]

theorem push_inPlace (h : b.Stored a s p) (hv : o.isValid = true) (hroom : b.count < b.capacity) :
    ∃ a', b.push o a = .ok { b with count := b.count + 1 } a' ∧
      Stored { b with count := b.count + 1 } a' (s.push o) p ∧
      a.Edited a' (p.offset + width * b.count) (p.offset + width * b.capacity) := by
  obtain ⟨q, a', hq, hwrite, hedit, hrun⟩ := write_entry_of_covers h.covers hroom o
  refine ⟨a', ?_, ?_, hedit⟩
  · have hmake : makeRoom p b.count b.capacity = pure (p, b.capacity) := if_pos hroom
    simp only [push, hv, if_true, h.place?_eq, hmake, pure_bind, hq, liftM_ok]
    rw [bind_of_ok hwrite, pure_apply, ← h.start_eq]
  · have hs : s.push o = ⟨s.entries ++ [o], s.capacity⟩ := by
      simp [Shelf.push, hv, h.entries_ne_nil, Shelf.grownCapacity, h.length_eq,
        ← h.capacity_eq, hroom]
    refine ⟨h.start_eq, h.covers.edited hedit, h.aligned, Nat.succ_pos _, hroom, ?_, ?_⟩
    · rw [hrun, hs, ← h.entries_eq]
    · rw [hs, h.capacity_eq]

theorem Stored.push_of_full (h : b.Stored a s p) (hv : o.isValid = true)
    (hfull : b.capacity ≤ b.count) :
    s.push o = ⟨s.entries ++ [o], max (b.capacity * 2) initialCapacity⟩ ∧
      s.pushBytes o = width * max (b.capacity * 2) initialCapacity := by
  have hnot : ¬ b.count < b.capacity := by omega
  simp [Shelf.push, Shelf.pushBytes, hv, h.entries_ne_nil, Shelf.grownCapacity, h.length_eq,
    ← h.capacity_eq, hnot]

theorem Stored.grown_lt_wordSpan (h : b.Stored a s p) :
    a.nextOffset + width * max (b.capacity * 2) initialCapacity < wordSpan := by
  have hroom := h.room_lt
  have hsize := a.size_lt_offsetSpan
  have hnext := a.nextOffset_spec
  simp only [Handle.offsetSpan, wordSpan, width, initialCapacity, Arena.alignment] at *
  omega

/-- A full buffer gets its entries copied to twice the room. -/
theorem makeRoom_of_full (h : b.Stored a s p) (hfull : b.capacity ≤ b.count)
    (hfit : a.nextOffset + width * max (b.capacity * 2) initialCapacity < Handle.offsetSpan) :
    ∃ q a', makeRoom p b.count b.capacity a = .ok (q, max (b.capacity * 2) initialCapacity) a' ∧
      a.Extends a' ∧ a'.Covers q (width * max (b.capacity * 2) initialCapacity) ∧
      q.offset = a.nextOffset ∧ a'.observations q.offset b.count = s.entries ∧
      a'.size = a.nextOffset + width * max (b.capacity * 2) initialCapacity := by
  have hword := h.grown_lt_wordSpan
  have hnext := a.nextOffset_spec
  set grown := max (b.capacity * 2) initialCapacity with hgrown
  have hcount : b.count ≤ grown := by
    have := h.count_le
    simp only [initialCapacity] at hgrown
    omega
  have hlt : width * b.count < wordSpan := by
    have := h.run_le
    have := a.size_lt_wordSpan
    omega
  obtain ⟨q, a₁, halloc, hext, hsize, hcov, hoff⟩ := Arena.alloc_of_fits hfit
  have hpcov : a₁.Covers p (width * b.count) :=
    (h.covers.mono (Nat.mul_le_mul_left _ h.count_le)).extends hext
  have hqcov : a₁.Covers q (width * b.count) := hcov.mono (Nat.mul_le_mul_left _ hcount)
  obtain ⟨a₂, hcopy, hedit, hextract⟩ := Arena.copyWithin_of_covers hpcov hqcov
  refine ⟨q, a₂, ?_, hext.edited hedit (by omega), hcov.edited hedit, hoff, ?_, ?_⟩
  · rw [makeRoom, if_neg (by omega), ← hgrown, byteLength_of_lt (by omega),
      byteLength_of_lt hlt, liftM_ok, pure_bind, bind_of_ok halloc, liftM_ok, pure_bind,
      bind_of_ok hcopy, pure_apply]
  · rw [Arena.observations_of_extract_eq hextract, hext.observations_eq h.run_le, h.entries_eq]
  · rw [hedit.size_eq, hsize]

theorem push_moved (h : b.Stored a s p) (hv : o.isValid = true) (hfull : b.capacity ≤ b.count)
    (hfit : Arena.grown a.size (s.pushBytes o) < Handle.offsetSpan) :
    ∃ b' a', b.push o a = .ok b' a' ∧ b'.Holds a' (s.push o) ∧ a.Extends a' ∧ b'.Past a.size ∧
      a'.size = Arena.grown a.size (s.pushBytes o) := by
  obtain ⟨hpush, hbytes⟩ := h.push_of_full hv hfull
  have hpos : 0 < width * max (b.capacity * 2) initialCapacity := by
    simp only [width, initialCapacity]
    omega
  rw [hbytes, Arena.grown_of_pos hpos] at hfit ⊢
  obtain ⟨q, a₁, hmake, hext, hcov, hoff, hrun, hsize⟩ := makeRoom_of_full h hfull hfit
  have hnext := a.nextOffset_spec
  set grown := max (b.capacity * 2) initialCapacity with hgrown
  have hcount : b.count < grown := by
    have := h.count_le
    have := h.count_pos
    simp only [initialCapacity] at hgrown
    omega
  obtain ⟨r, a₂, hr, hwrite, hedit, hrun₂⟩ := write_entry_of_covers hcov hcount o
  have hstored : Stored ⟨some q, b.count + 1, grown⟩ a₂ (s.push o) q := by
    refine ⟨rfl, hcov.edited hedit, by rw [hoff]; exact hnext.2.2, Nat.succ_pos _, hcount, ?_, ?_⟩
    · rw [hrun₂, hrun, hpush]
    · rw [hpush]
  refine ⟨_, a₂, ?_, hstored.holds, hext.edited hedit (by omega), ?_, ?_⟩
  · simp only [push, hv, if_true, h.place?_eq]
    rw [bind_of_ok hmake]
    simp only [hr, liftM_ok, pure_bind]
    rw [bind_of_ok hwrite, pure_apply]
  · rintro r ⟨⟩
    omega
  · rw [hedit.size_eq, hsize]
    rfl

theorem Holds.place?_eq_none (h : b.Holds a s) (hnil : s.entries = []) : b.place? = none := by
  obtain ⟨rfl, -⟩ := h.empty_of_nil hnil
  rfl

/-- Appending does to memory what it does to the shelf. -/
theorem push_of_fits (h : b.Holds a s)
    (hfit : Arena.grown a.size (s.pushBytes o) < Handle.offsetSpan) :
    ∃ b' a', b.push o a = .ok b' a' ∧ b'.Holds a' (s.push o) ∧ b.Change a b' a' ∧
      a'.size = Arena.grown a.size (s.pushBytes o) := by
  cases hv : o.isValid with
  | false =>
    refine ⟨b, a, by simp [push, hv], ?_, h.change_refl, ?_⟩
    · simpa [Shelf.push, hv] using h
    · simp [Shelf.pushBytes, hv]
  | true =>
    by_cases hnil : s.entries = []
    · have hbytes : s.pushBytes o = Shelf.firstBytes o := by simp [Shelf.pushBytes, hv, hnil]
      have hs : s.push o = Shelf.first o := by simp [Shelf.push, hv, hnil]
      rw [hbytes] at hfit
      obtain ⟨b', a', hfirst, hb', hext, hpast, hsize⟩ := first_of_fits hfit
      refine ⟨b', a', ?_, hs ▸ hb', .moved hext hpast, hbytes ▸ hsize⟩
      simpa [push, hv, h.place?_eq_none hnil] using hfirst
    · obtain ⟨p, hp⟩ := h.stored hnil
      rcases Nat.lt_or_ge b.count b.capacity with hroom | hfull
      · obtain ⟨a', hpush, hstored, hedit⟩ := push_inPlace hp hv hroom
        refine ⟨_, a', hpush, hstored.holds,
          .inPlace p hp.start_eq hp.start_eq rfl (Nat.le_succ _) hedit, ?_⟩
        have hzero : s.pushBytes o = 0 := by
          simp [Shelf.pushBytes, hv, hnil, hp.length_eq, ← hp.capacity_eq, hroom]
        rw [hedit.size_eq, hzero, Arena.grown_zero]
      · obtain ⟨b', a', hpush, hb', hext, hpast, hsize⟩ := push_moved hp hv hfull hfit
        exact ⟨b', a', hpush, hb', .moved hext hpast, hsize⟩

/-- Appending without the room it needs faults and changes nothing. -/
theorem push_of_full (h : b.Holds a s)
    (hfull : Handle.offsetSpan ≤ Arena.grown a.size (s.pushBytes o)) :
    b.push o a = .error .arenaExhausted a := by
  cases hv : o.isValid with
  | false => exact absurd (by simp [Shelf.pushBytes, hv]) (Arena.ne_zero_of_full hfull)
  | true =>
    by_cases hnil : s.entries = []
    · have hbytes : s.pushBytes o = Shelf.firstBytes o := by simp [Shelf.pushBytes, hv, hnil]
      simpa [push, hv, h.place?_eq_none hnil] using first_of_full (hbytes ▸ hfull)
    · obtain ⟨p, hp⟩ := h.stored hnil
      have hlen : ¬ b.count < b.capacity := by
        intro hroom
        refine Arena.ne_zero_of_full hfull ?_
        simp [Shelf.pushBytes, hv, hnil, hp.length_eq, ← hp.capacity_eq, hroom]
      obtain ⟨-, hbytes⟩ := hp.push_of_full hv (by omega)
      have hpos : 0 < width * max (b.capacity * 2) initialCapacity := by
        simp only [width, initialCapacity]
        omega
      rw [hbytes, Arena.grown_of_pos hpos] at hfull
      have hword := hp.grown_lt_wordSpan
      have hmake : makeRoom p b.count b.capacity a = .error .arenaExhausted a := by
        rw [makeRoom, if_neg hlen, byteLength_of_lt (by omega), liftM_ok, pure_bind,
          bind_of_error (Arena.alloc_of_full hfull hword)]
      simp only [push, hv, if_true, hp.place?_eq]
      rw [bind_of_error hmake]

/-! ### Reading -/

/-- What is read from a buffer is what the shelf holds. -/
theorem entries_of_holds (h : b.Holds a s) : b.entries a = .ok s.entries := by
  rcases h with ⟨rfl, rfl⟩ | ⟨p, hp⟩
  · rfl
  · have hlt : width * b.count < wordSpan := by
      have := hp.run_le
      have := a.size_lt_wordSpan
      omega
    have hcov : a.Covers p (width * b.count) :=
      hp.covers.mono (Nat.mul_le_mul_left _ hp.count_le)
    rw [entries, hp.start_eq]
    simp only [byteLength_of_lt hlt, ok_bind, Arena.read_of_covers hcov]
    rw [Arena.decodeRun_extract, hp.entries_eq]
    rfl

end Buffer

end TimeWeighted
