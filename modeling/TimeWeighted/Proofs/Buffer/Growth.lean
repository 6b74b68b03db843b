import Mathlib
import TimeWeighted.Proofs.Buffer.Shelf

/-!
# How shelves grow

A shelf that is filled by appending alone doubles its room whenever it is full.  So its room depends
on the number of its entries only, and so do the bytes that were allocated for it, all the room that
it has grown out of included.

* `Shelf.Grown`, `Shelf.spent` : shelves filled by appending, and the bytes allocated for them.
* `Shelf.roomFor` : the room for a number of entries, **the least power of two times the initial
  room in which they fit**.
* `Shelf.ofList` : the shelf that was filled with a list; appending leads from one to the next.
-/

namespace TimeWeighted

/-! ### Bytes -/

theorem Arena.grown_of_aligned {used n : ℕ} (h : used % Arena.alignment = 0) :
    Arena.grown used n = used + n := by
  simp only [Arena.grown, Arena.alignment] at *
  split_ifs
  · omega
  · omega

namespace Shelf

open Observation

/-- A shelf that was filled by appending alone: it is empty, or its capacity is the initial one or
less than twice what is needed. -/
def Grown (s : Shelf) : Prop :=
  s = {} ∨ (0 < s.entries.length ∧ s.entries.length ≤ s.capacity ∧
    Buffer.initialCapacity ≤ s.capacity ∧
    (s.capacity = Buffer.initialCapacity ∨ s.capacity < 2 * s.entries.length))

/-- The bytes allocated for a shelf that was filled by appending alone, all the room that it has
grown out of included. -/
def spent (s : Shelf) : ℕ :=
  width * (2 * s.capacity - Buffer.initialCapacity)

variable {s : Shelf} {o : Observation}

theorem push_empty (o : Observation) : ({} : Shelf).push o = first o := by
  simp only [push, first]
  split_ifs <;> rfl

theorem pushBytes_empty (o : Observation) : ({} : Shelf).pushBytes o = firstBytes o := by
  simp only [pushBytes, firstBytes]
  split_ifs <;> rfl

theorem length_push (s : Shelf) (o : Observation) :
    (s.push o).entries.length ≤ s.entries.length + 1 := by
  rw [entries_push]
  split_ifs
  · simp
  · omega

theorem grown_first (o : Observation) : (first o).Grown ∧ (first o).spent = firstBytes o := by
  unfold first firstBytes
  split_ifs
  · exact ⟨.inr ⟨Nat.one_pos, by simp [Buffer.initialCapacity], le_rfl, .inl rfl⟩, rfl⟩
  · exact ⟨.inl rfl, rfl⟩

theorem Grown.push (h : s.Grown) (o : Observation) :
    (s.push o).Grown ∧ (s.push o).spent = s.spent + s.pushBytes o := by
  rcases h with rfl | ⟨hpos, hle, hcap, hfill⟩
  · rw [push_empty, pushBytes_empty]
    simpa [spent] using grown_first o
  · have hne : s.entries ≠ [] := List.length_pos_iff.1 hpos
    simp only [Shelf.push, pushBytes, hne, if_false]
    split_ifs with hv hroom
    · refine ⟨.inr ?_, ?_⟩
      · simp only [grownCapacity, if_pos hroom, List.length_append, List.length_singleton]
        omega
      · simp [spent, grownCapacity, hroom]
    · refine ⟨.inr ?_, ?_⟩
      · simp only [grownCapacity, if_neg hroom, List.length_append, List.length_singleton,
          Buffer.initialCapacity] at *
        omega
      · simp only [spent, grownCapacity, if_neg hroom, width, Buffer.initialCapacity] at *
        omega
    · exact ⟨.inr ⟨hpos, hle, hcap, hfill⟩, rfl⟩

theorem Grown.spent_le (h : s.Grown) : s.spent ≤ 256 * s.entries.length := by
  rcases h with rfl | ⟨hpos, hle, hcap, hfill⟩
  · exact Nat.le_refl 0
  · simp only [spent, width, Buffer.initialCapacity] at *
    omega

theorem spent_mod (s : Shelf) : s.spent % Arena.alignment = 0 := by
  simp only [spent, width, Arena.alignment]
  omega

theorem sum_update {ι : Type} [DecidableEq ι] {K : Finset ι} {i : ι} {g : ι → Shelf}
    {f : Shelf → ℕ} {t : Shelf} {n : ℕ} (hi : i ∈ K) (h : f t = f (g i) + n) :
    ∑ k ∈ K, f (Function.update g i t k) = ∑ k ∈ K, f (g k) + n := by
  rw [← Finset.add_sum_erase K _ hi, ← Finset.add_sum_erase K (fun k => f (g k)) hi,
    Function.update_self, h, Nat.add_right_comm]
  congr 1
  congr 1
  refine Finset.sum_congr rfl fun k hk => ?_
  rw [Function.update_of_ne (Finset.ne_of_mem_erase hk)]

/-! ### The room for a number of entries -/

/-- The room that appending makes for `n` entries: the initial one, doubled until they fit. -/
def roomFor (n : ℕ) : ℕ :=
  Buffer.initialCapacity *
    2 ^ Nat.clog 2 ((n + (Buffer.initialCapacity - 1)) / Buffer.initialCapacity)

theorem roomFor_le_iff {n k : ℕ} :
    roomFor n ≤ Buffer.initialCapacity * 2 ^ k ↔ n ≤ Buffer.initialCapacity * 2 ^ k := by
  have hpow : roomFor n ≤ Buffer.initialCapacity * 2 ^ k ↔
      (n + (Buffer.initialCapacity - 1)) / Buffer.initialCapacity ≤ 2 ^ k := by
    rw [roomFor, Nat.mul_le_mul_left_iff (by decide), Nat.pow_le_pow_iff_right (by decide),
      Nat.clog_le_iff_le_pow (by decide)]
  rw [hpow]
  simp only [Buffer.initialCapacity]
  omega

theorem exists_roomFor_eq (n : ℕ) : ∃ k, roomFor n = Buffer.initialCapacity * 2 ^ k :=
  ⟨_, rfl⟩

theorem le_roomFor (n : ℕ) : n ≤ roomFor n :=
  roomFor_le_iff.1 le_rfl

/-- The room for `n` entries is the least power of two times the initial room in which they fit. -/
theorem isLeast_roomFor (n : ℕ) :
    IsLeast {c | (∃ k, c = Buffer.initialCapacity * 2 ^ k) ∧ n ≤ c} (roomFor n) := by
  refine ⟨⟨exists_roomFor_eq n, le_roomFor n⟩, ?_⟩
  rintro c ⟨⟨k, rfl⟩, hle⟩
  exact roomFor_le_iff.2 hle

example : roomFor 16 = 16 ∧ roomFor 17 = 32 ∧ roomFor 100 = 128 := by decide

theorem initialCapacity_le_roomFor (n : ℕ) : Buffer.initialCapacity ≤ roomFor n :=
  Nat.le_mul_of_pos_right _ (Nat.two_pow_pos _)

theorem roomFor_succ (n : ℕ) :
    roomFor (n + 1) = if n < roomFor n then roomFor n else roomFor n * 2 := by
  have hle := le_roomFor n
  have hnext := le_roomFor (n + 1)
  obtain ⟨j, hj⟩ := exists_roomFor_eq n
  obtain ⟨k, hk⟩ := exists_roomFor_eq (n + 1)
  have hmono : roomFor n ≤ roomFor (n + 1) := by
    rw [hk, roomFor_le_iff, ← hk]
    omega
  split_ifs with hroom
  · refine le_antisymm ?_ hmono
    rw [hj, roomFor_le_iff, ← hj]
    omega
  · have hinit := initialCapacity_le_roomFor n
    have hdouble : roomFor n * 2 = Buffer.initialCapacity * 2 ^ (j + 1) := by
      rw [hj, pow_succ, Nat.mul_assoc]
    refine le_antisymm ?_ ?_
    · rw [hdouble, roomFor_le_iff, ← hdouble]
      simp only [Buffer.initialCapacity] at hinit
      omega
    · -- the power of two is greater, so it is at least the next one
      have hlt : 2 ^ j < 2 ^ k := by
        refine Nat.lt_of_mul_lt_mul_left (a := Buffer.initialCapacity) ?_
        omega
      have hjk : j + 1 ≤ k := (Nat.pow_lt_pow_iff_right (by decide)).1 hlt
      rw [hdouble, hk]
      exact Nat.mul_le_mul_left _ (Nat.pow_le_pow_right (by decide) hjk)

theorem roomFor_lt (n : ℕ) : roomFor n = Buffer.initialCapacity ∨ roomFor n < 2 * n := by
  obtain ⟨k, hk⟩ := exists_roomFor_eq n
  cases k with
  | zero => exact .inl (by rw [hk, pow_zero, Nat.mul_one])
  | succ k =>
    have hhalf : roomFor n = 2 * (Buffer.initialCapacity * 2 ^ k) := by
      rw [hk, pow_succ, ← Nat.mul_assoc, Nat.mul_comm]
    have hpos : 0 < Buffer.initialCapacity * 2 ^ k := Nat.mul_pos (by decide) (Nat.two_pow_pos k)
    -- otherwise half of the room would do
    right
    by_contra hnot
    have hless : roomFor n ≤ Buffer.initialCapacity * 2 ^ k := roomFor_le_iff.2 (by omega)
    omega

/-! ### Shelves filled with a list -/

/-- The shelf that was filled with a list by appending. -/
def ofList (l : List Observation) : Shelf :=
  ⟨l, if l = [] then 0 else roomFor l.length⟩

variable {l : List Observation}

@[simp] theorem ofList_nil : ofList [] = {} :=
  rfl

theorem capacity_ofList (h : l ≠ []) : (ofList l).capacity = roomFor l.length :=
  if_neg h

theorem push_ofList (l : List Observation) (o : Observation) :
    (ofList l).push o = ofList (l ++ [o].filter Observation.isValid) := by
  cases hv : o.isValid with
  | false => simp [push, hv]
  | true =>
    have hinit := initialCapacity_le_roomFor l.length
    have hsucc := roomFor_succ l.length
    by_cases hl : l = []
    · subst hl
      have hone : roomFor 1 = Buffer.initialCapacity := by decide
      simp [push, first, ofList, hv, hone]
    · have hmax : max (roomFor l.length * 2) Buffer.initialCapacity = roomFor l.length * 2 := by
        omega
      simp [push, grownCapacity, ofList, hv, hl, hmax, hsucc]

theorem grown_ofList (l : List Observation) : (ofList l).Grown := by
  by_cases hl : l = []
  · exact .inl (by rw [hl, ofList_nil])
  · refine .inr ⟨List.length_pos_iff.2 hl, ?_, ?_, ?_⟩ <;> rw [capacity_ofList hl]
    exacts [le_roomFor _, initialCapacity_le_roomFor _, roomFor_lt _]

theorem spent_ofList (h : l ≠ []) :
    (ofList l).spent = 16 * (2 * roomFor l.length - 16) := by
  rw [spent, capacity_ofList h]
  rfl

/-- Bytes are allocated for the first entry and for one that finds the shelf full. -/
theorem pushBytes_ofList_ne_zero (l : List Observation) (o : Observation) :
    (ofList l).pushBytes o ≠ 0 ↔
      o.isValid = true ∧ (l.length = 0 ∨ l.length = roomFor l.length) := by
  have hle := le_roomFor l.length
  have hinit := initialCapacity_le_roomFor l.length
  cases hv : o.isValid with
  | false => simp [pushBytes, hv]
  | true =>
    by_cases hl : l = []
    · simp [pushBytes, firstBytes, hv, hl, width, Buffer.initialCapacity]
    · rcases Nat.lt_or_ge l.length (roomFor l.length) with hroom | hfull
      · have hne : l.length ≠ roomFor l.length := by omega
        simp [pushBytes, ofList, hv, hl, hroom, hne]
      · have heq : l.length = roomFor l.length := by omega
        simp [pushBytes, ofList, grownCapacity, hv, hl, ← heq, width, Buffer.initialCapacity]

end Shelf

end TimeWeighted
