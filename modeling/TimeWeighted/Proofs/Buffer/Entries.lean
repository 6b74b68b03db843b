import Mathlib
import TimeWeighted.Twap.Buffer
import TimeWeighted.Proofs.Arena.Regions
import TimeWeighted.Proofs.Bytes.Codec

/-!
# Entries in an arena

The bytes of an arena from some offset on, seen as a run of entries.

* `Arena.entries` : the entries as they are in memory, byte for byte.
* `Arena.observations` : what they say.
* `Arena.entries_of_extract_eq` : equal bytes are equal entries, in any arena and at any place.
* `Arena.decodeRun_extract` : decoding the bytes of a run gives its observations.
-/

namespace TimeWeighted

namespace Arena

open Observation

/-- The entry `i` of the run that starts at offset `start`. -/
def entry (a : Arena) (start i : ℕ) : ByteArray :=
  a.bytes.extract (start + width * i) (start + width * i + width)

/-- The first `n` entries of the run that starts at offset `start`. -/
def entries (a : Arena) (start n : ℕ) : List ByteArray :=
  (List.range n).map (a.entry start)

/-- The observations in the first `n` entries from offset `start` on. -/
def observations (a : Arena) (start n : ℕ) : List Observation :=
  (a.entries start n).map ofEntry

variable {a b : Arena} {start i n m : ℕ}

@[simp] theorem length_entries (a : Arena) (start n : ℕ) : (a.entries start n).length = n := by
  simp [entries]

@[simp] theorem length_observations (a : Arena) (start n : ℕ) :
    (a.observations start n).length = n := by
  simp [observations]

@[simp] theorem entries_zero (a : Arena) (start : ℕ) : a.entries start 0 = [] :=
  rfl

theorem entries_succ (a : Arena) (start n : ℕ) :
    a.entries start (n + 1) = a.entries start n ++ [a.entry start n] := by
  simp [entries, List.range_succ]

theorem entry_add (a : Arena) (start i m : ℕ) :
    a.entry (start + width * i) m = a.entry start (i + m) := by
  simp only [entry, Nat.mul_add, Nat.add_assoc]

theorem entries_add (a : Arena) (start m n : ℕ) :
    a.entries start (m + n) = a.entries start m ++ a.entries (start + width * m) n := by
  simp only [entries, List.range_add, List.map_append, List.map_map]
  congr 1
  refine List.map_congr_left fun i _ => ?_
  rw [Function.comp_apply, entry_add]

theorem entries_drop (a : Arena) (start : ℕ) (h : i ≤ n) :
    (a.entries start n).drop i = a.entries (start + width * i) (n - i) := by
  obtain ⟨m, rfl⟩ := Nat.exists_eq_add_of_le h
  rw [entries_add, List.drop_left' (length_entries a start i), Nat.add_sub_cancel_left]

theorem entries_drop_cons (a : Arena) (start : ℕ) (h : i < n) :
    (a.entries start n).drop i = a.entry start i :: (a.entries start n).drop (i + 1) := by
  have hi : i < (a.entries start n).length := by simpa using h
  rw [List.drop_eq_getElem_cons hi]
  simp [entries]

theorem observations_succ {o : Observation}
    (h : a.bytes.extract (start + width * n) (start + width * n + width) = o.encode) :
    a.observations start (n + 1) = a.observations start n ++ [o] := by
  have hentry : a.entry start n = o.encode := h
  simp [observations, entries_succ, hentry, ofEntry_encode]

theorem extract_extract_entry (a : Arena) (start : ℕ) (h : i < n) :
    (a.bytes.extract start (start + width * n)).extract (width * i) (width * i + width) =
      a.entry start i := by
  have hle : width * i + width ≤ width * n := by
    simp only [width]
    omega
  rw [ByteArray.extract_extract, entry, Nat.min_eq_left (by omega), Nat.add_assoc]

/-- Runs of equal bytes are equal, in any arenas and at any offsets. -/
theorem entries_of_extract_eq {p q : ℕ}
    (h : b.bytes.extract q (q + width * n) = a.bytes.extract p (p + width * n)) :
    b.entries q n = a.entries p n := by
  refine List.map_congr_left fun i hi => ?_
  rw [List.mem_range] at hi
  rw [← extract_extract_entry b q hi, ← extract_extract_entry a p hi, h]

theorem observations_of_extract_eq {p q : ℕ}
    (h : b.bytes.extract q (q + width * n) = a.bytes.extract p (p + width * n)) :
    b.observations q n = a.observations p n := by
  rw [observations, observations, entries_of_extract_eq h]

theorem Extends.entries_eq (h : a.Extends b) (hle : start + width * n ≤ a.size) :
    b.entries start n = a.entries start n :=
  entries_of_extract_eq (h.extract_eq _ _ hle)

theorem Extends.observations_eq (h : a.Extends b) (hle : start + width * n ≤ a.size) :
    b.observations start n = a.observations start n :=
  observations_of_extract_eq (h.extract_eq _ _ hle)

theorem Edited.entries_eq {lo hi : ℕ} (h : a.Edited b lo hi) (hle : start + width * n ≤ a.size)
    (hout : start + width * n ≤ lo ∨ hi ≤ start) : b.entries start n = a.entries start n :=
  entries_of_extract_eq (h.extract_eq _ _ hle hout)

theorem Edited.observations_eq {lo hi : ℕ} (h : a.Edited b lo hi)
    (hle : start + width * n ≤ a.size) (hout : start + width * n ≤ lo ∨ hi ≤ start) :
    b.observations start n = a.observations start n :=
  observations_of_extract_eq (h.extract_eq _ _ hle hout)

/-- Decoding the bytes of a run gives its observations. -/
theorem decodeRun_extract (a : Arena) (start n : ℕ) :
    decodeRun (a.bytes.extract start (start + width * n)) n = a.observations start n := by
  simp only [decodeRun, observations, entries, List.map_map]
  refine List.map_congr_left fun i hi => ?_
  rw [List.mem_range] at hi
  rw [Function.comp_apply, ← extract_extract_entry a start hi, ofEntry_extract, Nat.mul_comm i]

end Arena

end TimeWeighted
