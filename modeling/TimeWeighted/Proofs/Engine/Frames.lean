import Mathlib
import TimeWeighted.Engine.Query

/-!
# Rows dealt out in frames

The frames of a table, one after the other, are all its rows in their order.  So whoever is dealt
all frames once is dealt all rows once, and ascending frames have ascending rows.

* `Table.lt_frameCount_iff` : a table has the frames that begin at one of its rows.
* `Table.flatMap_frames` : the rows of all frames.
* `Query.rowsOf` : the rows of the frames that one worker is dealt.
* `Query.flatten_rowsOf_perm`, `Query.pairwise_rowsOf` : all rows once, and every worker in order.
-/

namespace TimeWeighted

namespace Table

variable {table : Table} {size : ℕ}

theorem flatMap_frames_take (table : Table) (size k : ℕ) :
    (List.range k).flatMap (fun i => (table.frame size i).indices) =
      List.range (min (k * size) table.rowCount) := by
  induction k with
  | zero => simp
  | succ k ih =>
    rw [List.range_succ, List.flatMap_append, ih, List.flatMap_singleton, frame, Frame.indices,
      Nat.succ_mul, List.range_eq_range', List.range_eq_range']
    rcases Nat.le_total (k * size) table.rowCount with h | h
    · have happend := @List.range'_append_1 0 (k * size)
        (min (k * size + size) table.rowCount - k * size)
      rw [Nat.zero_add] at happend
      rw [Nat.min_eq_left h, happend]
      congr 1
      omega
    · rw [Nat.min_eq_right h, Nat.min_eq_right (by omega : table.rowCount ≤ k * size + size),
        Nat.sub_eq_zero_of_le h]
      simp

/-- A table has the frames that begin at one of its rows. -/
theorem lt_frameCount_iff (table : Table) (h : 0 < size) {i : ℕ} :
    i < table.frameCount size ↔ i * size < table.rowCount := by
  rw [frameCount, Nat.lt_div_iff_mul_lt h]
  omega

theorem rowCount_le_frames (table : Table) (h : 0 < size) :
    table.rowCount ≤ table.frameCount size * size :=
  Nat.not_lt.1 ((table.lt_frameCount_iff h).not.1 (Nat.lt_irrefl _))

/-- **The frames of a table, one after the other, are its rows.** -/
theorem flatMap_frames (table : Table) (h : 0 < size) :
    (List.range (table.frameCount size)).flatMap (fun i => (table.frame size i).indices) =
      List.range table.rowCount := by
  rw [flatMap_frames_take, Nat.min_eq_right (table.rowCount_le_frames h)]

theorem mem_indices_frame {i row : ℕ} (h : row ∈ (table.frame size i).indices) :
    i * size ≤ row ∧ row < i * size + size := by
  simp only [frame, Frame.indices, List.mem_range'_1] at h
  omega

end Table

namespace Query

variable {φ : Type} {query : Query φ} {table : Table}

/-- The rows of the frames that a worker is dealt. -/
def rowsOf (query : Query φ) (table : Table) (frames : List ℕ) : List ℕ :=
  frames.flatMap fun i => (table.frame query.frameSize i).indices

theorem pairwise_rowsOf {frames : List ℕ} (h : frames.Pairwise (· < ·)) :
    (query.rowsOf table frames).Pairwise (· < ·) := by
  rw [rowsOf, List.pairwise_flatMap]
  refine ⟨fun i _ => ?_, h.imp fun {i j} hij x hx y hy => ?_⟩
  · exact List.pairwise_lt_range'
  · have hx' := Table.mem_indices_frame hx
    have hy' := Table.mem_indices_frame hy
    have hmul : (i + 1) * query.frameSize ≤ j * query.frameSize := Nat.mul_le_mul_right _ hij
    rw [Nat.succ_mul] at hmul
    omega

theorem flatten_rowsOf_perm {dealt : List (List ℕ)}
    (h : dealt.flatten.Perm (List.range (table.frameCount query.frameSize))) :
    (dealt.map (query.rowsOf table)).flatten.Perm (List.range table.rowCount) := by
  have hflat : (dealt.map (query.rowsOf table)).flatten = query.rowsOf table dealt.flatten := by
    clear h
    induction dealt with
    | nil => rfl
    | cons frames rest ih =>
      rw [List.map_cons, List.flatten_cons, List.flatten_cons, ih, rowsOf, rowsOf, rowsOf,
        List.flatMap_append]
  rw [hflat, ← table.flatMap_frames query.frameSize_pos]
  exact h.flatMap_right _

end Query

end TimeWeighted
