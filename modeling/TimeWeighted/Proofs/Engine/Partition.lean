import Mathlib
import TimeWeighted.Proofs.Engine.Frames
import TimeWeighted.Proofs.Outcome

/-!
# Frames in machine words

However long its frames are, they part the rows of a table.  Where a frame begins, and where it
would end if there were rows enough, is computed in 64-bit words.  Only the first frame can be
longer than the table, and it begins at zero; so neither number outgrows a word, even if the length
of frames is the greatest that a word can hold.

* `Table.length_frame` : how many rows a frame has.
* `Table.reach_lt_wordSpan` : where a frame would end is a number that a word can hold.
* `Table.frameInWords` : a frame as words compute it.
* `Table.frames_partition` : **frames part a table, and words compute them.**
-/

namespace TimeWeighted

namespace Table

variable {table : Table} {size i : ℕ}

theorem length_frame (table : Table) (size i : ℕ) :
    (table.frame size i).indices.length = min size (table.rowCount - i * size) := by
  simp only [frame, Frame.indices, List.length_range']
  omega

/-- Where a frame would end, before it is cut to the rows there are, is a number that a word can
hold if the length of frames is: a table of more than one frame has shorter frames than rows. -/
theorem reach_lt_wordSpan (rows : table.rowCount ≤ 2 ^ 63) (word : size < wordSpan)
    (hi : i * size < table.rowCount) : i * size + size < wordSpan := by
  rcases Nat.eq_zero_or_pos i with rfl | hpos
  · rwa [Nat.zero_mul, Nat.zero_add]
  · have hsize := Nat.le_mul_of_pos_left size hpos
    simp only [wordSpan]
    omega

/-- The frame `i` as words compute it: a product or a sum that does not fit into a word is a fault,
even if the rows end before. -/
def frameInWords (table : Table) (size i : ℕ) : Except Fault Frame := do
  let start ← checkedLength (i * size)
  let reach ← checkedLength (start + size)
  return ⟨start, min reach table.rowCount⟩

theorem frameInWords_of_lt (h : i * size + size < wordSpan) :
    table.frameInWords size i = .ok (table.frame size i) := by
  have hstart : i * size < wordSpan := by omega
  rw [frameInWords, checkedLength_of_lt hstart, ok_bind, checkedLength_of_lt h, ok_bind, frame]
  rfl

/-- **Frames part a table, and words compute them.**  A table of fewer than `2 ^ 63` rows is cut
into frames of any length that a word can hold.  The rows of the frames, one frame after the other,
are those of the table in their order; no frame is empty or too long, and all but the last are full.
Neither where a frame begins nor where it would end if there were rows enough outgrows a word, so
that computing with words gives the frame. -/
theorem frames_partition (table : Table) (size : ℕ) (rows : table.rowCount < 2 ^ 63)
    (pos : 0 < size) (word : size < wordSpan) :
    (List.range (table.frameCount size)).flatMap (fun i => (table.frame size i).indices) =
      List.range table.rowCount ∧
    ∀ i < table.frameCount size,
      0 < (table.frame size i).indices.length ∧ (table.frame size i).indices.length ≤ size ∧
      (i + 1 < table.frameCount size → (table.frame size i).indices.length = size) ∧
      i * size < wordSpan ∧ (table.frame size i).start + size < wordSpan ∧
      table.frameInWords size i = .ok (table.frame size i) := by
  refine ⟨table.flatMap_frames pos, fun i hi => ?_⟩
  rw [table.lt_frameCount_iff pos] at hi
  have hreach := reach_lt_wordSpan rows.le word hi
  rw [length_frame]
  refine ⟨by omega, by omega, fun hnext => ?_, by omega, hreach, frameInWords_of_lt hreach⟩
  -- the next frame begins at a row, and so this one ends before the rows do
  rw [table.lt_frameCount_iff pos, Nat.succ_mul] at hnext
  omega

/-- Ten rows in frames of three, the last of which has a single row; ten rows in one frame of the
greatest length; and as many rows as there may be, in two frames, the second of which would end just
below the numbers that words cannot hold. -/
theorem frames_partition_ends :
    let ten : Table := ⟨#[.timestamps (Array.replicate 10 0)], 10, by simp [Column.size]⟩
    let most : Table := ⟨#[.timestamps (Array.replicate (2 ^ 63 - 1) 0)], 2 ^ 63 - 1,
      by simp [Column.size]⟩
    ten.frameCount 3 = 4 ∧
    (List.range 4).flatMap (fun i => (ten.frame 3 i).indices) = List.range 10 ∧
    (ten.frame 3 2).indices.length = 3 ∧ ten.frameInWords 3 3 = .ok ⟨9, 10⟩ ∧
    ten.frameCount (wordSpan - 1) = 1 ∧ ten.frameInWords (wordSpan - 1) 0 = .ok ⟨0, 10⟩ ∧
    most.frameCount (2 ^ 63 - 2) = 2 ∧
    most.frameInWords (2 ^ 63 - 2) 1 = .ok ⟨2 ^ 63 - 2, 2 ^ 63 - 1⟩ := by
  intro ten most
  have hfour : ten.frameCount 3 = 4 := by decide
  obtain ⟨hrows, hten⟩ := frames_partition ten 3 (by decide) (by decide) (by decide)
  obtain ⟨-, hone⟩ := frames_partition ten (wordSpan - 1) (by decide) (by decide) (by decide)
  obtain ⟨-, hmost⟩ := frames_partition most (2 ^ 63 - 2) (by decide) (by decide) (by decide)
  obtain ⟨-, -, hfull, -⟩ := hten 2 (by decide)
  obtain ⟨-, -, -, -, -, hlast⟩ := hten 3 (by decide)
  obtain ⟨-, -, -, -, -, hgreatest⟩ := hone 0 (by decide)
  obtain ⟨-, -, -, -, -, hsecond⟩ := hmost 1 (by decide)
  rw [hfour] at hrows
  exact ⟨hfour, hrows, hfull (by decide), hlast, by decide, hgreatest, by decide, hsecond⟩

end Table

end TimeWeighted
