import Mathlib
import TimeWeighted.Average

/-!
# Running sums

The average of two samples or more is one of two quotients: of the integral, to which every sample
adds what the value before it gained, by the time between the first sample and the last, or of the
sum of the values by their number.  Both sums are added up from left to right.

* `Sample.gains` : what the samples add to the integral.
* `Sums.weighted_foldl`, `Sums.plain_foldl` : the two sums.
* `average?_cons_cons` : the average, by the two sums.
-/

namespace TimeWeighted

variable {α : Type} [Scalar α]

/-- What samples add to the integral, one after the other: the value of the sample before, times the
time it held for. -/
def Sample.gains (latest : Sample α) : List (Sample α) → List α
  | [] => []
  | o :: rest => latest.value * duration latest.ts o.ts :: o.gains rest

theorem Sample.length_gains (latest : Sample α) (l : List (Sample α)) :
    (latest.gains l).length = l.length := by
  induction l generalizing latest with
  | nil => rfl
  | cons o rest ih => rw [gains, List.length_cons, ih, List.length_cons]

namespace Sums

variable (sums : Sums α) (l : List (Sample α))

theorem latest_foldl : (l.foldl add sums).latest = l.getLastD sums.latest := by
  induction l generalizing sums with
  | nil => rfl
  | cons o rest ih =>
    rw [List.foldl_cons, ih, List.getLastD_cons]
    rfl

theorem count_foldl : (l.foldl add sums).count = sums.count + l.length := by
  induction l generalizing sums with
  | nil => rfl
  | cons o rest ih =>
    rw [List.foldl_cons, ih, List.length_cons, Nat.add_comm rest.length, ← Nat.add_assoc]
    rfl

theorem weighted_foldl :
    (l.foldl add sums).weighted = (sums.latest.gains l).foldl (· + ·) sums.weighted := by
  induction l generalizing sums with
  | nil => rfl
  | cons o rest ih => exact ih (sums.add o)

theorem plain_foldl :
    (l.foldl add sums).plain = (l.map Sample.value).foldl (· + ·) sums.plain := by
  induction l generalizing sums with
  | nil => rfl
  | cons o rest ih => exact ih (sums.add o)

end Sums

/-- **The average of two samples or more**, by the two sums. -/
theorem average?_cons_cons (first second : Sample α) (rest : List (Sample α)) :
    average? (first :: second :: rest) =
      if Scalar.isPositive (duration first.ts (rest.getLastD second).ts : α) then
        some ((first.gains (second :: rest)).foldl (· + ·) (Scalar.ofInt 0) /
          duration first.ts (rest.getLastD second).ts)
      else
        some (((second :: rest).map Sample.value).foldl (· + ·) first.value /
          Scalar.ofInt (rest.length + 2 : ℕ)) := by
  have hcount : ((second :: rest).foldl Sums.add (Sums.ofFirst first)).count = rest.length + 2 := by
    rw [Sums.count_foldl, List.length_cons, Nat.add_comm]
    rfl
  have hlatest : ((second :: rest).foldl Sums.add (Sums.ofFirst first)).latest =
      rest.getLastD second := by
    rw [Sums.latest_foldl, List.getLastD_cons]
  rw [average?, hcount, hlatest, Sums.weighted_foldl, Sums.plain_foldl]
  · rfl
  · exact List.cons_ne_nil second rest

end TimeWeighted
