import TimeWeighted.Observation

/-!
# Time-weighted averages

Samples in time order describe a step function: each value holds from its own time until the next
sample.  The time-weighted average is the integral of that function over the whole span, divided by
the length of the span.  Samples that all share one instant span nothing; their average is the
arithmetic mean of the values.

* `Scalar` : the arithmetic an average is computed in, with instances for floats and rationals.
* `average?` : the average, `none` for no samples.
* `Observation.average` : the average of observations, `NaN` for none.
-/

namespace TimeWeighted

/-- Numbers that averages are computed in. -/
class Scalar (α : Type) extends Add α, Sub α, Mul α, Div α where
  /-- The number nearest to an integer. -/
  ofInt : Int → α
  /-- Whether a number is greater than zero. -/
  isPositive : α → Bool

/-- Floats round after every operation. -/
instance : Scalar Float where
  ofInt := Float.ofInt
  isPositive x := 0.0 < x

/-- Rationals are exact. -/
instance : Scalar Rat where
  ofInt n := n
  isPositive x := 0 < x

section

variable {α : Type} [Scalar α]

/-- The time from one instant to another.  Both are converted before they are subtracted, as the
time between two timestamps may exceed 64 bits. -/
def duration (start stop : Timestamp) : α :=
  Scalar.ofInt stop.toInt - Scalar.ofInt start.toInt

/-- What is kept of the samples seen so far. -/
structure Sums (α : Type) where
  /-- The sample seen last, whose value still holds. -/
  latest : Sample α
  /-- How many samples were seen. -/
  count : Nat
  /-- The integral from the first sample to the latest. -/
  weighted : α
  /-- The sum of all values. -/
  plain : α

namespace Sums

/-- After the first sample. -/
def ofFirst (s : Sample α) : Sums α where
  latest := s
  count := 1
  weighted := Scalar.ofInt 0
  plain := s.value

/-- After one more sample: the value that held until now gains the time it held for. -/
def add (sums : Sums α) (s : Sample α) : Sums α where
  latest := s
  count := sums.count + 1
  weighted := sums.weighted + sums.latest.value * duration sums.latest.ts s.ts
  plain := sums.plain + s.value

end Sums

/-- The time-weighted average of samples in time order. -/
def average? : List (Sample α) → Option α
  | [] => none
  | [only] => some only.value
  | first :: rest =>
    let sums := rest.foldl Sums.add (Sums.ofFirst first)
    let span : α := duration first.ts sums.latest.ts
    if Scalar.isPositive span then some (sums.weighted / span)
    else some (sums.plain / Scalar.ofInt sums.count)

end

/-- The time-weighted average of observations in time order. -/
def Observation.average (observations : List Observation) : Float :=
  (average? observations).getD missingValue

end TimeWeighted
