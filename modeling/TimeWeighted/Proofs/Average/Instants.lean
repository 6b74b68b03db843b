import Mathlib
import TimeWeighted.Proofs.Average.Ties

/-!
# Instants that floats do not tell apart

The average of observations that take no time is the mean of their values.  Whether they take time
is found out after their timestamps were rounded, so that the mean is also taken of observations
around one float, at different instants.  This does not happen to timestamps of at most 53 bits, nor
over more than `1024` microseconds.

* `Observation.Together` : observations around one float.
* `Observation.isPositive_iff_not_together` : which observations take time.
* `Observation.average_of_instants` : **the mean is taken of observations around one float.**
-/

namespace TimeWeighted

namespace Observation

/-- The times of the observations are the same once they are rounded. -/
def Together (l : List Observation) : Prop :=
  ∀ a ∈ l, ∀ b ∈ l, a.ts.rounded = b.ts.rounded

instance (l : List Observation) : Decidable (Together l) :=
  inferInstanceAs (Decidable (∀ a ∈ l, ∀ b ∈ l, a.ts.rounded = b.ts.rounded))

variable {first second : Observation} {rest : List Observation}

theorem between_of_inOrder (hl : InOrder (first :: second :: rest)) :
    ∀ o ∈ first :: second :: rest, first.ts ≤ o.ts ∧ o.ts ≤ (rest.getLastD second).ts := by
  intro o ho
  have hlast := hl.rel_getLast_of_rel_getLast_getLast ho Int64.le_rfl
  rw [List.getLast_eq_getLastD, List.getLastD_cons] at hlast
  exact ⟨hl.rel_head_of_rel_head_head ho Int64.le_rfl, hlast⟩

/-- Observations in order of time take time unless they are around one float. -/
theorem isPositive_iff_not_together (hl : InOrder (first :: second :: rest)) :
    Scalar.isPositive (duration first.ts (rest.getLastD second).ts : Float) = true ↔
      ¬Together (first :: second :: rest) := by
  have hbetween := between_of_inOrder hl
  have hlast : rest.getLastD second ∈ first :: second :: rest := by
    rw [← List.getLast_eq_getLastD (List.cons_ne_nil second rest)]
    exact List.mem_cons_of_mem _ (List.getLast_mem _)
  rw [isPositive_duration]
  constructor
  · intro hlt htogether
    exact hlt.ne (htogether first List.mem_cons_self _ hlast)
  · intro hapart
    by_contra hlt
    refine hapart fun a ha b hb => ?_
    have ha' := hbetween a ha
    have hb' := hbetween b hb
    have := Timestamp.rounded_mono ha'.1
    have := Timestamp.rounded_mono ha'.2
    have := Timestamp.rounded_mono hb'.1
    have := Timestamp.rounded_mono hb'.2
    omega

/-- **The mean is taken of observations around one float.**  Of two observations or more in order of
time the average is the mean of the values if all times are rounded to the same float, and otherwise
the integral divided by the time.  Times that are equal are rounded to the same float.  Times that
are not are told apart if they have at most 53 bits, and so are the first and the last one if there
are more than `1024` microseconds between them. -/
theorem average_of_instants (hl : InOrder (first :: second :: rest)) :
    (average (first :: second :: rest) =
      if Together (first :: second :: rest) then
        ((second :: rest).map Sample.value).foldl (· + ·) first.value /
          Float.ofInt (rest.length + 2 : ℕ)
      else
        (first.gains (second :: rest)).foldl (· + ·) (Float.ofInt 0) /
          duration first.ts (rest.getLastD second).ts) ∧
    (Scalar.isPositive (duration first.ts (rest.getLastD second).ts : Float) = true ↔
      ¬Together (first :: second :: rest)) ∧
    ((∀ o ∈ first :: second :: rest, o.ts = first.ts) → Together (first :: second :: rest)) ∧
    ((∀ o ∈ first :: second :: rest, o.ts.toInt.natAbs ≤ 2 ^ 53) →
      Together (first :: second :: rest) → ∀ o ∈ first :: second :: rest, o.ts = first.ts) ∧
    (first.ts.toInt + 1024 < (rest.getLastD second).ts.toInt →
      ¬Together (first :: second :: rest)) := by
  have hpositive := isPositive_iff_not_together hl
  refine ⟨?_, hpositive, ?_, ?_, ?_⟩
  · rw [average, average?_cons_cons]
    by_cases htogether : Together (first :: second :: rest)
    · rw [if_pos htogether, if_neg (not_not.2 htogether ∘ hpositive.1)]
      rfl
    · rw [if_neg htogether, if_pos (hpositive.2 htogether)]
      rfl
  · intro hsame a ha b hb
    rw [hsame a ha, hsame b hb]
  · intro hexact htogether o ho
    have h := htogether o ho first List.mem_cons_self
    rw [Timestamp.rounded_of_le (hexact o ho),
      Timestamp.rounded_of_le (hexact first List.mem_cons_self)] at h
    exact Int64.toInt_inj.1 h
  · intro hfar
    rw [← hpositive, isPositive_duration]
    have hfirst := first.ts.rounded_near
    have hlast := (rest.getLastD second).ts.rounded_near
    omega

/-- Two observations at different instants around one float: the mean of the values is taken,
although the first value holds for the whole time. -/
theorem average_of_instants_neighbours :
    InOrder [⟨2 ^ 53, 1⟩, ⟨2 ^ 53 + 1, 3⟩] ∧ (2 ^ 53 : Timestamp) < 2 ^ 53 + 1 ∧
      Together [⟨2 ^ 53, 1⟩, ⟨2 ^ 53 + 1, 3⟩] ∧ average [⟨2 ^ 53, 1⟩, ⟨2 ^ 53 + 1, 3⟩] = 2 := by
  have horder : InOrder [⟨2 ^ 53, 1⟩, ⟨2 ^ 53 + 1, 3⟩] := by
    unfold InOrder
    decide +kernel
  have htogether : Together [⟨2 ^ 53, 1⟩, ⟨2 ^ 53 + 1, 3⟩] := by decide +kernel
  refine ⟨horder, by decide, htogether, (average_of_instants horder).1.trans ?_⟩
  rw [if_pos htogether]
  decide +kernel

end Observation

end TimeWeighted
