import Mathlib
import TimeWeighted.Proofs.Average.Sums

/-!
# The average of a step function

In exact arithmetic the running sums of an average are an integral.  Samples in order of time say
what the value is at every instant: it is that of the last sample made by then.  The average is the
sum of these values over all instants from the first sample up to the last, the last excluded,
divided by the number of instants.

* `Sample.level` : the value at an instant.
* `Sample.foldl_gains` : the running sum adds up the values at all instants gone through.
* `Sample.level_of_idle` : which samples hold for no time.
* `average_exact` : **the average is that of the step function**, or of the values if there is only
  one instant.
-/

namespace TimeWeighted

open Finset

/-! ### Values at instants -/

namespace Sample

/-- The value at an instant, in microseconds: that of the last sample that is not later. -/
def level (l : List (Sample ℚ)) (t : ℤ) : ℚ :=
  ((l.filter fun s => s.ts.toInt ≤ t).getLast?.map value).getD 0

variable {s : Sample ℚ} {l : List (Sample ℚ)} {t : ℤ}

theorem level_cons_of_lt (hs : s.ts.toInt ≤ t) (hl : ∀ o ∈ l, t < o.ts.toInt) :
    level (s :: l) t = s.value := by
  have hnil : l.filter (fun o => o.ts.toInt ≤ t) = [] := by
    simpa [List.filter_eq_nil_iff] using hl
  simp [level, hs, hnil]

theorem level_append_of_le (before : List (Sample ℚ)) (hs : s ∈ l) (hle : s.ts.toInt ≤ t) :
    level (before ++ l) t = level l t := by
  have hne : l.filter (fun o => o.ts.toInt ≤ t) ≠ [] :=
    List.ne_nil_of_mem (List.mem_filter.2 ⟨hs, decide_eq_true hle⟩)
  rw [level, List.filter_append, List.getLast?_append_of_ne_nil _ hne]
  rfl

/-! ### Running sums -/

/-- **The running sum adds up the values at all instants gone through.** -/
theorem foldl_gains (hl : (s :: l).Pairwise (·.ts ≤ ·.ts)) (x : ℚ) :
    (s.gains l).foldl (· + ·) x =
      x + ∑ t ∈ Ico s.ts.toInt (l.getLastD s).ts.toInt, level (s :: l) t := by
  induction l generalizing s x with
  | nil => simp [gains]
  | cons o rest ih =>
    obtain ⟨hfirst, hrest⟩ := List.pairwise_cons.1 hl
    have hle : s.ts.toInt ≤ o.ts.toInt := Int64.le_iff_toInt_le.1 (hfirst o List.mem_cons_self)
    have hall : ∀ p ∈ o :: rest, o.ts.toInt ≤ p.ts.toInt := fun p hp =>
      Int64.le_iff_toInt_le.1 (hrest.rel_head_of_rel_head_head hp Int64.le_rfl)
    have hlast : o.ts.toInt ≤ (rest.getLastD o).ts.toInt := by
      have h := hall _ (List.getLast_mem (List.cons_ne_nil o rest))
      rwa [List.getLast_eq_getLastD] at h
    have hnow : ∀ t ∈ Ico s.ts.toInt o.ts.toInt, level (s :: o :: rest) t = s.value := by
      intro t ht
      rw [mem_Ico] at ht
      exact level_cons_of_lt ht.1 fun p hp => ht.2.trans_le (hall p hp)
    have hlater : ∀ t ∈ Ico o.ts.toInt (rest.getLastD o).ts.toInt,
        level (s :: o :: rest) t = level (o :: rest) t := by
      intro t ht
      exact level_append_of_le [s] List.mem_cons_self (mem_Ico.1 ht).1
    have hgain : s.value * duration s.ts o.ts = (o.ts.toInt - s.ts.toInt).toNat • s.value := by
      have hcast : (((o.ts.toInt - s.ts.toInt).toNat : ℤ) : ℚ) = duration s.ts o.ts := by
        rw [Int.toNat_of_nonneg (by omega), Int.cast_sub]
        rfl
      rw [nsmul_eq_mul, ← Int.cast_natCast, hcast, mul_comm]
    rw [gains, List.foldl_cons, ih hrest, List.getLastD_cons, ← Ico_union_Ico_eq_Ico hle hlast,
      sum_union (Ico_disjoint_Ico_consecutive _ _ _), sum_congr rfl hnow, sum_congr rfl hlater,
      sum_const, Int.card_Ico, hgain, add_assoc]

/-- Samples that hold for no time do not count: the last one, and one that is followed by another
one made at the same time. -/
theorem level_of_idle {before after : List (Sample ℚ)} (x : ℚ)
    (hafter : ∀ o ∈ after.head?, o.ts = s.ts) (ht : after = [] → t < s.ts.toInt) :
    level (before ++ ⟨s.ts, x⟩ :: after) t = level (before ++ s :: after) t := by
  by_cases hle : s.ts.toInt ≤ t
  · obtain ⟨o, rest, rfl⟩ := List.exists_cons_of_ne_nil fun hnil => (ht hnil).not_ge hle
    have hts : o.ts = s.ts := hafter o rfl
    have hskip : ∀ s' : Sample ℚ, level (before ++ s' :: o :: rest) t = level (o :: rest) t := by
      intro s'
      have hsplit : before ++ s' :: o :: rest = (before ++ [s']) ++ o :: rest := by simp
      rw [hsplit]
      exact level_append_of_le _ List.mem_cons_self (hts ▸ hle)
    rw [hskip, hskip]
  · -- neither of the two samples has been made yet
    simp [level, hle]

end Sample

/-! ### Averages -/

variable {l : List (Sample ℚ)} {a b : Timestamp}

theorem average?_eq_integral (hl : (l.map Sample.ts).Pairwise (· ≤ ·))
    (ha : (l.map Sample.ts).head? = some a) (hb : (l.map Sample.ts).getLast? = some b)
    (hab : a < b) :
    average? l = some ((∑ t ∈ Ico a.toInt b.toInt, Sample.level l t) / (b.toInt - a.toInt)) := by
  match l with
  | [] => cases ha
  | [only] =>
    obtain rfl : only.ts = a := by simpa using ha
    obtain rfl : only.ts = b := by simpa using hb
    exact absurd hab Int64.lt_irrefl
  | first :: second :: rest =>
    rw [List.pairwise_map] at hl
    obtain rfl : first.ts = a := by simpa using ha
    obtain rfl : (rest.getLastD second).ts = b := by
      rw [List.getLast?_map, List.getLast?_cons_cons, List.getLast?_cons,
        ← List.getLastD_eq_getLast?] at hb
      exact Option.some.inj hb
    have hspan : Scalar.isPositive (duration first.ts (rest.getLastD second).ts : ℚ) = true :=
      decide_eq_true (sub_pos.2 (Int.cast_lt.2 (Int64.lt_iff_toInt_lt.1 hab)))
    have hzero : (Scalar.ofInt 0 : ℚ) = 0 := rfl
    rw [average?_cons_cons, if_pos hspan, Sample.foldl_gains hl, List.getLastD_cons, hzero,
      zero_add]
    rfl

theorem average?_eq_mean (ha : (l.map Sample.ts).head? = some a) (hl : ∀ s ∈ l, s.ts = a) :
    average? l = some ((l.map Sample.value).sum / l.length) := by
  match l with
  | [] => cases ha
  | [only] => simp [average?]
  | first :: second :: rest =>
    have hlast : (rest.getLastD second).ts = first.ts := by
      rw [hl first List.mem_cons_self, ← List.getLast_eq_getLastD (List.cons_ne_nil second rest)]
      exact hl _ (List.mem_cons_of_mem _ (List.getLast_mem _))
    have hspan : ¬Scalar.isPositive (duration first.ts first.ts : ℚ) = true := by
      simp [Scalar.isPositive, duration]
    have hsum : ((first :: second :: rest).map Sample.value).sum =
        ((second :: rest).map Sample.value).foldl (· + ·) first.value := by
      rw [List.sum_eq_foldl, List.map_cons, List.foldl_cons, zero_add]
    rw [average?_cons_cons, hlast, if_neg hspan, hsum]
    rfl

/-- **The average is that of the step function.**  In exact arithmetic, the average of samples in
order of time is the sum of the values at all instants from the first time to the last, the last one
excluded, divided by the time between the two; so no sample counts that is followed by another one
of the same time, nor does the last one.  Samples of one instant have the mean of their values for
an average. -/
theorem average_exact (hl : (l.map Sample.ts).Pairwise (· ≤ ·))
    (ha : (l.map Sample.ts).head? = some a) (hb : (l.map Sample.ts).getLast? = some b) :
    (a < b →
      average? l =
        some ((∑ t ∈ Ico a.toInt b.toInt, Sample.level l t) / (b.toInt - a.toInt)) ∧
      ∀ (before : List (Sample ℚ)) (s : Sample ℚ) (after : List (Sample ℚ)) (x : ℚ),
        l = before ++ s :: after → (∀ o ∈ after.head?, o.ts = s.ts) →
        average? (before ++ ⟨s.ts, x⟩ :: after) = average? l) ∧
    ((∀ s ∈ l, s.ts = a) → average? l = some ((l.map Sample.value).sum / l.length)) := by
  refine ⟨fun hab => ⟨average?_eq_integral hl ha hb hab, ?_⟩, average?_eq_mean ha⟩
  rintro before s after x rfl hafter
  have hts : (before ++ ⟨s.ts, x⟩ :: after).map Sample.ts =
      (before ++ s :: after).map Sample.ts := by
    simp
  rw [average?_eq_integral hl ha hb hab,
    average?_eq_integral (hts ▸ hl) (hts ▸ ha) (hts ▸ hb) hab]
  congr 2
  refine sum_congr rfl fun t ht => Sample.level_of_idle x hafter ?_
  rintro rfl
  obtain rfl : s.ts = b := by simpa using hb
  exact (mem_Ico.1 ht).2

/-- Four samples, two of them of one instant: `4` holds for `20` of the `30` microseconds, `1` for
the other `10`. -/
theorem average_exact_four :
    (-30 : Timestamp) < 0 ∧
      average? ([⟨-30, 4⟩, ⟨-10, 8⟩, ⟨-10, 1⟩, ⟨0, 2⟩] : List (Sample ℚ)) = some 3 ∧
      average? ([⟨-30, 4⟩, ⟨-10, 7⟩, ⟨-10, 1⟩, ⟨0, 2⟩] : List (Sample ℚ)) = some 3 ∧
      average? ([⟨5, 4⟩, ⟨5, 8⟩] : List (Sample ℚ)) = some 6 := by
  have four := average_exact (l := [⟨-30, 4⟩, ⟨-10, 8⟩, ⟨-10, 1⟩, ⟨0, 2⟩]) (a := -30) (b := 0)
    (by decide) rfl rfl
  have two := average_exact (l := [⟨5, 4⟩, ⟨5, 8⟩]) (a := 5) (b := 5) (by decide) rfl rfl
  obtain ⟨hsum, hidle⟩ := four.1 (by decide)
  have hthree : average? ([⟨-30, 4⟩, ⟨-10, 8⟩, ⟨-10, 1⟩, ⟨0, 2⟩] : List (Sample ℚ)) = some 3 :=
    hsum.trans (by decide +kernel)
  have hsame := hidle [⟨-30, 4⟩] ⟨-10, 8⟩ [⟨-10, 1⟩, ⟨0, 2⟩] 7 rfl (by decide)
  exact ⟨by decide, hthree, hsame.trans hthree, (two.2 (by decide)).trans (by decide +kernel)⟩

end TimeWeighted
