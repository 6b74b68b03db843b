import Mathlib
import TimeWeighted.Proofs.Average.Durations
import TimeWeighted.Proofs.Average.Sums
import TimeWeighted.Proofs.Engine.Reduction

/-!
# Averages and ties

An average depends on the order of observations made at one instant.  Of those only the last one
goes on to hold for some time; what the others gain in no time is a zero, unless they are infinite.
So if the whole takes time at all, it only matters which observation comes last at each instant, and
at the greatest instant not even that, as long as the values there are finite.

* `Observation.area` : the integral, from one observation to the next.
* `Observation.area_instant` : what is gained in no time.
* `Observation.EndsAlike` : the same observation comes last at every instant that matters.
* `Observation.average_eq_of_endsAlike` : **only the last observation at an instant counts.**
* `Observation.average_mergeSort_eq` : the same of lists that are sorted first.
-/

namespace TimeWeighted

namespace Observation

open Float.Model

/-! ### The integral -/

/-- The integral from the latest observation to the last one of a list, added to a sum. -/
def area (sum : Float) (latest : Observation) : List Observation → Float
  | [] => sum
  | o :: rest => area (sum + latest.value * duration latest.ts o.ts) o rest

theorem foldl_gains_eq_area (sum : Float) (latest : Observation) (l : List Observation) :
    (latest.gains l).foldl (· + ·) sum = area sum latest l := by
  induction l generalizing sum latest with
  | nil => rfl
  | cons o rest ih => exact ih _ o

theorem area_append (sum : Float) (latest : Observation) (l r : List Observation) :
    area sum latest (l ++ r) = area (area sum latest l) (l.getLastD latest) r := by
  induction l generalizing sum latest with
  | nil => rfl
  | cons o rest ih =>
    rw [List.cons_append, area, ih, List.getLastD_cons]
    rfl

/-- The integral over one instant is that up to it, unless a value before the last is infinite. -/
theorem area_instant {sum : Float} (hsum : unpacked sum ≠ .zero .negative) (latest : Observation)
    {l : List Observation} (h : ∀ o ∈ l, o.ts = latest.ts) :
    area sum latest l = if (latest :: l).dropLast.all (·.value.isFinite) then sum
      else packed .notANumber := by
  induction l generalizing sum latest with
  | nil => rfl
  | cons o rest ih =>
    have hts : o.ts = latest.ts := h o List.mem_cons_self
    have hrest : ∀ p ∈ rest, p.ts = o.ts :=
      fun p hp => (h p (List.mem_cons_of_mem _ hp)).trans hts.symm
    rw [area, hts, duration_self, List.dropLast_cons_cons, List.all_cons]
    -- one infinite value is enough for the rest of the sum not to be a number
    cases hfinite : latest.value.isFinite with
    | true =>
      obtain ⟨s, hzero⟩ := mul_zero_of_isFinite hfinite
      rw [add_of_zero hsum hzero, ih hsum o hrest, Bool.true_and]
    | false =>
      rw [mul_zero_of_infinite (by simp [hfinite]), add_nan, ih (by simp) o hrest, ite_self]
      rfl

/-! ### The last observation at an instant -/

/-- Of two lists the same observation comes last at every instant, except that at the greatest one
any observation may come last if all values there are finite. -/
def EndsAlike (l m : List Observation) : Prop :=
  ∀ t, (l.filter (·.ts == t)).getLast? = (m.filter (·.ts == t)).getLast? ∨
    ∀ o ∈ l, o.ts ≤ t ∧ (o.ts = t → o.value.isFinite = true)

theorem eq_filter_append {t : Timestamp} {l : List Observation} (hl : InOrder l)
    (hle : ∀ o ∈ l, t ≤ o.ts) : l = l.filter (·.ts == t) ++ l.filter (·.ts != t) := by
  induction l with
  | nil => rfl
  | cons o rest ih =>
    by_cases h : o.ts = t
    · rw [List.filter_cons_of_pos (by simp [h]), List.filter_cons_of_neg (by simp [h]),
        List.cons_append, ← ih hl.of_cons fun p hp => hle p (List.mem_cons_of_mem _ hp)]
    · -- nothing that comes later is at `t`
      have hnone : ∀ p ∈ o :: rest, p.ts ≠ t := by
        rintro p hp rfl
        rcases List.mem_cons.1 hp with rfl | hp
        · exact h rfl
        · exact h (Int64.le_antisymm (List.rel_of_pairwise_cons hl hp) (hle o List.mem_cons_self))
      rw [List.filter_eq_nil_iff.2 (by simpa using hnone),
        List.filter_eq_self.2 (by simpa using hnone), List.nil_append]

theorem area_eq_later {t : Timestamp} {l : List Observation} (hl : InOrder l)
    (hle : ∀ o ∈ l, t ≤ o.ts) (hne : l.filter (·.ts == t) ≠ []) {sum : Float}
    (hsum : unpacked sum ≠ .zero .negative) (latest : Observation) :
    area sum latest l =
      area (if (l.filter (·.ts == t)).dropLast.all (·.value.isFinite)
          then sum + latest.value * duration latest.ts t else packed .notANumber)
        ((l.filter (·.ts == t)).getLast hne) (l.filter (·.ts != t)) := by
  conv_lhs => rw [eq_filter_append hl hle, area_append]
  have hat : ∀ o ∈ l.filter (·.ts == t), o.ts = t := by simp
  generalize l.filter (·.ts == t) = now at *
  obtain ⟨o, rest, rfl⟩ := List.exists_cons_of_ne_nil hne
  rw [List.forall_mem_cons] at hat
  obtain ⟨rfl, hrest⟩ := hat
  rw [area, area_instant (add_ne_negZero hsum) o hrest, List.getLast_eq_getLastD,
    List.getLastD_cons]

theorem filter_filter_ts (t t' : Timestamp) (l : List Observation) :
    (l.filter (·.ts != t)).filter (·.ts == t') = if t' = t then [] else l.filter (·.ts == t') := by
  rw [List.filter_filter]
  split_ifs with h
  · simp [h]
  · refine List.filter_congr fun o _ => ?_
    by_cases ho : o.ts = t' <;> simp [ho, h]

theorem EndsAlike.later {l m : List Observation} (h : EndsAlike l m) (t : Timestamp) :
    EndsAlike (l.filter (·.ts != t)) (m.filter (·.ts != t)) := by
  intro t'
  rw [filter_filter_ts, filter_filter_ts]
  split_ifs with ht
  · exact .inl rfl
  · exact (h t').imp_right fun hall o ho => hall o (List.mem_of_mem_filter ho)

theorem dropLast_perm {α : Type} {l m : List α} (h : l.Perm m) (hne : l ≠ [])
    (hlast : l.getLast? = m.getLast?) : l.dropLast.Perm m.dropLast := by
  obtain ⟨x, hx⟩ : ∃ x, l.getLast? = some x := ⟨_, List.getLast?_eq_some_getLast hne⟩
  rw [← List.dropLast_append_getLast? x hx,
    ← List.dropLast_append_getLast? x (hlast.symm.trans hx)] at h
  exact (List.perm_append_right_iff [x]).1 h

/-- **The integral only depends on which observation comes last at an instant.** -/
theorem area_eq_of_endsAlike {l m : List Observation} (hl : InOrder l) (hm : InOrder m)
    (hperm : l.Perm m) (h : EndsAlike l m) {sum : Float} (hsum : unpacked sum ≠ .zero .negative)
    (latest : Observation) : area sum latest l = area sum latest m := by
  -- by induction on the number of observations, one instant at a time
  induction hn : l.length using Nat.strong_induction_on generalizing l m sum latest with
  | _ n ih =>
    rcases eq_or_ne l [] with rfl | hnil
    · rw [hperm.nil_eq]
    obtain ⟨o, hmem, hle⟩ : ∃ o ∈ l, ∀ p ∈ l, o.ts ≤ p.ts :=
      ⟨l.head hnil, List.head_mem hnil, fun p hp => hl.rel_head_of_rel_head_head hp Int64.le_rfl⟩
    have hnow := hperm.filter (·.ts == o.ts)
    have hlater := hperm.filter (·.ts != o.ts)
    have hne : l.filter (·.ts == o.ts) ≠ [] :=
      List.ne_nil_of_mem (List.mem_filter.2 ⟨hmem, beq_self_eq_true _⟩)
    have hne' : m.filter (·.ts == o.ts) ≠ [] := fun hnil => hne (hnil ▸ hnow).eq_nil
    rw [area_eq_later hl hle hne hsum,
      area_eq_later hm (fun p hp => hle p (hperm.mem_iff.2 hp)) hne' hsum]
    rcases h o.ts with hlast | hgreatest
    · rw [(dropLast_perm hnow hne hlast).all_eq]
      rw [List.getLast?_eq_some_getLast hne, List.getLast?_eq_some_getLast hne'] at hlast
      rw [Option.some.inj hlast]
      have hshorter : (l.filter (·.ts != o.ts)).length < n :=
        hn ▸ List.length_filter_lt_length_iff_exists.2 ⟨o, hmem, by simp⟩
      refine ih _ hshorter (hl.filter _) (hm.filter _) hlater (h.later _) ?_ _ rfl
      split_ifs
      · exact add_ne_negZero hsum
      · simp
    · -- the instant is the greatest, so there is nothing later, and all values are finite
      have hend : l.filter (·.ts != o.ts) = [] := by
        rw [List.filter_eq_nil_iff]
        intro p hp
        simpa using Int64.le_antisymm (hgreatest p hp).1 (hle p hp)
      have hfinite : ∀ p ∈ l.filter (·.ts == o.ts), p.value.isFinite = true := by
        simp only [List.mem_filter, beq_iff_eq]
        exact fun p hp => (hgreatest p hp.1).2 hp.2
      rw [hend] at hlater ⊢
      rw [← hlater.nil_eq, if_pos, if_pos]
      · rfl
      · exact List.all_eq_true.2 fun p hp =>
          hfinite p (hnow.mem_iff.2 (List.mem_of_mem_dropLast hp))
      · exact List.all_eq_true.2 fun p hp => hfinite p (List.mem_of_mem_dropLast hp)

/-! ### Averages -/

/-- As floats, the greatest instant is later than the least. -/
def TakesTime (l : List Observation) : Prop :=
  ∃ a ∈ l, ∃ b ∈ l, (∀ o ∈ l, a.ts ≤ o.ts ∧ o.ts ≤ b.ts) ∧
    Scalar.isPositive (duration a.ts b.ts : Float) = true

theorem average_eq_div {l : List Observation} (hl : InOrder l) {a b : Observation} (ha : a ∈ l)
    (hb : b ∈ l) (hbounds : ∀ o ∈ l, a.ts ≤ o.ts ∧ o.ts ≤ b.ts)
    (hpos : Scalar.isPositive (duration a.ts b.ts : Float) = true) :
    average l = area (packed (.zero .positive)) ⟨a.ts, packed (.zero .positive)⟩ l /
      duration a.ts b.ts := by
  match l with
  | [only] =>
    rw [List.mem_singleton] at ha hb
    rw [ha, hb, duration_self] at hpos
    exact absurd hpos (by decide +kernel)
  | first :: second :: rest =>
    have hfirst : first.ts = a.ts :=
      Int64.le_antisymm (hl.rel_head_of_rel_head_head ha Int64.le_rfl)
        (hbounds first List.mem_cons_self).1
    have hlast : (rest.getLastD second).ts = b.ts := by
      have hle := hl.rel_getLast_of_rel_getLast_getLast hb Int64.le_rfl
      have hge := (hbounds _ (List.getLast_mem (List.cons_ne_nil first (second :: rest)))).2
      rw [List.getLast_eq_getLastD, List.getLastD_cons] at hle hge
      exact Int64.le_antisymm hge hle
    have hzero : packed (.zero .positive) + packed (.zero .positive) * packed (.zero .positive) =
        packed (.zero .positive) := by decide +kernel
    rw [area, hfirst, duration_self, hzero]
    rw [average, average?_cons_cons, hlast, hfirst, if_pos hpos, foldl_gains_eq_area]
    rfl

/-- **Only the last observation at an instant counts**, if there is any time to be counted. -/
theorem average_eq_of_endsAlike {l m : List Observation} (hl : InOrder l) (hm : InOrder m)
    (hperm : l.Perm m) (htime : TakesTime l) (h : EndsAlike l m) : average l = average m := by
  obtain ⟨a, ha, b, hb, hbounds, hpos⟩ := htime
  rw [average_eq_div hl ha hb hbounds hpos,
    average_eq_div hm (hperm.mem_iff.1 ha) (hperm.mem_iff.1 hb)
      (fun o ho => hbounds o (hperm.mem_iff.2 ho)) hpos,
    area_eq_of_endsAlike hl hm hperm h (by simp)]

theorem alike_eq (o : Observation) : alike Shelf.le o = fun p => p.ts == o.ts := by
  funext p
  rw [Bool.eq_iff_iff]
  simp only [alike, Shelf.le, Bool.and_eq_true, decide_eq_true_eq, beq_iff_eq]
  exact ⟨fun h => Int64.le_antisymm h.2 h.1, fun h => h ▸ ⟨Int64.le_rfl, Int64.le_rfl⟩⟩

theorem filter_ts_mergeSort (t : Timestamp) (l : List Observation) :
    (l.mergeSort Shelf.le).filter (·.ts == t) = l.filter (·.ts == t) := by
  have h := filter_mergeSort Shelf.le_trans Shelf.le_total l ⟨t, 0⟩
  rwa [alike_eq] at h

/-- Permutations that are sorted by time have the same average, if they have the same observations
at every instant in the same order, or if the observations that come last make no difference. -/
theorem average_mergeSort_eq {l m : List Observation} (hperm : l.Perm m)
    (h : (∀ t, l.filter (·.ts == t) = m.filter (·.ts == t)) ∨ TakesTime l ∧ EndsAlike l m) :
    average (l.mergeSort Shelf.le) = average (m.mergeSort Shelf.le) := by
  have hpairwise : ∀ k : List Observation, (k.mergeSort Shelf.le).Pairwise (Shelf.le · ·) :=
    fun k => List.pairwise_mergeSort Shelf.le_trans Shelf.le_total k
  rcases h with hties | ⟨htime, hends⟩
  · congr 1
    refine eq_mergeSort Shelf.le_trans Shelf.le_total (hpairwise l) fun o => ?_
    rw [alike_eq, filter_ts_mergeSort, hties]
  · have hsorted : ∀ k : List Observation, InOrder (k.mergeSort Shelf.le) := fun k =>
      (hpairwise k).imp fun hxy => by simpa [Shelf.le] using hxy
    have hsame : (l.mergeSort Shelf.le).Perm (m.mergeSort Shelf.le) :=
      (List.mergeSort_perm l _).trans (hperm.trans (List.mergeSort_perm m _).symm)
    have hmem : ∀ o, o ∈ l.mergeSort Shelf.le ↔ o ∈ l := fun o => List.mem_mergeSort
    refine average_eq_of_endsAlike (hsorted l) (hsorted m) hsame ?_ ?_
    · simpa only [TakesTime, hmem] using htime
    · simpa only [EndsAlike, filter_ts_mergeSort, hmem] using hends

-- where no time passes at all the values are added in their order, and every sum is rounded
example : average [⟨0, 9007199254740992⟩, ⟨0, 1⟩, ⟨0, 1⟩] ≠
    average [⟨0, 1⟩, ⟨0, 1⟩, ⟨0, 9007199254740992⟩] := by decide +kernel

-- an infinite value at the greatest instant makes a difference unless it comes last
example : average [⟨0, 1⟩, ⟨10, 1 / 0⟩, ⟨10, 2⟩] ≠ average [⟨0, 1⟩, ⟨10, 2⟩, ⟨10, 1 / 0⟩] := by
  decide +kernel

end Observation

end TimeWeighted
