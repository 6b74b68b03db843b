import Mathlib
import TimeWeighted.Proofs.Engine.Frames
import TimeWeighted.Proofs.Engine.Handout
import TimeWeighted.Proofs.Engine.Reading
import TimeWeighted.Proofs.Engine.Reduction

/-!
# The sequential answer

The answer to a query is defined without workers and frames: for every group and every aggregate the
average of the valid observations in the rows of the group, in the order of the table.  The order of
the workers cannot show in it when the observations of a group are in order of time already, and
those of one instant are gathered by one worker: then sorting what the workers have gathered
restores the order of the table.

* `Table.sequential` : the answer by definition.
* `Query.Orderly` : the order of the workers cannot show.
* `Query.mergeSort_dealt` : **sorting what was dealt to the workers restores the order of the
  table.**
-/

namespace TimeWeighted

open Observation

/-! ### The sequential answer -/

namespace Table

variable {table : Table} {groupBy : Option ℕ}

/-- The keys of the output: those of all rows, sorted, or just the key of all rows. -/
def groupKeys (table : Table) (groupBy : Option ℕ) : List GroupKey :=
  match groupBy with
  | none => [none]
  | some _ => ((List.range table.rowCount).map (table.keyOf groupBy)).dedup.mergeSort GroupKey.le

/-- The rows of a group that hold a valid observation. -/
def validRows (table : Table) (groupBy : Option ℕ) (observe : Row → Observation) (key : GroupKey) :
    List ℕ :=
  (List.range table.rowCount).filter fun i =>
    table.keyOf groupBy i = key ∧ (observe (table.row i)).isValid

/-- The answer by definition: for every group and every aggregate the average of the valid
observations in the rows of the group. -/
def sequential (table : Table) (groupBy : Option ℕ) (sources : List (Source × Source)) :
    List GroupRow :=
  (table.groupKeys groupBy).map fun key => ⟨key, sources.map fun source =>
    average ((table.validRows groupBy (reading source) key).map fun i =>
      reading source (table.row i))⟩

theorem mem_groupKeys (key : GroupKey) :
    key ∈ table.groupKeys groupBy ↔
      (∃ i < table.rowCount, table.keyOf groupBy i = key) ∨ (groupBy = none ∧ key = none) := by
  unfold groupKeys
  cases groupBy with
  | none =>
    simp only [List.mem_singleton, true_and]
    refine ⟨.inr, ?_⟩
    rintro (⟨i, -, rfl⟩ | h)
    · rfl
    · exact h
  | some c => simp

theorem nodup_groupKeys : (table.groupKeys groupBy).Nodup := by
  unfold groupKeys
  split
  · simp
  · rw [List.nodup_mergeSort]
    exact List.nodup_dedup _

theorem pairwise_groupKeys : (table.groupKeys groupBy).Pairwise (GroupKey.le · ·) := by
  unfold groupKeys
  split
  · exact List.pairwise_singleton _ _
  · exact List.pairwise_mergeSort GroupKey.le_trans GroupKey.le_total _

theorem mergeSort_eq_groupKeys {keys : List GroupKey} (hnodup : keys.Nodup)
    (hmem : ∀ key, key ∈ keys ↔ key ∈ table.groupKeys groupBy) :
    keys.mergeSort GroupKey.le = table.groupKeys groupBy := by
  refine List.Perm.eq_of_pairwise (fun _ _ _ _ => GroupKey.le_antisymm)
    (List.pairwise_mergeSort GroupKey.le_trans GroupKey.le_total _) pairwise_groupKeys ?_
  exact (List.mergeSort_perm _ _).trans ((List.perm_ext_iff_of_nodup hnodup nodup_groupKeys).2 hmem)

end Table

namespace Query

/-- The order of the workers cannot show: the valid observations of every group are in order of time
in the table, and those of one instant are gathered by one worker. -/
structure Orderly {φ : Type} (query : Query φ) (sources : List (Source × Source)) (table : Table)
    (schedule : Schedule) : Prop where
  /-- The valid observations of a group are in order of time. -/
  inOrder : ∀ source ∈ sources, ∀ key, InOrder
    ((table.validRows query.groupBy (reading source) key).map fun i => reading source (table.row i))
  /-- Valid rows of a group that have the same time are gathered by the same worker. -/
  together : ∀ source ∈ sources, ∀ key, ∀ i ∈ table.validRows query.groupBy (reading source) key,
    ∀ j ∈ table.validRows query.groupBy (reading source) key,
      (reading source (table.row i)).ts = (reading source (table.row j)).ts →
        ∀ frames ∈ schedule.frames, i ∈ query.rowsOf table frames → j ∈ query.rowsOf table frames

/-! ### Sorting restores the order of the table -/

section

variable {n : ℕ} {dealt : List (List ℕ)} {P : ℕ → Bool} {ts : ℕ → Timestamp}

theorem filter_flatten_of_mem {rows : List ℕ} {Q : ℕ → Bool} (hnodup : dealt.flatten.Nodup)
    (hrows : rows ∈ dealt) (hQ : ∀ i ∈ dealt.flatten, Q i → i ∈ rows) :
    dealt.flatten.filter Q = rows.filter Q := by
  obtain ⟨before, behind, rfl⟩ := List.append_of_mem hrows
  simp only [List.flatten_append, List.flatten_cons, List.mem_append] at hnodup hQ ⊢
  obtain ⟨-, hright, hleft⟩ := List.nodup_append.1 hnodup
  obtain ⟨-, -, hmid⟩ := List.nodup_append.1 hright
  have hbefore : before.flatten.filter Q = [] := by
    rw [List.filter_eq_nil_iff]
    intro i hi hq
    exact hleft i hi i (List.mem_append_left _ (hQ i (.inl hi) hq)) rfl
  have hbehind : behind.flatten.filter Q = [] := by
    rw [List.filter_eq_nil_iff]
    intro i hi hq
    exact hmid i (hQ i (.inr (.inr hi)) hq) i hi rfl
  rw [List.filter_append, List.filter_append, hbefore, hbehind, List.nil_append, List.append_nil]

/-- Where one list has all entries with a property, these are in the order of the table. -/
theorem filter_range_eq {Q : ℕ → Bool} (hperm : dealt.flatten.Perm (List.range n))
    (ascending : ∀ rows ∈ dealt, rows.Pairwise (· < ·))
    (together : ∀ i, Q i → ∀ j ∈ dealt.flatten, Q j → ∀ rows ∈ dealt, i ∈ rows → j ∈ rows) :
    (List.range n).filter Q = dealt.flatten.filter Q := by
  have hfilter := hperm.filter Q
  by_cases hnone : ∃ i ∈ dealt.flatten, Q i
  · obtain ⟨i, hi, hq⟩ := hnone
    obtain ⟨rows, hrows, hmem⟩ := List.mem_flatten.1 hi
    have hnodup : dealt.flatten.Nodup := hperm.nodup_iff.2 List.nodup_range
    rw [filter_flatten_of_mem hnodup hrows fun j hj hqj => together i hq j hj hqj rows hrows hmem]
      at hfilter ⊢
    exact List.Perm.eq_of_pairwise (fun _ _ _ _ => by omega) (List.pairwise_lt_range.filter _)
      ((ascending rows hrows).filter _) hfilter.symm
  · have hempty : dealt.flatten.filter Q = [] := by
      rw [List.filter_eq_nil_iff]
      exact fun i hi hq => hnone ⟨i, hi, hq⟩
    rw [hempty] at hfilter ⊢
    exact hfilter.symm.eq_nil

/-- **Sorting by time what was dealt to the workers restores the order of the table**, if the rows
are in order of time and those of one instant were dealt to one worker. -/
theorem mergeSort_dealt (hperm : dealt.flatten.Perm (List.range n))
    (ascending : ∀ rows ∈ dealt, rows.Pairwise (· < ·))
    (inOrder : ((List.range n).filter P).Pairwise fun i j => ts i ≤ ts j)
    (together : ∀ i ∈ (List.range n).filter P, ∀ j ∈ (List.range n).filter P, ts i = ts j →
      ∀ rows ∈ dealt, i ∈ rows → j ∈ rows) :
    (dealt.flatten.filter P).mergeSort (fun i j => ts i ≤ ts j) = (List.range n).filter P := by
  have htrans : ∀ i j k, decide (ts i ≤ ts j) → decide (ts j ≤ ts k) → decide (ts i ≤ ts k) := by
    simp only [decide_eq_true_eq]
    exact fun i j k => Int64.le_trans
  have htotal : ∀ i j, decide (ts i ≤ ts j) || decide (ts j ≤ ts i) := by
    simp only [Bool.or_eq_true, decide_eq_true_eq]
    exact fun i j => Int64.le_total _ _
  refine (eq_mergeSort htrans htotal (inOrder.imp fun h => by simpa using h) fun x => ?_).symm
  rw [List.filter_filter, List.filter_filter]
  set Q : ℕ → Bool := fun i => alike (fun i j => decide (ts i ≤ ts j)) x i && P i with hQ
  have hts : ∀ i, Q i → P i ∧ ts i = ts x := by
    intro i hi
    simp only [hQ, alike, Bool.and_eq_true, decide_eq_true_eq] at hi
    exact ⟨hi.2, Int64.le_antisymm hi.1.2 hi.1.1⟩
  have hfilter : ∀ {i}, i ∈ dealt.flatten → P i → i ∈ (List.range n).filter P :=
    fun hi hp => List.mem_filter.2 ⟨hperm.mem_iff.1 hi, hp⟩
  -- all rows of this instant were dealt to the worker of one of them
  refine filter_range_eq hperm ascending fun i hq j hj hqj rows hrows hmem => ?_
  exact together i (hfilter (List.mem_flatten.2 ⟨rows, hrows, hmem⟩) (hts i hq).1) j
    (hfilter hj (hts j hqj).1) ((hts i hq).2.trans (hts j hqj).2.symm) rows hrows hmem

theorem sublist_range {rows : List ℕ} (hrows : rows.Pairwise (· < ·)) (hlt : ∀ i ∈ rows, i < n) :
    rows.Sublist (List.range n) := by
  have hnodup : rows.Nodup := hrows.imp Nat.ne_of_lt
  refine List.sublist_of_subperm_of_pairwise (r := (· < ·)) ?_ hrows List.pairwise_lt_range
  exact hnodup.subperm fun i hi => List.mem_range.2 (hlt i hi)

end

end Query

end TimeWeighted
