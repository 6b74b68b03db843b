import Mathlib
import TimeWeighted.Engine.Groups
import TimeWeighted.Proofs.Buffer.Growth

/-!
# Accounts of groups

What one aggregate has gathered, with memory left out: a shelf for every group, and the number of
bytes that were allocated for all of them.  Gathering rows allocates no more than sixteen entries
for every row, and merging no more than that once more for every row on either side.

* `Account.ofRows`, `Account.entries_ofRows` : gathering, and what lies on the shelves after it.
* `Account.merge`, `Account.entries_merge` : merging, group by group.
* `Account.Within` : a bound on the bytes; `Account.within_ofRows` and `Account.Within.merge`
  establish it and carry it on.
-/

namespace TimeWeighted

namespace Shelf

open Observation

theorem mergeBytes_mod (s : Shelf) (incoming : List Observation) :
    s.mergeBytes incoming % Arena.alignment = 0 := by
  simp only [mergeBytes, width, Arena.alignment]
  split_ifs
  · rfl
  · omega

theorem mergeBytes_le (s : Shelf) (incoming : List Observation) :
    s.mergeBytes incoming ≤ 256 * (s.entries.length + incoming.length) := by
  unfold mergeBytes merge
  split_ifs with hin hs
  · exact Nat.zero_le _
  · have := List.length_pos_iff.2 hin
    simp only [width, Buffer.initialCapacity]
    omega
  · simp only [width]
    omega

end Shelf

/-! ### Accounts -/

/-- A shelf for every group, and the bytes allocated for them. -/
structure Account where
  /-- What is kept of every group. -/
  shelf : GroupKey → Shelf := fun _ => {}
  /-- The bytes that were allocated. -/
  used : ℕ := 0

namespace Account

/-- Replaces one shelf and allocates bytes. -/
def put (a : Account) (key : GroupKey) (s : Shelf) (bytes : ℕ) : Account where
  shelf := Function.update a.shelf key s
  used := Arena.grown a.used bytes

/-- One more observation of a group. -/
def push (a : Account) (key : GroupKey) (o : Observation) : Account :=
  a.put key ((a.shelf key).push o) ((a.shelf key).pushBytes o)

/-- The observations that were gathered of a group elsewhere. -/
def absorb (a : Account) (key : GroupKey) (incoming : List Observation) : Account :=
  a.put key ((a.shelf key).merge incoming) ((a.shelf key).mergeBytes incoming)

/-- Observations gathered one by one, each with the key of its group. -/
def ofRows (rows : List (GroupKey × Observation)) : Account :=
  rows.foldl (fun a row => a.push row.1 row.2) {}

/-- The groups of `src` merged one by one. -/
def merge (a src : Account) (keys : List GroupKey) : Account :=
  keys.foldl (fun a key => a.absorb key (src.shelf key).entries) a

/-- The number of entries of some groups. -/
def total (K : Finset GroupKey) (a : Account) : ℕ :=
  ∑ key ∈ K, (a.shelf key).entries.length

variable {K : Finset GroupKey} {a d s : Account} {key : GroupKey} {keys : List GroupKey}
  {rows : List (GroupKey × Observation)}

theorem used_le_absorb (a : Account) (key : GroupKey) (incoming : List Observation) :
    a.used ≤ (a.absorb key incoming).used :=
  Arena.le_grown _ _

theorem ofRows_append (rows : List (GroupKey × Observation)) (row : GroupKey × Observation) :
    ofRows (rows ++ [row]) = (ofRows rows).push row.1 row.2 := by
  simp [ofRows]

/-- Gathering keeps the valid observations of every group in their order. -/
theorem entries_ofRows (rows : List (GroupKey × Observation)) (key : GroupKey) :
    ((ofRows rows).shelf key).entries =
      (rows.filter fun row => row.1 = key ∧ row.2.isValid).map (·.2) := by
  induction rows using List.reverseRecOn with
  | nil => rfl
  | append_singleton rows row ih =>
    rw [ofRows_append, List.filter_append, List.map_append, ← ih]
    by_cases hkey : row.1 = key
    · subst hkey
      simp only [push, put, Function.update_self, Shelf.entries_push]
      split_ifs with hv <;> simp [hv]
    · simp [push, put, hkey, Ne.symm hkey]

theorem used_ofRows (hK : ∀ row ∈ rows, row.1 ∈ K) :
    (∀ key, ((ofRows rows).shelf key).Grown) ∧
      (ofRows rows).used = ∑ key ∈ K, ((ofRows rows).shelf key).spent := by
  induction rows using List.reverseRecOn with
  | nil =>
    refine ⟨fun _ => .inl rfl, ?_⟩
    simp [ofRows, Shelf.spent]
  | append_singleton rows row ih =>
    obtain ⟨hgrown, hused⟩ := ih fun r hr => hK r (List.mem_append_left _ hr)
    obtain ⟨hpush, hspent⟩ := (hgrown row.1).push row.2
    have haligned : (ofRows rows).used % Arena.alignment = 0 := by
      rw [hused, Finset.sum_nat_mod, Finset.sum_eq_zero fun k _ => Shelf.spent_mod _, Nat.zero_mod]
    rw [ofRows_append]
    refine ⟨?_, ?_⟩
    · intro key
      by_cases hkey : key = row.1
      · subst hkey
        simpa [Account.push, put] using hpush
      · simpa [Account.push, put, hkey] using hgrown key
    · have hrow := hK row (List.mem_append_right _ (List.mem_singleton_self row))
      rw [Account.push, put, Arena.grown_of_aligned haligned, hused]
      exact (Shelf.sum_update hrow hspent).symm

theorem total_push_le (hkey : key ∈ K) (o : Observation) :
    total K (a.push key o) ≤ total K a + 1 := by
  have hlen := (a.shelf key).length_push o
  have hmono : (a.shelf key).entries.length ≤ ((a.shelf key).push o).entries.length := by
    rw [Shelf.entries_push]
    split_ifs <;> simp
  have hsum := Shelf.sum_update (f := fun s => s.entries.length) hkey
    (t := (a.shelf key).push o) (Nat.add_sub_cancel' hmono).symm
  rw [total, push, put, hsum, total]
  omega

theorem total_ofRows_le (hK : ∀ row ∈ rows, row.1 ∈ K) : total K (ofRows rows) ≤ rows.length := by
  induction rows using List.reverseRecOn with
  | nil => simp [ofRows, total]
  | append_singleton rows row ih =>
    have hrows := ih fun r hr => hK r (List.mem_append_left _ hr)
    have hrow := hK row (List.mem_append_right _ (List.mem_singleton_self row))
    have hpush := total_push_le (a := ofRows rows) hrow row.2
    rw [ofRows_append, List.length_append, List.length_singleton]
    omega

/-! ### Merging group by group -/

/-- Every group that is merged gets the entries of both sides; the others stay as they are. -/
theorem shelf_merge (hkeys : keys.Nodup) (key : GroupKey) :
    (d.merge s keys).shelf key =
      if key ∈ keys then (d.shelf key).merge (s.shelf key).entries else d.shelf key := by
  induction keys generalizing d with
  | nil => simp [merge]
  | cons k keys ih =>
    obtain ⟨hk, hrest⟩ := List.nodup_cons.1 hkeys
    rw [merge, List.foldl_cons, ← merge, ih hrest]
    by_cases hkey : key = k
    · subst hkey
      simp [hk, absorb, put]
    · simp [hkey, absorb, put]

/-- The entries of a merge, if no group of the source is left out. -/
theorem entries_merge (hkeys : keys.Nodup) (hall : ∀ key ∉ keys, s.shelf key = {})
    (key : GroupKey) :
    ((d.merge s keys).shelf key).entries =
      (d.shelf key).entries.merge (s.shelf key).entries Shelf.le := by
  rw [shelf_merge hkeys]
  split_ifs with hkey
  · exact Shelf.entries_merge _ _
  · simp [hall key hkey]

theorem used_merge (hkeys : keys.Nodup) (h : d.used % Arena.alignment = 0) :
    (d.merge s keys).used % Arena.alignment = 0 ∧ (d.merge s keys).used =
      d.used + (keys.map fun key => (d.shelf key).mergeBytes (s.shelf key).entries).sum := by
  induction keys generalizing d with
  | nil => simp [merge, h]
  | cons k keys ih =>
    obtain ⟨hk, hrest⟩ := List.nodup_cons.1 hkeys
    have hbytes := (d.shelf k).mergeBytes_mod (s.shelf k).entries
    have hused : (d.absorb k (s.shelf k).entries).used =
        d.used + (d.shelf k).mergeBytes (s.shelf k).entries := Arena.grown_of_aligned h
    have hothers : keys.map (fun key =>
          ((d.absorb k (s.shelf k).entries).shelf key).mergeBytes (s.shelf key).entries) =
        keys.map fun key => (d.shelf key).mergeBytes (s.shelf key).entries := by
      refine List.map_congr_left fun key hkey => ?_
      have hne : key ≠ k := fun heq => hk (heq ▸ hkey)
      simp [absorb, put, hne]
    obtain ⟨h1, h2⟩ := ih (d := d.absorb k (s.shelf k).entries) hrest (by
      rw [hused]
      simp only [Arena.alignment] at *
      omega)
    rw [merge, List.foldl_cons, ← merge]
    refine ⟨h1, ?_⟩
    rw [h2, hothers, hused, List.map_cons, List.sum_cons, Nat.add_assoc]

theorem used_merge_le (hkeys : keys.Nodup) (hK : ∀ key ∈ keys, key ∈ K)
    (h : d.used % Arena.alignment = 0) :
    (d.merge s keys).used ≤ d.used + 256 * (total K d + total K s) := by
  rw [(used_merge hkeys h).2]
  refine Nat.add_le_add_left ?_ _
  rw [← List.sum_toFinset _ hkeys]
  calc ∑ key ∈ keys.toFinset, (d.shelf key).mergeBytes (s.shelf key).entries
      ≤ ∑ key ∈ keys.toFinset, 256 * ((d.shelf key).entries.length +
          (s.shelf key).entries.length) :=
        Finset.sum_le_sum fun key _ => Shelf.mergeBytes_le _ _
    _ ≤ ∑ key ∈ K, 256 * ((d.shelf key).entries.length + (s.shelf key).entries.length) :=
        Finset.sum_le_sum_of_subset fun key hkey => hK key (List.mem_toFinset.1 hkey)
    _ = 256 * (total K d + total K s) := by
        rw [← Finset.mul_sum, Finset.sum_add_distrib, total, total]

theorem used_le_merge (a src : Account) (keys : List GroupKey) :
    a.used ≤ (a.merge src keys).used := by
  induction keys generalizing a with
  | nil => exact le_rfl
  | cons key keys ih => exact (a.used_le_absorb key _).trans (ih _)

theorem merge_append (a src : Account) (keys rest : List GroupKey) :
    a.merge src (keys ++ rest) = (a.merge src keys).merge src rest := by
  rw [merge, List.foldl_append, ← merge, ← merge]

theorem merge_singleton (a src : Account) (key : GroupKey) :
    a.merge src [key] = a.absorb key (src.shelf key).entries :=
  rfl

/-! ### Bounds -/

/-- An account that came together in at most `depth` rounds of merges has allocated at most the
initial room for every entry in every round. -/
structure Within (K : Finset GroupKey) (a : Account) (depth : ℕ) : Prop where
  /-- The next allocation starts where the last one ended. -/
  aligned : a.used % Arena.alignment = 0
  /-- The number of bytes. -/
  used_le : a.used ≤ 256 * ((depth + 1) * total K a)

theorem within_ofRows (hK : ∀ row ∈ rows, row.1 ∈ K) : (ofRows rows).Within K 0 := by
  obtain ⟨hgrown, hused⟩ := used_ofRows hK
  refine ⟨?_, ?_⟩
  · rw [hused, Finset.sum_nat_mod, Finset.sum_eq_zero fun k _ => Shelf.spent_mod _, Nat.zero_mod]
  · rw [hused, Nat.zero_add, Nat.one_mul, total, Finset.mul_sum]
    exact Finset.sum_le_sum fun key _ => (hgrown key).spent_le

theorem used_ofRows_le (rows : List (GroupKey × Observation)) :
    (ofRows rows).used ≤ 256 * rows.length := by
  have hK : ∀ row ∈ rows, row.1 ∈ (rows.map (·.1)).toFinset :=
    fun row hrow => List.mem_toFinset.2 (List.mem_map_of_mem hrow)
  have hused := (within_ofRows hK).used_le
  have htotal := total_ofRows_le hK
  omega

theorem total_merge (hkeys : keys.Nodup) (hall : ∀ key ∉ keys, s.shelf key = {}) :
    total K (d.merge s keys) = total K d + total K s := by
  rw [total, total, total, ← Finset.sum_add_distrib]
  refine Finset.sum_congr rfl fun key _ => ?_
  rw [entries_merge hkeys hall, List.length_merge]

/-- One more round of merges. -/
theorem Within.merge {i j : ℕ} (hd : d.Within K i) (hkeys : keys.Nodup)
    (hK : ∀ key ∈ keys, key ∈ K) (hall : ∀ key ∉ keys, s.shelf key = {}) :
    (d.merge s keys).Within K (max i j + 1) := by
  have hused := used_merge_le (s := s) hkeys hK hd.aligned
  have hd' := hd.used_le
  have hmono : (i + 1) * total K d ≤ (max i j + 1) * (total K d + total K s) :=
    Nat.mul_le_mul (by omega) (Nat.le_add_right _ _)
  refine ⟨(used_merge hkeys hd.aligned).1, ?_⟩
  rw [total_merge hkeys hall, Nat.succ_mul (max i j + 1)]
  omega

end Account

end TimeWeighted
