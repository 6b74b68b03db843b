import Mathlib
import TimeWeighted.Arena.Id

/-!
# The sequence of arena ids

Ids come round: the draws that are skipped because their bits are zero do not show, nor does the
wrap of the counter, and the `n`-th id is one of 65535 numbers that follow each other in a cycle.

* `IdSupply.Draws` : a call, draw by draw.
* `IdSupply.rank` : the place of the next id in the cycle.
* `IdSupply.rank_take` : one id moves the place on by one.
* `IdSupply.nth_eq_nth_iff` : two ids of a supply are the same exactly if they are a number of whole
  rounds apart.
* `IdSupply.nodup_nth` : the ids of one round are all different.
-/

namespace TimeWeighted

namespace ArenaId

theorem ext_toNat {id id' : ArenaId} (h : id.val.toNat = id'.val.toNat) : id = id' := by
  obtain ⟨val, hval⟩ := id
  obtain ⟨val', hval'⟩ := id'
  cases UInt16.toNat_inj.1 h
  rfl

end ArenaId

namespace IdSupply

variable {supply rest : IdSupply} {id : ArenaId} {n : ℕ}

/-- A call that draws `n` times, keeps the bits of the last draw as `id` and leaves `rest` behind;
bits that are zero are drawn for nothing. -/
inductive Draws : IdSupply → ℕ → ArenaId → IdSupply → Prop where
  /-- The bits make an id. -/
  | keep {supply : IdSupply} (h : supply.low ≠ 0) : Draws supply 1 ⟨supply.low, h⟩ supply.advance
  /-- The bits are zero, and the call draws again. -/
  | again {supply rest : IdSupply} {n : ℕ} {id : ArenaId} (h : supply.low = 0)
      (hrest : Draws supply.advance n id rest) : Draws supply (n + 1) id rest

/-- A call draws once, or twice if the bits of the first draw are zero. -/
theorem draws_iff : Draws supply n id rest ↔
    supply.take = (id, rest) ∧ n = if supply.low = 0 then 2 else 1 := by
  constructor
  · intro h
    induction h with
    | keep h => exact ⟨take_of_ne_zero h, (if_neg h).symm⟩
    | again h hrest ih =>
      -- what comes behind a draw of zero bits is a single draw
      obtain ⟨htake, hn⟩ := ih
      rw [if_neg (low_advance_ne_zero h)] at hn
      rw [if_pos h, take, dif_pos h, htake, hn]
      exact ⟨rfl, rfl⟩
  · rintro ⟨htake, rfl⟩
    split_ifs with h
    · rw [take_of_eq_zero h] at htake
      cases htake
      exact .again h (.keep (low_advance_ne_zero h))
    · rw [take_of_ne_zero h] at htake
      cases htake
      exact .keep h

/-- The place of the next id in the cycle, from 0 on. -/
def rank (supply : IdSupply) : ℕ :=
  supply.counter.toNat % 65536 - 1

theorem rank_lt (supply : IdSupply) : supply.rank < ArenaId.period := by
  simp only [rank, ArenaId.period]
  omega

theorem toNat_advance_counter (supply : IdSupply) :
    supply.advance.counter.toNat % 65536 = (supply.counter.toNat + 1) % 65536 := by
  simp only [advance, UInt64.toNat_add, UInt64.reduceToNat]
  omega

theorem low_eq_zero_iff : supply.low = 0 ↔ supply.counter.toNat % 65536 = 0 := by
  rw [← UInt16.toNat_inj, toNat_low, UInt16.toNat_zero]

theorem toNat_take (supply : IdSupply) : supply.take.1.val.toNat = supply.rank + 1 := by
  have hnext := supply.toNat_advance_counter
  by_cases h : supply.low = 0
  · rw [take_of_eq_zero h, toNat_low, hnext, rank]
    rw [low_eq_zero_iff] at h
    omega
  · rw [take_of_ne_zero h, toNat_low, rank]
    rw [low_eq_zero_iff] at h
    omega

/-- Taking an id moves the place on by one, from the last back to the first. -/
theorem rank_take (supply : IdSupply) :
    supply.take.2.rank = (supply.rank + 1) % ArenaId.period := by
  have hnext := supply.toNat_advance_counter
  have hnext' := supply.advance.toNat_advance_counter
  rw [take_counter]
  simp only [ArenaId.period, rank]
  split_ifs with h <;> rw [low_eq_zero_iff] at h <;> omega

/-- The supply after `n` ids have been taken. -/
def skip (supply : IdSupply) (n : ℕ) : IdSupply :=
  (fun supply => supply.take.2)^[n] supply

/-- The id that is taken after `n` others. -/
def nth (supply : IdSupply) (n : ℕ) : ArenaId :=
  (supply.skip n).take.1

@[simp] theorem skip_zero (supply : IdSupply) : supply.skip 0 = supply :=
  rfl

theorem skip_succ (supply : IdSupply) (n : ℕ) :
    supply.skip (n + 1) = (supply.skip n).take.2 :=
  Function.iterate_succ_apply' _ n supply

theorem rank_skip (supply : IdSupply) (n : ℕ) :
    (supply.skip n).rank = (supply.rank + n) % ArenaId.period := by
  induction n with
  | zero => rw [skip_zero, Nat.add_zero, Nat.mod_eq_of_lt supply.rank_lt]
  | succ n ih => rw [skip_succ, rank_take, ih, Nat.mod_add_mod, Nat.add_assoc]

theorem toNat_nth (supply : IdSupply) (n : ℕ) :
    (supply.nth n).val.toNat = (supply.rank + n) % ArenaId.period + 1 := by
  rw [nth, toNat_take, rank_skip]

/-- **Ids are the same exactly if they were taken a number of whole rounds apart.** -/
theorem nth_eq_nth_iff {m n : ℕ} : supply.nth m = supply.nth n ↔ m ≡ n [MOD ArenaId.period] := by
  constructor
  · intro h
    have hval := congrArg (fun id => id.val.toNat) h
    simp only [toNat_nth, Nat.add_right_cancel_iff] at hval
    exact Nat.ModEq.add_left_cancel' supply.rank hval
  · intro h
    refine ArenaId.ext_toNat ?_
    rw [toNat_nth, toNat_nth, h.add_left supply.rank]

theorem nth_eq_nth_iff_dvd {m n : ℕ} (h : m ≤ n) :
    supply.nth n = supply.nth m ↔ ArenaId.period ∣ n - m := by
  rw [eq_comm, nth_eq_nth_iff, Nat.modEq_iff_dvd' h]

theorem nth_ne_nth {i j : ℕ} (hij : i ≠ j) (hnear : |(i : ℤ) - j| < ArenaId.period) :
    supply.nth i ≠ supply.nth j := by
  intro h
  rw [abs_sub_comm] at hnear
  exact hij ((nth_eq_nth_iff.1 h).eq_of_abs_lt hnear)

/-- The ids of a whole round are all different, wherever it begins. -/
theorem nodup_nth (supply : IdSupply) (m : ℕ) :
    ((List.range' m ArenaId.period).map supply.nth).Nodup := by
  rw [List.Nodup, List.pairwise_map]
  refine List.Pairwise.imp_of_mem (fun {i j} hi hj hij => nth_ne_nth hij.ne ?_)
    List.pairwise_lt_range'
  rw [List.mem_range'_1] at hi hj
  rw [abs_lt]
  omega

end IdSupply

end TimeWeighted
