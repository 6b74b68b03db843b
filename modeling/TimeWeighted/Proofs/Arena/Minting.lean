import Mathlib
import TimeWeighted.Proofs.Arena.Ids
import TimeWeighted.Proofs.Arena.Handles
import TimeWeighted.Proofs.Arena.MemoryLaw

/-!
# Handles under different ids

A handle carries the id its arena had when it was minted, and keeps it when it is moved on.  So
handles that were minted under different ids differ, wherever they point, and the sequence of ids
tells how long ids stay different.

* `Handle.MintedUnder` : the handles of allocations in an arena with some id, moved on or not.
* `Handle.MintedUnder.id_eq` : a handle tells the id it was minted under.
* `IdSupply.ids_come_round` : **ids come round after 65535 calls, and no earlier.**
-/

namespace TimeWeighted

namespace Handle

variable {id id' : ArenaId} {p : Handle}

/-- The handles that are minted under an id: those of allocations in an arena that has it, and those
that are moved on from there. -/
inductive MintedUnder (id : ArenaId) : Handle → Prop where
  /-- An allocation in an arena with the id. -/
  | alloc {arena arena' : Arena} {size : ℕ} {p : Handle} (hid : arena.id = id)
      (halloc : Arena.alloc size arena = .ok p arena') : MintedUnder id p
  /-- A minted handle that is moved on. -/
  | move {p q : Handle} {bytes : ℕ} (hp : MintedUnder id p) (hmove : p.offsetBy bytes = .ok q) :
      MintedUnder id q

theorem MintedUnder.arenaId_eq (h : p.MintedUnder id) : p.arenaId = id.val.toNat := by
  induction h with
  | alloc hid halloc =>
    rw [Arena.alloc_apply] at halloc
    split_ifs at halloc
    cases halloc
    rw [arenaId_make, hid]
  | move hp hmove ih => rw [(offsetBy_eq_ok_iff.1 hmove).2.1, ih]

theorem MintedUnder.id_eq (h : p.MintedUnder id) (h' : p.MintedUnder id') : id = id' :=
  ArenaId.ext_toNat (h.arenaId_eq.symm.trans h'.arenaId_eq)

end Handle

namespace IdSupply

/-- **Ids come round after 65535 calls, and no earlier.**  Wherever the counter starts, and however
often it wraps, every call makes an id from 1 to 65535 of one or two draws; two calls make the same
id exactly if they are a number of whole rounds apart; so the ids of any 65535 calls in a row are
all different, and handles that are minted under ids of calls less than a round apart are never
equal. -/
theorem ids_come_round (supply : IdSupply) :
    (∀ n, 1 ≤ (supply.nth n).val.toNat ∧ (supply.nth n).val.toNat ≤ 65535 ∧
      ∃ k ≤ 2, Draws (supply.skip n) k (supply.nth n) (supply.skip (n + 1))) ∧
    (∀ i j : ℕ, supply.nth i = supply.nth j ↔ (65535 : ℤ) ∣ i - j) ∧
    (∀ m, ((List.range' m 65535).map supply.nth).Nodup) ∧
    ∀ (i j : ℕ) (p q : Handle), i ≠ j → |(i : ℤ) - j| < 65535 →
      p.MintedUnder (supply.nth i) → q.MintedUnder (supply.nth j) → p ≠ q := by
  refine ⟨fun n => ⟨(supply.nth n).toNat_pos, Nat.le_of_lt_succ (supply.nth n).toNat_lt, _, ?_,
    draws_iff.2 ⟨?_, rfl⟩⟩, fun i j => ?_, supply.nodup_nth, ?_⟩
  · split_ifs <;> decide
  · rw [nth, skip_succ]
  · rw [nth_eq_nth_iff, Nat.modEq_iff_dvd, dvd_sub_comm]
    rfl
  · rintro i j p q hij hnear hp hq rfl
    exact nth_ne_nth hij hnear (hp.id_eq hq)

/-- Around the wrap of the counter, where three ids take four draws.  Arenas with neighbouring ids
mint handles to the same offset, which differ, and a round later the id is back. -/
theorem ids_come_round_wrapping :
    let supply : IdSupply := ⟨0xfffffffffffffffe⟩
    (supply.nth 1).val.toNat = 65535 ∧ (supply.nth 2).val.toNat = 1 ∧
    (supply.skip 3).counter = 2 ∧
    (∃ k ≤ 2, Draws (supply.skip 2) k (supply.nth 2) (supply.skip 3)) ∧
    supply.nth 1 ≠ supply.nth 65535 ∧ supply.nth 1 = supply.nth 65536 ∧
    ∃ p q a b, Arena.alloc 8 (.empty (supply.nth 1) 0) = .ok p a ∧
      Arena.alloc 8 (.empty (supply.nth 2) 0) = .ok q b ∧ p.offset = q.offset ∧ p ≠ q := by
  intro supply
  obtain ⟨hcalls, hsame, -, hhandles⟩ := ids_come_round supply
  have hminted (id : ArenaId) : ∃ p a, Arena.alloc 8 (.empty id 0) = .ok p a ∧ p.offset = 0 := by
    have hsize : (Arena.empty id 0).size = 0 := rfl
    have hnext : (Arena.empty id 0).nextOffset = 0 := by
      rw [Arena.nextOffset, hsize]
      decide
    have hfits : (Arena.empty id 0).nextOffset + 8 < Handle.offsetSpan := by
      rw [hnext]
      decide
    obtain ⟨p, a, hp, -, -, -, hoffset⟩ := Arena.alloc_of_fits hfits
    exact ⟨p, a, hp, hoffset.trans hnext⟩
  obtain ⟨p, a, hp, hpoffset⟩ := hminted (supply.nth 1)
  obtain ⟨q, b, hq, hqoffset⟩ := hminted (supply.nth 2)
  refine ⟨?_, ?_, ?_, (hcalls 2).2.2, (hsame 1 65535).not.2 (by omega),
    (hsame 1 65536).2 (by omega), p, q, a, b, hp, hq, hpoffset.trans hqoffset.symm, ?_⟩
  · rw [toNat_nth]
    decide
  · rw [toNat_nth]
    decide
  · rw [skip_succ, skip_succ, skip_succ, skip_zero, take_counter, take_counter, take_counter]
    decide
  · exact hhandles 1 2 p q (by decide) (by decide) (.alloc rfl hp) (.alloc rfl hq)

end IdSupply

end TimeWeighted
