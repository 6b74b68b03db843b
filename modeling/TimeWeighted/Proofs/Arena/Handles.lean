import Mathlib
import TimeWeighted.Arena.Handle

/-!
# Moving handles

A handle is its arena id and its offset, side by side in a word.  Moving it on adds to the offset
and never carries into the id: the sum wraps at 48 bits.  Two things can go wrong, that the sum does
not fit into a word, and that the word of the moved handle would be zero.

* `Handle.ext_parts` : a handle is its two parts.
* `Handle.offsetBy_eq_ok_iff`, `Handle.offsetBy_eq_error_iff` : where a move leads, and when there
  is none.
* `Handle.offsetBy_add` : two moves are one.
* `Handle.offsetBy_of_lt` : the handles of arenas can be moved as far as offsets reach.
-/

namespace TimeWeighted

namespace Handle

variable {h p q r s : Handle} {m n : ℕ}

theorem offsetSpan_pos : 0 < offsetSpan := by decide

theorem offsetSpan_lt_wordSpan : offsetSpan < wordSpan := by decide

/-! ### The two parts -/

theorem word_eq (h : Handle) : h.word.toNat = h.arenaId * offsetSpan + h.offset := by
  rw [arenaId, offset, Nat.mul_comm, Nat.div_add_mod]

theorem ext_parts {h h' : Handle} (hid : h.arenaId = h'.arenaId) (hoffset : h.offset = h'.offset) :
    h = h' := by
  have hword : h.word = h'.word := UInt64.toNat_inj.1 (by rw [word_eq, word_eq, hid, hoffset])
  obtain ⟨word, hne⟩ := h
  cases hword
  rfl

theorem parts_of_pack {id offset : ℕ} (hid : id < 65536) (hq : q.word = pack id offset) :
    q.arenaId = id ∧ q.offset = offset % offsetSpan := by
  have hlt := Nat.mod_lt offset offsetSpan_pos
  rw [arenaId, Handle.offset, hq, toNat_pack hid, Nat.mul_comm, Nat.mul_add_div offsetSpan_pos,
    Nat.div_eq_of_lt hlt, Nat.mul_add_mod, Nat.mod_mod]
  exact ⟨Nat.add_zero id, rfl⟩

theorem pack_eq_zero_iff {id offset : ℕ} (hid : id < 65536) :
    pack id offset = 0 ↔ id = 0 ∧ offset % offsetSpan = 0 := by
  rw [← UInt64.toNat_inj, toNat_pack hid, UInt64.toNat_zero, Nat.add_eq_zero_iff, Nat.mul_eq_zero,
    or_iff_left offsetSpan_pos.ne']

/-! ### Moving on -/

/-- Where a move leads: the id stays, and the offset wraps. -/
theorem offsetBy_eq_ok_iff : h.offsetBy n = .ok q ↔
    h.offset + n < wordSpan ∧ q.arenaId = h.arenaId ∧
      q.offset = (h.offset + n) % offsetSpan := by
  rcases Nat.lt_or_ge (h.offset + n) wordSpan with hlt | hge
  · simp only [offsetBy, checkedLength_of_lt hlt, bind, Except.bind, hlt, true_and]
    split_ifs with hne
    · constructor
      · rintro ⟨⟩
        exact parts_of_pack h.arenaId_lt rfl
      · rintro ⟨hid, hoffset⟩
        obtain ⟨hid', hoffset'⟩ := parts_of_pack (q := ⟨_, hne⟩) h.arenaId_lt rfl
        rw [ext_parts (hid.trans hid'.symm) (hoffset.trans hoffset'.symm)]
    · -- a handle with these parts would be the zero word
      obtain ⟨hid0, hoffset0⟩ := (pack_eq_zero_iff h.arenaId_lt).1 (not_not.1 hne)
      refine iff_of_false (by simp) ?_
      rintro ⟨hid, hoffset⟩
      apply q.word_ne_zero
      rw [← UInt64.toNat_inj, word_eq, hid, hoffset, hid0, hoffset0]
      rfl
  · have hnot : ¬ h.offset + n < wordSpan := Nat.not_lt.2 hge
    simp [offsetBy, checkedLength, hnot, bind, Except.bind]

/-- When there is no move: the sum is too great for a word, or the word would be zero. -/
theorem offsetBy_eq_error_iff {fault : Fault} : h.offsetBy n = .error fault ↔
    (fault = .lengthOverflow ∧ wordSpan ≤ h.offset + n) ∨
      (fault = .zeroHandle ∧ h.offset + n < wordSpan ∧ h.arenaId = 0 ∧
        (h.offset + n) % offsetSpan = 0) := by
  have hpack : pack h.arenaId (h.offset + n) = 0 ↔ _ := pack_eq_zero_iff h.arenaId_lt
  rcases Nat.lt_or_ge (h.offset + n) wordSpan with hlt | hge
  · have hnot : ¬ wordSpan ≤ h.offset + n := Nat.not_le.2 hlt
    simp only [offsetBy, checkedLength_of_lt hlt, bind, Except.bind, hlt, hnot, ← hpack]
    split_ifs with hne
    · simp [hne]
    · simp [not_not.1 hne, eq_comm]
  · have hnot : ¬ h.offset + n < wordSpan := Nat.not_lt.2 hge
    simp [offsetBy, checkedLength, hnot, hge, bind, Except.bind, eq_comm]

/-- Two moves are one, as far as all three can be made. -/
theorem offsetBy_add (hq : h.offsetBy n = .ok q) (hr : q.offsetBy m = .ok r)
    (hs : h.offsetBy (n + m) = .ok s) : r = s := by
  obtain ⟨-, hqid, hqoffset⟩ := offsetBy_eq_ok_iff.1 hq
  obtain ⟨-, hrid, hroffset⟩ := offsetBy_eq_ok_iff.1 hr
  obtain ⟨-, hsid, hsoffset⟩ := offsetBy_eq_ok_iff.1 hs
  refine ext_parts (by rw [hrid, hqid, hsid]) ?_
  rw [hroffset, hqoffset, hsoffset, Nat.mod_add_mod, Nat.add_assoc]

theorem offsetBy_of_lt (hid : 0 < p.arenaId) (hlt : p.offset + m < offsetSpan) :
    ∃ q, p.offsetBy m = .ok q ∧ q.arenaId = p.arenaId ∧ q.offset = p.offset + m := by
  cases hmove : p.offsetBy m with
  | error fault =>
    have := offsetSpan_lt_wordSpan
    have := offsetBy_eq_error_iff.1 hmove
    omega
  | ok q =>
    obtain ⟨-, hqid, hoffset⟩ := offsetBy_eq_ok_iff.1 hmove
    exact ⟨q, rfl, hqid, by rw [hoffset, Nat.mod_eq_of_lt hlt]⟩

/-! ### Signed slots -/

theorem toSlot_ne_zero (h : Handle) : h.toSlot ≠ 0 := by
  intro h0
  have hword : h.toSlot.toUInt64 = h.word := rfl
  rw [h0] at hword
  exact h.word_ne_zero hword.symm

theorem toSlot_neg_iff (h : Handle) : h.toSlot < 0 ↔ 32768 ≤ h.arenaId := by
  have hword := h.word_eq
  have hoffset := h.offset_lt
  have hbits : h.toSlot.toBitVec.toNat = h.word.toNat := rfl
  rw [Int64.lt_iff_toInt_lt, Int64.toInt_zero, ← Int64.toInt_toBitVec, BitVec.toInt_neg_iff, hbits]
  simp only [offsetSpan] at *
  omega

end Handle

end TimeWeighted
