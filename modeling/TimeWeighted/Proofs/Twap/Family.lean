import Mathlib
import TimeWeighted.Twap.Basic
import TimeWeighted.Proofs.Buffer.Weave
import TimeWeighted.Proofs.Slots

/-!
# The buffers of one aggregate

An aggregate keeps the buffers of many groups in one arena, and remembers one value.  The invariant
`Twap.Keeps` says that this goes well: every buffer stands for its shelf, no two share a byte, and
the remembered value is that of bytes which are never written again.

* `Twap.Keeps` : the invariant, over any family of buffers.
* `Twap.Keeps.change` : **whatever happens to one buffer, all others stay as they are.**
* `Twap.RightMemo.value_apply` : the value of a buffer is the average of its shelf, remembered or
  not.
-/

namespace TimeWeighted

open Observation

/-! ### Regions of buffers -/

/-- The room of two buffers does not overlap. -/
def Buffer.Apart (b c : Buffer) : Prop :=
  ∀ p q, b.start = some p → c.start = some q →
    p.offset + width * b.capacity ≤ q.offset ∨ q.offset + width * c.capacity ≤ p.offset

theorem Buffer.Apart.symm {b c : Buffer} (h : b.Apart c) : c.Apart b :=
  fun p q hp hq => (h q p hq hp).symm

/-- The remembered value is the average of the entries it was computed from. -/
structure Memo.Right (m : Memo) (a : Arena) : Prop where
  /-- These entries are still there. -/
  covers : a.Covers m.start (width * m.count)
  /-- Their average. -/
  value_eq : m.value = average (a.observations m.start.offset m.count)

/-- The entries of the remembered value do not lie in the free room of the buffer. -/
def Memo.ClearOf (m : Memo) (b : Buffer) : Prop :=
  ∀ p, b.start = some p →
    m.start.offset + width * m.count ≤ p.offset + width * b.count ∨
      p.offset + width * b.capacity ≤ m.start.offset

namespace Twap

/-- The aggregate keeps the buffers of a family, and they stand for the shelves of the family. -/
structure Keeps {ι : Type} (twap : Twap) (buffer : ι → Buffer) (shelf : ι → Shelf) : Prop where
  /-- Every buffer stands for its shelf. -/
  holds : ∀ v, (buffer v).Holds twap.arena (shelf v)
  /-- No two buffers overlap. -/
  apart : ∀ v w, v ≠ w → (buffer v).Apart (buffer w)
  /-- The remembered value is right, and no append will write to what it was computed from. -/
  memo : ∀ m, twap.memo = some m → m.Right twap.arena ∧ ∀ v, m.ClearOf (buffer v)

/-- What the aggregate remembers, if anything, is right. -/
def RightMemo (twap : Twap) : Prop :=
  ∀ m, twap.memo = some m → m.Right twap.arena

variable {ι : Type} {twap : Twap} {buffer : ι → Buffer} {shelf : ι → Shelf} {v : ι}

theorem Keeps.rightMemo (h : twap.Keeps buffer shelf) : twap.RightMemo :=
  fun m hm => (h.memo m hm).1

theorem keeps_empty (h : twap.memo = none) :
    twap.Keeps (fun _ : ι => Buffer.empty) (fun _ => {}) where
  holds _ := Buffer.holds_empty _
  apart _ _ _ := by simp [Buffer.Apart, Buffer.empty]
  memo m hm := by simp [h] at hm

theorem Keeps.forget (h : twap.Keeps buffer shelf) :
    ({ twap with memo := none } : Twap).Keeps buffer shelf :=
  ⟨h.holds, h.apart, fun _ hm => absurd hm (by simp)⟩

section Change

variable {b : Buffer} {a : Arena} {s : Shelf}

theorem Keeps.apart_of_past (h : twap.Keeps buffer shelf) (hb : b.Past twap.arena.size) (w : ι) :
    b.Apart (buffer w) := by
  intro p q hp hq
  rcases h.holds w with ⟨he, -⟩ | ⟨q', hst⟩
  · rw [he] at hq
    cases hq
  · have hqq : q' = q := Option.some.inj (hst.start_eq.symm.trans hq)
    have h1 := hst.covers.le_size
    have h2 := hb p hp
    right
    rw [← hqq]
    omega

/-- A buffer that takes up more of its room is as much apart from the others as before. -/
theorem Keeps.apart_of_inPlace (h : twap.Keeps buffer shelf) {p : Handle}
    (hp : (buffer v).start = some p) (hp' : b.start = some p)
    (hcap : b.capacity = (buffer v).capacity) {w : ι} (hw : w ≠ v) : b.Apart (buffer w) := by
  intro p' q hb hq
  have hpp : p' = p := Option.some.inj (hb.symm.trans hp')
  rw [hpp, hcap]
  exact h.apart v w (Ne.symm hw) p q hp hq

theorem Keeps.holds_of_change (h : twap.Keeps buffer shelf)
    (hc : (buffer v).Change twap.arena b a) {w : ι} (hw : w ≠ v) :
    (buffer w).Holds a (shelf w) := by
  cases hc with
  | moved hext hpast => exact (h.holds w).extends hext
  | inPlace p hp hp' hcap hcount hedit =>
    rcases h.holds w with he | ⟨q, hst⟩
    · exact .inl he
    · refine (hst.edited hedit ?_).holds
      have h1 := h.apart v w (Ne.symm hw) p q hp hst.start_eq
      have h2 := hst.count_le
      simp only [width] at *
      omega

theorem Keeps.apart_of_change (h : twap.Keeps buffer shelf)
    (hc : (buffer v).Change twap.arena b a) {w : ι} (hw : w ≠ v) : b.Apart (buffer w) := by
  cases hc with
  | moved hext hpast => exact h.apart_of_past hpast w
  | inPlace p hp hp' hcap hcount hedit => exact h.apart_of_inPlace hp hp' hcap hw

/-- What a remembered value was computed from is not written to, and does not lie in the free room
of the buffer that has changed. -/
theorem Keeps.memo_of_change (h : twap.Keeps buffer shelf)
    (hc : (buffer v).Change twap.arena b a) {m : Memo} (hm : twap.memo = some m) :
    m.Right a ∧ m.ClearOf b := by
  obtain ⟨hright, hclear⟩ := h.memo m hm
  have hle := hright.covers.le_size
  cases hc with
  | moved hext hpast =>
    refine ⟨⟨hright.covers.extends hext, ?_⟩, ?_⟩
    · rw [hext.observations_eq hle, hright.value_eq]
    · intro p hp
      have := hpast p hp
      left
      omega
  | inPlace p hp hp' hcap hcount hedit =>
    have hfree := hclear v p hp
    refine ⟨⟨hright.covers.edited hedit, ?_⟩, ?_⟩
    · rw [hedit.observations_eq hle hfree, hright.value_eq]
    · intro q hq
      have hqp : q = p := Option.some.inj (hq.symm.trans hp')
      rw [hqp, hcap]
      simp only [width] at *
      omega

/-- **Whatever happens to one buffer, all others stay as they are**, and so does the remembered
value. -/
theorem Keeps.change [DecidableEq ι] (h : twap.Keeps buffer shelf) (hb : b.Holds a s)
    (hc : (buffer v).Change twap.arena b a) :
    ({ twap with arena := a } : Twap).Keeps (Function.update buffer v b)
      (Function.update shelf v s) := by
  refine ⟨?_, ?_, ?_⟩
  · intro w
    by_cases hw : w = v
    · subst hw
      simpa using hb
    · rw [Function.update_of_ne hw, Function.update_of_ne hw]
      exact h.holds_of_change hc hw
  · intro w x hwx
    by_cases hw : w = v
    · subst hw
      rw [Function.update_self, Function.update_of_ne (Ne.symm hwx)]
      exact h.apart_of_change hc (Ne.symm hwx)
    · rw [Function.update_of_ne hw]
      by_cases hx : x = v
      · subst hx
        rw [Function.update_self]
        exact (h.apart_of_change hc hw).symm
      · rw [Function.update_of_ne hx]
        exact h.apart w x hwx
  · intro m hm
    obtain ⟨hright, hclear⟩ := h.memo_of_change hc hm
    refine ⟨hright, fun w => ?_⟩
    by_cases hw : w = v
    · subst hw
      rwa [Function.update_self]
    · rw [Function.update_of_ne hw]
      exact (h.memo m hm).2 w

end Change

/-! ### Reading -/

section

variable {b : Buffer} {s : Shelf}

theorem RightMemo.lookup_eq (h : twap.RightMemo) (hb : b.Holds twap.arena s) {x : Float}
    (hx : Memo.lookup twap.memo b = some x) : x = average s.entries := by
  cases hm : twap.memo with
  | none => simp [Memo.lookup, hm] at hx
  | some m =>
    have hright := h m hm
    simp only [Memo.lookup, hm, Option.bind_some, Option.ite_none_right_eq_some,
      Option.some.injEq] at hx
    obtain ⟨⟨hstart, hcount⟩, rfl⟩ := hx
    rcases hb with ⟨he, -⟩ | ⟨p, hst⟩
    · simp [he, Buffer.empty] at hstart
    · have hp : p = m.start := Option.some.inj (hst.start_eq.symm.trans hstart)
      rw [hright.value_eq, ← hst.entries_eq, hp, hcount]

/-- **The value of a buffer is the average of its shelf**, whether it was remembered or not; if not,
it is remembered from now on. -/
theorem RightMemo.value_apply (h : twap.RightMemo) (hb : b.Holds twap.arena s)
    {record : SlotRecord} (hslots : b.InSlots record twap.slotIndex) :
    ∃ memo, value record twap = .ok (average s.entries) { twap with memo } ∧
      (memo = twap.memo ∨ memo = Memo.ofBuffer b (average s.entries)) := by
  have hload := hslots.load hb.storable
  by_cases hzero : b.count = 0
  · have hnil := hb.entries_eq_nil_iff.2 hzero
    refine ⟨twap.memo, ?_, .inl rfl⟩
    simp only [value, get_bind_apply, hload, liftM_ok, pure_bind, if_pos hzero, hnil]
    rfl
  · cases hlook : Memo.lookup twap.memo b with
    | some x =>
      refine ⟨twap.memo, ?_, .inl rfl⟩
      simp only [value, get_bind_apply, hload, liftM_ok, pure_bind, if_neg hzero, hlook,
        h.lookup_eq hb hlook]
      rfl
    | none =>
      refine ⟨_, ?_, .inr rfl⟩
      simp only [value, get_bind_apply, hload, liftM_ok, pure_bind, if_neg hzero, hlook,
        Buffer.entries_of_holds hb, set_bind_apply, pure_apply]

end

theorem Keeps.remember (h : twap.Keeps buffer shelf) (v : ι) :
    ({ twap with memo := Memo.ofBuffer (buffer v) (average (shelf v).entries) } : Twap).Keeps
      buffer shelf := by
  refine ⟨h.holds, h.apart, ?_⟩
  intro m hm
  rcases h.holds v with ⟨he, -⟩ | ⟨p, hst⟩
  · simp [Memo.ofBuffer, he, Buffer.empty] at hm
  · obtain rfl : m = ⟨p, (buffer v).count, average (shelf v).entries⟩ := by
      simpa [Memo.ofBuffer, hst.start_eq] using hm.symm
    refine ⟨⟨hst.covers.mono (Nat.mul_le_mul_left _ hst.count_le), ?_⟩, ?_⟩
    · rw [hst.entries_eq]
    · intro w q hq
      by_cases hw : w = v
      · subst hw
        rw [hst.start_eq] at hq
        cases hq
        exact .inl le_rfl
      · have h1 := h.apart v w (Ne.symm hw) p q hst.start_eq hq
        have h2 := hst.count_le
        simp only [width] at *
        omega

/-- The value of a buffer that is kept; only what is remembered may change. -/
theorem Keeps.value_apply (h : twap.Keeps buffer shelf) {record : SlotRecord}
    (hslots : (buffer v).InSlots record twap.slotIndex) :
    ∃ memo, value record twap =
        .ok (average (shelf v).entries) { twap with memo } ∧
      ({ twap with memo } : Twap).Keeps buffer shelf := by
  obtain ⟨memo, hvalue, rfl | rfl⟩ := h.rightMemo.value_apply (h.holds v) hslots
  · exact ⟨twap.memo, hvalue, h⟩
  · exact ⟨_, hvalue, h.remember v⟩

end Twap

end TimeWeighted
