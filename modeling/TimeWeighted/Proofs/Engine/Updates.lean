import Mathlib
import TimeWeighted.Engine.Partial
import TimeWeighted.Proofs.Engine.Accounts
import TimeWeighted.Proofs.Twap.Updates

/-!
# Aggregates side by side

The aggregates of a query share the record of a group, each with slots of its own.  An update that
is carried out for all of them goes through if it does so for each, since none of them touches the
slots of another.

* `Twap.Serves` : an aggregate stands for an account, with its buffers in some records.
* `Twap.Serves.push_yields`, `Twap.Serves.absorb_yields` : a row, and a record gathered elsewhere.
* `Partial.updateBeside_yields` : **an update of all aggregates is one of each.**
-/

namespace TimeWeighted

/-! ### One aggregate -/

/-- An aggregate stands for an account: its slots start at `i`, it reads observations with
`observe`, and the records spell the buffers of its shelves. -/
structure Twap.Serves (twap : Twap) (i : ℕ) (observe : Row → Observation) (account : Account)
    (records : GroupKey → Option SlotRecord) : Prop where
  /-- Where its slots start. -/
  slotIndex_eq : twap.slotIndex = i
  /-- What it reads from a row. -/
  observe_eq : twap.observe = observe
  /-- The bytes it has allocated. -/
  used_eq : twap.arena.size = account.used
  /-- Its buffers. -/
  keeps : ∃ buffer : GroupKey → Buffer, twap.Keeps buffer account.shelf ∧
    ∀ key record, records key = some record → (buffer key).InSlots record i

theorem UpdateM.apply_of_ok {φ : Type} {update : UpdateM φ Unit} {f f' : φ} {r r' : SlotRecord}
    (h : update (f, r) = .ok () (f', r')) : update.apply f r = .ok (f', r') := by
  rw [UpdateM.apply, h]

theorem UpdateM.apply_of_error {φ : Type} {update : UpdateM φ Unit} {f : φ} {r : SlotRecord}
    {fault : Fault} {state : φ × SlotRecord} (h : update (f, r) = .error fault state) :
    update.apply f r = .error fault := by
  rw [UpdateM.apply, h]

namespace Twap.Serves

variable {twap twap' : Twap} {i j need : ℕ} {observe : Row → Observation} {account : Account}
  {records : GroupKey → Option SlotRecord} {key : GroupKey} {r : SlotRecord}

/-- A record that spells empty slots serves a group of which nothing has been gathered. -/
theorem of_absent (h : twap.Serves i observe account records) (habsent : account.shelf key = {})
    (hempty : Buffer.empty.InSlots r i) :
    twap.Serves i observe account (Function.update records key (some r)) := by
  obtain ⟨buffer, hkeeps, hslots⟩ := h.keeps
  obtain ⟨hb, -⟩ := (hkeeps.holds key).empty_of_nil (by rw [habsent])
  rw [← hb] at hempty
  exact ⟨h.slotIndex_eq, h.observe_eq, h.used_eq, buffer, hkeeps,
    Buffer.inSlots_update hempty fun k _ => hslots k⟩

theorem of_present (h : twap.Serves i observe account records) (hr : records key = some r) :
    twap.Serves i observe account (Function.update records key (some r)) := by
  rwa [← hr, Function.update_eq_self]

theorem withBuffer_of_apart
    (h : twap.Serves i observe account (Function.update records key (some r)))
    (hij : i + Buffer.slotCount ≤ j ∨ j + Buffer.slotCount ≤ i) (b : Buffer) :
    twap.Serves i observe account (Function.update records key (some (r.withBuffer j b))) := by
  obtain ⟨buffer, hkeeps, hslots⟩ := h.keeps
  have hslots' := Buffer.inSlots_update_of_apart (Function.update_self ..) hslots hij.symm b
  rw [Function.update_idem] at hslots'
  exact ⟨h.slotIndex_eq, h.observe_eq, h.used_eq, buffer, hkeeps, hslots'⟩

theorem updated (h : twap.Serves i observe account (Function.update records key (some r)))
    {buffer : GroupKey → Buffer} {b : Buffer} {s : Shelf} {bytes : ℕ}
    (hslots : ∀ k record, Function.update records key (some r) k = some record →
      (buffer k).InSlots record i)
    (hup : twap.Updated buffer account.shelf key b s bytes twap') :
    twap'.Serves i observe (account.put key s bytes)
      (Function.update records key (some (r.withBuffer i b))) := by
  have hslots' := Buffer.inSlots_update_withBuffer (Function.update_self ..) hslots b
  rw [Function.update_idem] at hslots'
  refine ⟨hup.slotIndex_eq.trans h.slotIndex_eq, hup.observe_eq.trans h.observe_eq, ?_, _,
    hup.keeps, hslots'⟩
  rw [hup.size_eq, h.used_eq]
  rfl

/-- What an update of the record `r` of a group has to leave: only the slots from `i` on have
changed, and the aggregate stands for the new account. -/
def Becomes (i : ℕ) (observe : Row → Observation) (account : Account)
    (records : GroupKey → Option SlotRecord) (key : GroupKey) (r : SlotRecord)
    (x : Twap × SlotRecord) : Prop :=
  ∃ b, x.2 = r.withBuffer i b ∧
    x.1.Serves i observe account (Function.update records key (some x.2))

theorem yields (h : twap.Serves i observe account (Function.update records key (some r)))
    {update : UpdateM Twap Unit} {s : Shelf} {bytes : ℕ}
    (change : ∀ b : Buffer, b.Holds twap.arena (account.shelf key) →
      b.InSlots r twap.slotIndex → twap.Change b s bytes r (update (twap, r)))
    (hneed : (account.put key s bytes).used ≤ need) :
    Yields need (Becomes i observe (account.put key s bytes) records key r)
      (update.apply twap r) := by
  obtain ⟨buffer, hkeeps, hslots⟩ := h.keeps
  have hindex := h.slotIndex_eq
  have hkey := hslots key r (Function.update_self ..)
  rw [← hindex] at hkey
  cases (change (buffer key) (hkeeps.holds key) hkey).attempt hkeeps with
  | done hrun hup =>
    rw [hindex] at hrun
    exact Yields.of_ok (UpdateM.apply_of_ok hrun) ⟨_, rfl, h.updated hslots hup⟩
  | full hrun hfull =>
    rw [UpdateM.apply_of_error hrun]
    refine ⟨rfl, hfull.trans ?_⟩
    rw [h.used_eq]
    exact hneed

/-- A row of a group. -/
theorem push_yields (h : twap.Serves i observe account (Function.update records key (some r)))
    (row : Row) (hneed : (account.push key (observe row)).used ≤ need) :
    Yields need (Becomes i observe (account.push key (observe row)) records key r)
      ((Aggregate.next row : UpdateM Twap Unit).apply twap r) := by
  refine h.yields (fun b hb hslots => ?_) hneed
  rw [← h.observe_eq]
  exact Twap.change_append hb hslots _

theorem first_yields (h : twap.Serves i observe account (Function.update records key (some r)))
    (habsent : account.shelf key = {}) (row : Row)
    (hneed : (account.push key (observe row)).used ≤ need) :
    Yields need (Becomes i observe (account.push key (observe row)) records key r)
      ((Aggregate.first row : UpdateM Twap Unit).apply twap r) := by
  rw [Account.push, habsent, Shelf.push_empty, Shelf.pushBytes_empty] at hneed ⊢
  refine h.yields (fun b hb hslots => ?_) hneed
  rw [← h.observe_eq]
  exact Twap.change_start b hslots.size_le _

section

variable {other : SlotRecord} {source : Arena} {incoming : Buffer} {t : Shelf}

/-- A record of the group that was gathered elsewhere. -/
theorem absorb_yields (h : twap.Serves i observe account (Function.update records key (some r)))
    (hin : incoming.InSlots other i) (hholds : incoming.Holds source t)
    (hneed : (account.absorb key t.entries).used ≤ need) :
    Yields need (Becomes i observe (account.absorb key t.entries) records key r)
      ((Aggregate.merge other source : UpdateM Twap Unit).apply twap r) := by
  rw [← h.slotIndex_eq] at hin
  exact h.yields (fun b hb hslots => Twap.change_absorb hb hslots hin hholds) hneed

theorem clear_apply_of_absent
    (h : twap.Serves i observe account (Function.update records key (some r)))
    (habsent : account.shelf key = {}) : Twap.clear (twap, r) = .ok () (twap, r) := by
  obtain ⟨buffer, hkeeps, hslots⟩ := h.keeps
  have hkey := hslots key r (Function.update_self ..)
  obtain ⟨hb, -⟩ := (hkeeps.holds key).empty_of_nil (by rw [habsent])
  rw [← h.slotIndex_eq] at hkey
  rw [Twap.clear_apply hkey.size_le, ← hb, hkey.withBuffer_self]

theorem clear_absorb_yields
    (h : twap.Serves i observe account (Function.update records key (some r)))
    (habsent : account.shelf key = {})
    (hin : incoming.InSlots other i) (hholds : incoming.Holds source t)
    (hneed : (account.absorb key t.entries).used ≤ need) :
    Yields need (Becomes i observe (account.absorb key t.entries) records key r)
      (UpdateM.apply (do
        Aggregate.clear
        Aggregate.merge other source : UpdateM Twap Unit) twap r) := by
  have hclear := h.clear_apply_of_absent habsent
  have hsame : UpdateM.apply (do
        Aggregate.clear
        Aggregate.merge other source : UpdateM Twap Unit) twap r =
      (Aggregate.merge other source : UpdateM Twap Unit).apply twap r := by
    simp only [UpdateM.apply]
    rw [bind_of_ok (show (Aggregate.clear : UpdateM Twap Unit) (twap, r) = _ from hclear)]
  rw [hsame]
  exact h.absorb_yields hin hholds hneed

end

end Twap.Serves

/-! ### All aggregates -/

namespace Partial

/-- Aggregates with slots from `i` on, one behind the other, stand for accounts. -/
def AllServe (i : ℕ) (observe : ℕ → Row → Observation) (account : ℕ → Account)
    (records : GroupKey → Option SlotRecord) (fs : List Twap) : Prop :=
  ∀ k (f : Twap), fs[k]? = some f →
    f.Serves (i + Buffer.slotCount * k) (observe k) (account k) records

variable {i need : ℕ} {observe : ℕ → Row → Observation} {account account' : ℕ → Account}
  {records : GroupKey → Option SlotRecord} {key : GroupKey} {r : SlotRecord} {f : Twap}
  {fs others : List Twap}

theorem allServe_cons (h : f.Serves i (observe 0) (account 0) records)
    (hs : AllServe (i + Buffer.slotCount) (fun k => observe (k + 1)) (fun k => account (k + 1))
      records fs) : AllServe i observe account records (f :: fs) := by
  intro k g hg
  cases k with
  | zero =>
    obtain rfl := Option.some.inj hg
    exact h
  | succ k =>
    have := hs k g hg
    rwa [Nat.add_assoc, Nat.add_comm Buffer.slotCount, ← Nat.mul_succ] at this

theorem AllServe.head (h : AllServe i observe account records (f :: fs)) :
    f.Serves i (observe 0) (account 0) records :=
  h 0 f rfl

theorem AllServe.tail (h : AllServe i observe account records (f :: fs)) :
    AllServe (i + Buffer.slotCount) (fun k => observe (k + 1)) (fun k => account (k + 1))
      records fs := by
  intro k g hg
  have := h (k + 1) g hg
  rwa [Nat.mul_succ, Nat.add_comm (Buffer.slotCount * k), ← Nat.add_assoc] at this

theorem AllServe.exists_used (h : AllServe i observe account records fs) {m : ℕ}
    (hm : fs.length = m) {f : Twap} (hf : f ∈ fs) : ∃ k < m, f.arena.size = (account k).used := by
  obtain ⟨k, hk, rfl⟩ := List.getElem_of_mem hf
  exact ⟨k, hm ▸ hk, (h k _ (List.getElem?_eq_getElem hk)).used_eq⟩

theorem AllServe.withBuffer {j : ℕ}
    (h : AllServe i observe account (Function.update records key (some r)) fs)
    (hji : j + Buffer.slotCount ≤ i) (b : Buffer) :
    AllServe i observe account (Function.update records key (some (r.withBuffer j b))) fs :=
  fun k g hg => (h k g hg).withBuffer_of_apart (.inr (hji.trans (Nat.le_add_right _ _))) b

/-- **An update of all aggregates is one of each.** -/
theorem updateBeside_yields {update : Twap → UpdateM Twap Unit}
    (hlen : fs.length ≤ others.length)
    (serve : AllServe i observe account (Function.update records key (some r)) fs)
    (step : ∀ k (f other : Twap) r, others[k]? = some other →
      f.Serves (i + Buffer.slotCount * k) (observe k) (account k)
        (Function.update records key (some r)) →
      Yields need (Twap.Serves.Becomes (i + Buffer.slotCount * k) (observe k) (account' k)
        records key r) ((update other).apply f r)) :
    Yields need (fun x => x.1.length = fs.length ∧
        AllServe i observe account' (Function.update records key (some x.2)) x.1 ∧
        -- aggregates whose slots come before are not concerned
        ∀ (g : Twap) j observe account, j + Buffer.slotCount ≤ i →
          g.Serves j observe account (Function.update records key (some r)) →
          g.Serves j observe account (Function.update records key (some x.2)))
      (updateBeside update others fs r) := by
  induction fs generalizing i observe account account' others r with
  | nil =>
    rw [updateBeside]
    refine Yields.of_ok (a := ([], r)) rfl ⟨rfl, ?_, fun _ _ _ _ _ h => h⟩
    intro k g hg
    simp at hg
  | cons f fs ih =>
    cases others with
    | nil => simp at hlen
    | cons other others =>
      have hstep := step 0 f other r rfl serve.head
      rw [updateBeside]
      refine hstep.bind ?_
      rintro ⟨f', r'⟩ ⟨b, rfl, hf'⟩
      have hserve := serve.tail.withBuffer (Nat.le_refl _) b
      have hsteps : ∀ k (g other : Twap) r, others[k]? = some other →
          g.Serves (i + Buffer.slotCount + Buffer.slotCount * k) (observe (k + 1))
            (account (k + 1)) (Function.update records key (some r)) →
          Yields need (Twap.Serves.Becomes (i + Buffer.slotCount + Buffer.slotCount * k)
            (observe (k + 1)) (account' (k + 1)) records key r) ((update other).apply g r) := by
        intro k g other r hother hg
        rw [Nat.add_assoc, Nat.add_comm Buffer.slotCount, ← Nat.mul_succ] at hg ⊢
        exact step (k + 1) g other r hother hg
      refine (ih (Nat.le_of_succ_le_succ hlen) hserve hsteps).bind ?_
      rintro ⟨fs', r'⟩ ⟨hlength, hserve, hframe⟩
      refine Yields.of_ok rfl ⟨congrArg (· + 1) hlength, ?_, ?_⟩
      · exact allServe_cons (hframe f' i _ _ (Nat.le_refl _) hf') hserve
      · intro g j observe account hj hg
        exact hframe g j observe account (by omega) (hg.withBuffer_of_apart (.inl hj) b)

theorem updateAll_eq_updateBeside (update : UpdateM Twap Unit) (fs : List Twap) (r : SlotRecord) :
    updateAll update fs r = updateBeside (fun _ => update) fs fs r := by
  induction fs generalizing r with
  | nil => rfl
  | cons f fs ih => simp only [updateAll, updateBeside, ih]

end Partial

end TimeWeighted
