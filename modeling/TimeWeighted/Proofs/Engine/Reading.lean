import Mathlib
import TimeWeighted.Proofs.Engine.Gathering

/-!
# Reading partial results

The output has one row for every group, sorted by key, with one average for every aggregate.  What
the aggregates remember from one reading to the next does not show.

* `Partial.Represents.readGroups_eq` : the averages of groups, in the order they are read.
* `Partial.Represents.ensureTotal_ok` : adding the group of all rows.
* `Partial.Represents.finish_eq` : **the output, whatever the order of reading.**
-/

namespace TimeWeighted

open Observation

/-! ### The order of keys -/

namespace GroupKey

theorem le_trans (a b c : GroupKey) (hab : le a b) (hbc : le b c) : le a c := by
  match a, b, c with
  | none, _, _ => rfl
  | some _, some _, some _ =>
    simp only [le, decide_eq_true_eq] at *
    exact String.le_trans hab hbc

theorem le_total (a b : GroupKey) : le a b || le b a := by
  match a, b with
  | none, _ => rfl
  | some _, none => rfl
  | some x, some y =>
    simp only [le, Bool.or_eq_true, decide_eq_true_eq]
    exact String.le_total x y

theorem le_antisymm {a b : GroupKey} (hab : le a b) (hba : le b a) : a = b := by
  match a, b with
  | none, none => rfl
  | some x, some y =>
    simp only [le, decide_eq_true_eq] at *
    rw [String.le_antisymm hab hba]

end GroupKey

/-! ### Values -/

section

variable {i : ℕ} {twap : Twap} {records : GroupKey → Option SlotRecord} {key : GroupKey}
  {record : SlotRecord} {fs : List Twap}

theorem Twap.Serves.value_apply {observe : Row → Observation} {account : Account}
    (h : twap.Serves i observe account records) (hr : records key = some record) :
    ∃ twap', Aggregate.value record twap = .ok (average (account.shelf key).entries) twap' ∧
      twap'.Serves i observe account records := by
  obtain ⟨buffer, hkeeps, hslots⟩ := h.keeps
  have hin := hslots key record hr
  rw [← h.slotIndex_eq] at hin
  obtain ⟨memo, hvalue, hkeeps'⟩ := hkeeps.value_apply hin
  exact ⟨_, hvalue, h.slotIndex_eq, h.observe_eq, h.used_eq, buffer, hkeeps', hslots⟩

namespace Partial

variable {observe : ℕ → Row → Observation} {account : ℕ → Account}

/-- The averages of one group. -/
def averages (m : ℕ) (account : ℕ → Account) (key : GroupKey) : List Float :=
  (List.range m).map fun k => average ((account k).shelf key).entries

theorem readRecord_eq (h : AllServe i observe account records fs)
    (hr : records key = some record) :
    ∃ fs', readRecord record fs = .ok (fs', averages fs.length account key) ∧
      fs'.length = fs.length ∧ AllServe i observe account records fs' := by
  induction fs generalizing i observe account with
  | nil => exact ⟨[], rfl, rfl, h⟩
  | cons f fs ih =>
    obtain ⟨f', hf, hserves⟩ := h.head.value_apply hr
    obtain ⟨fs', hfs, hlength, hserve⟩ := ih h.tail
    refine ⟨f' :: fs', ?_, congrArg (· + 1) hlength, allServe_cons hserves hserve⟩
    have haverages : averages (fs.length + 1) account key =
        average ((account 0).shelf key).entries ::
          averages fs.length (fun k => account (k + 1)) key := by
      simp [averages, List.range_succ_eq_map, Function.comp_def]
    simp only [readRecord, hf, hfs, ok_bind, List.length_cons, haverages]
    rfl

/-- The averages of groups, in the order they are read. -/
theorem readGroups_eq {entries : List (GroupKey × SlotRecord)}
    (h : AllServe i observe account records fs)
    (hr : ∀ entry ∈ entries, records entry.1 = some entry.2) :
    ∃ fs', readGroups fs entries =
        .ok (fs', entries.map fun entry => ⟨entry.1, averages fs.length account entry.1⟩) ∧
      fs'.length = fs.length ∧ AllServe i observe account records fs' := by
  induction entries generalizing fs with
  | nil => exact ⟨fs, rfl, rfl, h⟩
  | cons entry rest ih =>
    obtain ⟨hentry, hrest⟩ := List.forall_mem_cons.1 hr
    obtain ⟨fs', hfs, hlength, hserve⟩ := readRecord_eq h hentry
    obtain ⟨fs'', hfs', hlength', hserve'⟩ := ih hserve hrest
    rw [hlength] at hfs'
    refine ⟨fs'', ?_, hlength'.trans hlength, hserve'⟩
    simp only [readGroups, hfs, hfs', ok_bind]
    rfl

end Partial

end

/-! ### The output -/

namespace Partial

variable {m : ℕ} {observe : ℕ → Row → Observation} {p : Partial Twap} {account : ℕ → Account}

/-- **The output has one row for every group, sorted by key**, with the averages of its entries.
Reading allocates nothing. -/
theorem Represents.finish_eq (h : p.Represents m observe account) {order : GroupOrder}
    (horder : (order p.groups.entries).Perm p.groups.entries) :
    ∃ fs, p.finish order = .ok (fs, (p.groups.keys.mergeSort GroupKey.le).map fun key =>
        ⟨key, averages m account key⟩) ∧
      ∀ f ∈ fs, ∃ k < m, f.arena.size = (account k).used := by
  have hmem : ∀ entry ∈ order p.groups.entries, p.groups.find? entry.1 = some entry.2 :=
    fun entry hentry => Groups.find?_of_mem _ (horder.mem_iff.1 hentry)
  obtain ⟨fs, hread, hlength, hserve⟩ := readGroups_eq h.serve hmem
  refine ⟨fs, ?_, fun f hf => hserve.exists_used (hlength.trans h.length_eq) hf⟩
  simp only [finish, hread, ok_bind, h.length_eq]
  have hrows : (order p.groups.entries).map (fun entry =>
        (⟨entry.1, averages m account entry.1⟩ : GroupRow)) =
      ((order p.groups.entries).map (·.1)).map fun key => ⟨key, averages m account key⟩ := by
    rw [List.map_map]
    rfl
  have hkeys : ((order p.groups.entries).map (·.1)).mergeSort GroupKey.le =
      p.groups.keys.mergeSort GroupKey.le := by
    refine List.Perm.eq_of_pairwise (fun _ _ _ _ => GroupKey.le_antisymm)
      (List.pairwise_mergeSort GroupKey.le_trans GroupKey.le_total _)
      (List.pairwise_mergeSort GroupKey.le_trans GroupKey.le_total _) ?_
    exact (List.mergeSort_perm _ _).trans ((horder.map _).trans (List.mergeSort_perm _ _).symm)
  have hsort : (((order p.groups.entries).map (·.1)).mergeSort GroupKey.le).map
        (fun key => (⟨key, averages m account key⟩ : GroupRow)) =
      (((order p.groups.entries).map (·.1)).map fun key => ⟨key, averages m account key⟩).mergeSort
        fun a b => GroupKey.le a.key b.key := List.map_mergeSort fun _ _ _ _ => rfl
  rw [hrows, ← hkeys, hsort]
  rfl

/-- The group of all rows, if there was none, is added without entries. -/
theorem Represents.ensureTotal_ok (h : p.Represents m observe account) :
    ∃ q, p.ensureTotal = .ok q ∧ q.Represents m observe account ∧
      ∀ key, key ∈ q.groups.keys ↔ key = none ∨ key ∈ p.groups.keys := by
  cases hfind : p.groups.find? none with
  | some record =>
    have hmem := Groups.mem_keys_of_find? hfind
    refine ⟨p, ?_, h, fun key => (or_iff_right_of_imp fun heq => heq ▸ hmem).symm⟩
    simp only [ensureTotal, hfind]
    rfl
  | none =>
    have hstep : ∀ k < m, ∀ (f other : Twap) r, p.aggregates[k]? = some other →
        f.Serves (0 + Buffer.slotCount * k) (observe k) (account k)
          (Function.update p.groups.find? none (some r)) →
        Yields 0 (Twap.Serves.Becomes (0 + Buffer.slotCount * k) (observe k) (account k)
          p.groups.find? none r) ((Aggregate.clear : UpdateM Twap Unit).apply f r) := by
      intro k hk f other r hother hserves
      have hclear := hserves.clear_apply_of_absent (h.absent none hfind k)
      refine Yields.of_ok (UpdateM.apply_of_ok hclear) ?_
      obtain ⟨buffer, hkeeps, hslots⟩ := hserves.keeps
      have hin := hslots none r (Function.update_self ..)
      exact ⟨buffer none, hin.withBuffer_self.symm, hserves⟩
    have hyields := h.insert_yields account h.length_eq (h.serve_newRecord hfind)
      (fun _ _ _ => rfl) hstep
    obtain ⟨q, hq, hrep, hkeys⟩ := hyields.exists_ok (by decide)
    refine ⟨q, ?_, hrep, hkeys⟩
    rw [← updateAll_eq_updateBeside] at hq
    simp only [ensureTotal, hfind]
    exact hq

end Partial

end TimeWeighted
