import Mathlib
import TimeWeighted.Proofs.Engine.Reading

/-!
# Rows that cannot be seen

A row without a time or without a value leaves no trace, even if it is the first of its group: the
record it starts is a new one, and the next row of the group does to that record what it would have
done as the first.  So whatever rows of this kind are left out, the same bytes are allocated and the
same slots are written.

* `Partial.gatherKeyed`, `Partial.drive` : rows that come with the keys of their groups.
* `Partial.pushRow` : a row, where every group has a record from the start.
* `Partial.drive_spec` : driving an aggregate is pushing the rows.
* `Partial.drive_skips_invalid` : **leaving out rows that are not valid changes nothing.**
-/

namespace TimeWeighted

open Observation

/-! ### First rows and further rows -/

namespace Twap

variable {twap : Twap} {layout : SlotLayout} {o : Observation}

/-- On a new record, and with nothing remembered, a first row does what any row does. -/
theorem start_newRecord (hmemo : twap.memo = none)
    (hwide : twap.slotIndex + Buffer.slotCount ≤ layout.size) :
    start o (twap, layout.newRecord) = append o (twap, layout.newRecord) := by
  have hslots := Buffer.empty_inSlots_newRecord hwide
  have hload := hslots.load (Buffer.holds_empty twap.arena).storable
  -- a first row begins by forgetting, and there is nothing to forget
  have hstart : start o (twap, layout.newRecord) = (do
      let buffer ← onArena (Buffer.first o)
      onRecord (buffer.store (← get).1.slotIndex) : UpdateM Twap Unit)
        (twap, layout.newRecord) := by
    cases twap
    cases hmemo
    rfl
  rw [hstart]
  cases hv : o.isValid with
  | false =>
    rw [bind_of_ok (onArena_of_ok (Buffer.first_of_invalid hv twap.arena) _), get_bind_apply,
      onRecord_store _ hslots.size_le, hslots.withBuffer_self, append_of_invalid hv]
  | true =>
    have hpush : Buffer.empty.push o = Buffer.first o := by
      rw [Buffer.push, if_pos hv]
      rfl
    rw [append_of_valid hv hload, hpush]
    cases hfirst : Buffer.first o twap.arena with
    | ok b a => rw [bind_of_ok (onArena_of_ok hfirst _), bind_of_ok (onArena_of_ok hfirst _)]; rfl
    | error fault a =>
      rw [bind_of_error (onArena_of_error hfirst _), bind_of_error (onArena_of_error hfirst _)]

theorem exists_arena_of_onArena {α : Type} {operation : ArenaM α} {x : α} {f g : Twap}
    {record record' : SlotRecord}
    (h : onArena operation (f, record) = .ok x (g, record')) : ∃ a, g = { f with arena := a } := by
  rw [onArena_apply] at h
  split at h
  · cases h
    exact ⟨_, rfl⟩
  · cases h

theorem eq_of_onRecord {α : Type} {operation : SlotM α} {x : α} {f g : Twap}
    {record record' : SlotRecord}
    (h : onRecord operation (f, record) = .ok x (g, record')) : g = f := by
  rw [onRecord] at h
  split at h <;> cases h
  rfl

theorem next_relates (row : Row) :
    UpdateM.Relates (Aggregate.next row : UpdateM Twap Unit)
      fun f g => ∃ a, g = { f with arena := a } := by
  intro f record g record' hrun
  rw [UpdateM.apply_eq_ok] at hrun
  have hnext : append (f.observe row) (f, record) = .ok () (g, record') := hrun
  cases hv : (f.observe row).isValid with
  | false =>
    rw [append_of_invalid hv] at hnext
    cases hnext
    exact ⟨f.arena, rfl⟩
  | true =>
    cases hload : Buffer.load record f.slotIndex with
    | error fault =>
      simp only [append, hv, if_true, get_bind_apply, hload, liftM_error] at hnext
      cases hnext
    | ok b =>
      rw [append_of_valid hv hload] at hnext
      obtain ⟨b', ⟨f', mid⟩, hpush, hstore⟩ := exists_of_run_bind_ok hnext
      obtain ⟨a, rfl⟩ := exists_arena_of_onArena hpush
      exact ⟨a, eq_of_onRecord hstore⟩

end Twap

namespace Partial

/-! ### Rows that come with keys -/

section

variable {φ : Type} [Aggregate φ]

/-- Gathers a row of the group `key`. -/
def gatherKeyed (p : Partial φ) (key : GroupKey) (row : Row) : Except Fault (Partial φ) := do
  let (aggregates, record) ←
    match p.groups.find? key with
    | some record => updateAll (Aggregate.next row) p.aggregates record
    | none => updateAll (Aggregate.first row) p.aggregates p.layout.newRecord
  return ⟨aggregates, p.layout, p.groups.insert key record⟩

/-- Gathers rows, each with the key of its group, in the order given. -/
def drive (p : Partial φ) (rows : List (GroupKey × Row)) : Except Fault (Partial φ) :=
  rows.foldlM (fun p row => p.gatherKeyed row.1 row.2) p

theorem gather_eq_drive (groupBy : Option ℕ) (table : Table) (rows : List ℕ) (p : Partial φ) :
    p.gather groupBy table rows =
      p.drive (rows.map fun i => (table.keyOf groupBy i, table.row i)) := by
  rw [gather, drive, List.foldlM_map]
  rfl

end

/-- A partial result of one aggregate, which was given a new arena. -/
def opening (id : ArenaId) (reserve : ℕ) (twap : Twap) (layout : SlotLayout) : Partial Twap :=
  ⟨[Aggregate.adopt (.empty id reserve) twap], layout, {}⟩

/-- What an aggregate reads from rows, each with the key of its group. -/
def readBy (twap : Twap) (rows : List (GroupKey × Row)) : List (GroupKey × Observation) :=
  rows.map fun row => (row.1, twap.observe row.2)

@[simp] theorem length_readBy (twap : Twap) (rows : List (GroupKey × Row)) :
    (readBy twap rows).length = rows.length :=
  List.length_map _

/-- One row for an aggregate, where every group has a record. -/
def pushRow (state : Twap × (GroupKey → SlotRecord)) (row : GroupKey × Row) :
    Except Fault (Twap × (GroupKey → SlotRecord)) := do
  let (twap, record) ← (Aggregate.next row.2).apply state.1 (state.2 row.1)
  return (twap, Function.update state.2 row.1 record)

variable {twap : Twap} {layout : SlotLayout} {groups : Groups SlotRecord} {key : GroupKey}
  {row : Row} {rows kept : List (GroupKey × Row)}

theorem recordOf_insert (r : SlotRecord) :
    recordOf layout (groups.insert key r) = Function.update (recordOf layout groups) key r := by
  funext other
  rw [recordOf, Groups.find?_insert]
  by_cases h : other = key
  · subst h
    simp
  · rw [Function.update_of_ne h, Function.update_of_ne h, recordOf]

theorem updateAll_single (update : UpdateM Twap Unit) (r : SlotRecord) :
    updateAll update [twap] r = (do
      let x ← update.apply twap r
      return ([x.1], x.2)) := by
  simp only [updateAll]
  cases update.apply twap r <;> rfl

/-- **A row is pushed, whether it is the first of its group or not.** -/
theorem gatherKeyed_single (hmemo : twap.memo = none)
    (hwide : twap.slotIndex + Buffer.slotCount ≤ layout.size) (key : GroupKey) (row : Row) :
    gatherKeyed ⟨[twap], layout, groups⟩ key row = (do
      let state ← pushRow (twap, recordOf layout groups) (key, row)
      return ⟨[state.1], layout, groups.insert key (state.2 key)⟩) := by
  have hgather : gatherKeyed ⟨[twap], layout, groups⟩ key row = (do
      let x ← (Aggregate.next row : UpdateM Twap Unit).apply twap (recordOf layout groups key)
      return (⟨[x.1], layout, groups.insert key x.2⟩ : Partial Twap)) := by
    cases hfind : groups.find? key with
    | some r =>
      simp only [gatherKeyed, hfind, updateAll_single, recordOf, Option.getD_some, bind_assoc,
        pure_bind]
    | none =>
      have hfirst : (Aggregate.first row : UpdateM Twap Unit).apply twap layout.newRecord =
          (Aggregate.next row : UpdateM Twap Unit).apply twap layout.newRecord := by
        have hstart : (Aggregate.first row : UpdateM Twap Unit) (twap, layout.newRecord) =
            (Aggregate.next row : UpdateM Twap Unit) (twap, layout.newRecord) :=
          Twap.start_newRecord hmemo hwide
        rw [UpdateM.apply, hstart, UpdateM.apply]
      simp only [gatherKeyed, hfind, updateAll_single, hfirst, recordOf, Option.getD_none,
        bind_assoc, pure_bind]
  rw [hgather, pushRow]
  simp only [bind_assoc, pure_bind, Function.update_self]

/-- Driving one aggregate is pushing the rows, and every row has a group. -/
theorem drive_spec (twap : Twap) (groups : Groups SlotRecord) (rows : List (GroupKey × Row))
    (hmemo : twap.memo = none) (hwide : twap.slotIndex + Buffer.slotCount ≤ layout.size) :
    match rows.foldlM pushRow (twap, recordOf layout groups) with
    | .ok state => ∃ groups', drive ⟨[twap], layout, groups⟩ rows =
          .ok ⟨[state.1], layout, groups'⟩ ∧ recordOf layout groups' = state.2 ∧
        ∀ key, key ∈ groups'.keys ↔ key ∈ groups.keys ∨ key ∈ rows.map (·.1)
    | .error fault => drive ⟨[twap], layout, groups⟩ rows = .error fault := by
  -- a row changes no more of the aggregate than its arena, so it never remembers anything
  induction rows generalizing twap groups with
  | nil => exact ⟨groups, rfl, rfl, by simp⟩
  | cons row rest ih =>
    have hdrive : drive ⟨[twap], layout, groups⟩ (row :: rest) = (do
        let state ← pushRow (twap, recordOf layout groups) row
        drive ⟨[state.1], layout, groups.insert row.1 (state.2 row.1)⟩ rest) := by
      rw [drive, List.foldlM_cons, gatherKeyed_single hmemo hwide, bind_assoc]
      rfl
    rw [List.foldlM_cons, hdrive]
    cases hpush : pushRow (twap, recordOf layout groups) row with
    | error fault => simp only [error_bind]
    | ok state =>
      obtain ⟨⟨twap', r⟩, hnext, hstate⟩ := exists_of_bind_ok hpush
      cases hstate
      obtain ⟨a, rfl⟩ := Twap.next_relates row.2 _ _ _ _ hnext
      have hrest := ih { twap with arena := a } (groups.insert row.1 r) hmemo hwide
      simp only [recordOf_insert] at hrest
      simp only [ok_bind, Function.update_self]
      cases hrun : rest.foldlM pushRow
        (({ twap with arena := a } : Twap), Function.update (recordOf layout groups) row.1 r) with
      | error fault =>
        rw [hrun] at hrest
        exact hrest
      | ok last =>
        rw [hrun] at hrest
        obtain ⟨groups', hgroups, hrecords, hkeys⟩ := hrest
        refine ⟨groups', hgroups, hrecords, fun key => ?_⟩
        rw [hkeys, Groups.mem_keys_insert, List.map_cons, List.mem_cons, or_assoc, or_left_comm]

/-! ### Leaving rows out -/

theorem pushRow_of_invalid {state : Twap × (GroupKey → SlotRecord)} {row : GroupKey × Row}
    (h : (state.1.observe row.2).isValid = false) : pushRow state row = .ok state := by
  have hnext : (Aggregate.next row.2 : UpdateM Twap Unit).apply state.1 (state.2 row.1) =
      .ok (state.1, state.2 row.1) := UpdateM.apply_of_ok (Twap.append_of_invalid h)
  simp only [pushRow, hnext, ok_bind, Function.update_eq_self]
  rfl

theorem foldlM_pushRow_filter (state : Twap × (GroupKey → SlotRecord))
    (rows : List (GroupKey × Row)) :
    rows.foldlM pushRow state =
      (rows.filter fun row => (state.1.observe row.2).isValid).foldlM pushRow state := by
  induction rows generalizing state with
  | nil => rfl
  | cons row rest ih =>
    cases hv : (state.1.observe row.2).isValid with
    | false =>
      rw [List.filter_cons_of_neg (by simp [hv]), List.foldlM_cons, pushRow_of_invalid hv, ok_bind,
        ih]
    | true =>
      rw [List.filter_cons_of_pos (by simp [hv]), List.foldlM_cons, List.foldlM_cons]
      cases hpush : pushRow state row with
      | error fault => rfl
      | ok next =>
        obtain ⟨⟨twap', r⟩, hnext, hstate⟩ := exists_of_bind_ok hpush
        cases hstate
        obtain ⟨a, rfl⟩ := Twap.next_relates row.2 _ _ _ _ hnext
        exact ih _

theorem foldlM_pushRow_yields (twap : Twap) (hmemo : twap.memo = none)
    (hempty : twap.arena.size = 0) (hwide : twap.slotIndex + Buffer.slotCount ≤ layout.size)
    (rows : List (GroupKey × Row)) :
    Yields (256 * rows.length) (fun state => state.1.Serves twap.slotIndex twap.observe
        (.ofRows (readBy twap rows)) fun key => some (state.2 key))
      (rows.foldlM pushRow (twap, fun _ => layout.newRecord)) := by
  have hstart : twap.Serves twap.slotIndex twap.observe {} fun _ => some layout.newRecord := by
    refine ⟨rfl, rfl, hempty, _, Twap.keeps_empty hmemo, ?_⟩
    rintro key record ⟨⟩
    exact Buffer.empty_inSlots_newRecord hwide
  refine Yields.foldlM (b := (twap, fun _ => layout.newRecord)) (fun (done : List (GroupKey × Row))
      (state : Twap × (GroupKey → SlotRecord)) => state.1.Serves twap.slotIndex twap.observe
        (.ofRows (readBy twap done)) fun key => some (state.2 key)) hstart ?_
  rintro done row rest state hrows hserves
  have hpush : Account.ofRows (readBy twap (done ++ [row])) =
      (Account.ofRows (readBy twap done)).push row.1 (twap.observe row.2) := by
    rw [readBy, List.map_append, List.map_singleton, Account.ofRows_append, readBy]
  -- the account has taken 256 bytes a row at most, so far
  have hneed : ((Account.ofRows (readBy twap done)).push row.1 (twap.observe row.2)).used ≤
      256 * rows.length := by
    have hused := Account.used_ofRows_le (readBy twap (done ++ [row]))
    rw [hpush, length_readBy, List.length_append, List.length_singleton] at hused
    rw [hrows, List.length_append, List.length_cons]
    omega
  refine ((hserves.of_present rfl).push_yields row.2 hneed).bind ?_
  rintro ⟨twap', r⟩ ⟨b, -, hserves'⟩
  refine Yields.of_ok rfl ?_
  rw [hpush]
  have hrecords : (fun key => some (Function.update state.2 row.1 r key)) =
      Function.update (fun key => some (state.2 key)) row.1 (some r) :=
    Function.comp_update some state.2 row.1 r
  rwa [hrecords]

theorem foldlM_pushRow_of_notMem {state last : Twap × (GroupKey → SlotRecord)}
    (h : rows.foldlM pushRow state = .ok last) (hkey : key ∉ rows.map (·.1)) :
    last.2 key = state.2 key := by
  induction rows generalizing state with
  | nil =>
    cases h
    rfl
  | cons row rest ih =>
    rw [List.map_cons, List.mem_cons, not_or] at hkey
    rw [List.foldlM_cons] at h
    obtain ⟨next, hpush, hrest⟩ := exists_of_bind_ok h
    obtain ⟨⟨twap', r⟩, -, hnext⟩ := exists_of_bind_ok hpush
    cases hnext
    rw [ih hrest hkey.2]
    exact Function.update_of_ne hkey.1 ..

theorem find?_of_mem_keys (layout : SlotLayout) (h : key ∈ groups.keys) :
    groups.find? key = some (recordOf layout groups key) := by
  cases hfind : groups.find? key with
  | none => exact absurd h ((Groups.find?_eq_none_iff _ _).1 hfind)
  | some r => rw [recordOf, hfind, Option.getD_some]

/-- Whether the observation that an aggregate reads from a row is valid. -/
def sees (twap : Twap) (row : GroupKey × Row) : Bool :=
  (twap.observe row.2).isValid

/-- The valid observations of a group, in the order of the rows. -/
def seen (twap : Twap) (rows : List (GroupKey × Row)) (key : GroupKey) : List Observation :=
  (rows.filter fun row => row.1 = key ∧ sees twap row).map fun row => twap.observe row.2

theorem seen_eq_entries (twap : Twap) (rows : List (GroupKey × Row)) (key : GroupKey) :
    ((Account.ofRows (readBy twap (rows.filter (sees twap)))).shelf key).entries =
      seen twap rows key := by
  rw [Account.entries_ofRows, readBy, List.filter_map, List.map_map, List.filter_filter, seen]
  congr 1
  refine List.filter_congr fun row _ => ?_
  simp only [Function.comp_apply, sees]
  by_cases h : (twap.observe row.2).isValid = true <;> simp [h]

/-- What is left of a group after its rows were pushed. -/
structure Left (twap : Twap) (layout : SlotLayout) (rows : List (GroupKey × Row)) (key : GroupKey)
    (last : Twap) (record : SlotRecord) : Prop where
  /-- The value is the average of the valid observations. -/
  value : ∃ after, Aggregate.value record last = .ok (average (seen twap rows key)) after
  /-- Without valid rows nothing is left, and there is no value. -/
  nothing : (∀ row ∈ rows, row.1 = key → sees twap row = false) →
    record = layout.newRecord ∧ ∃ after, Aggregate.value record last = .ok missingValue after

theorem left_of_serves {last : Twap} {records : GroupKey → SlotRecord} {i : ℕ}
    (hserves : last.Serves i twap.observe (.ofRows (readBy twap (rows.filter (sees twap))))
      fun key => some (records key))
    (huntouched : key ∉ (rows.filter (sees twap)).map (·.1) → records key = layout.newRecord) :
    Left twap layout rows key last (records key) := by
  have hrecord : (fun key => some (records key)) key = some (records key) := rfl
  obtain ⟨after, hvalue, -⟩ := hserves.value_apply hrecord
  rw [seen_eq_entries] at hvalue
  refine ⟨⟨after, hvalue⟩, fun hinvalid => ⟨huntouched fun hmem => ?_, after, ?_⟩⟩
  · obtain ⟨row, hrow, hkey⟩ := List.mem_map.1 hmem
    obtain ⟨hrow, hsees⟩ := List.mem_filter.1 hrow
    rw [hinvalid row hrow hkey] at hsees
    cases hsees
  · have hnone : seen twap rows key = [] := by
      rw [seen, List.map_eq_nil_iff, List.filter_eq_nil_iff]
      intro row hrow hkey
      simp only [decide_eq_true_eq] at hkey
      rw [hinvalid row hrow hkey.1] at hkey
      cases hkey.2
    rw [hvalue, hnone]
    rfl

/-- **Leaving out rows that are not valid changes nothing.**  Two sequences of rows with the same
valid rows leave the same aggregate, with the same bytes in its arena, and the same record of every
group that both have; its value is the average of the valid observations of the group.  A group
without a valid row has a new record and no value.  Only `2 ^ 40` valid rows or more can exhaust the
arena, and then either sequence does. -/
theorem drive_skips_invalid (id : ArenaId) (reserve : ℕ) (twap : Twap) {layout : SlotLayout}
    (wide : twap.slotIndex + Buffer.slotCount ≤ layout.size)
    (same : kept.filter (sees twap) = rows.filter (sees twap)) :
    match (opening id reserve twap layout).drive rows,
      (opening id reserve twap layout).drive kept with
    | .ok p, .ok q => ∃ last, p.aggregates = [last] ∧ q.aggregates = [last] ∧
        (∀ key, key ∈ p.groups.keys ↔ key ∈ rows.map (·.1)) ∧
        (∀ key, key ∈ q.groups.keys ↔ key ∈ kept.map (·.1)) ∧
        (∀ key ∈ p.groups.keys, key ∈ q.groups.keys → p.groups.find? key = q.groups.find? key) ∧
        ∀ key ∈ p.groups.keys, ∃ record, p.groups.find? key = some record ∧
          Left twap layout rows key last record
    | .error fault, .error fault' => fault = .arenaExhausted ∧ fault' = .arenaExhausted ∧
        2 ^ 40 ≤ (rows.filter (sees twap)).length
    | _, _ => False := by
  have hrows := drive_spec (Aggregate.adopt (.empty id reserve) twap) {} rows rfl wide
  have hkept := drive_spec (Aggregate.adopt (.empty id reserve) twap) {} kept rfl wide
  have hyields := foldlM_pushRow_yields (Aggregate.adopt (.empty id reserve) twap) rfl rfl wide
    (rows.filter (sees twap))
  -- both sequences push the same rows, to new records
  have hnew : recordOf layout {} = fun _ => layout.newRecord := rfl
  have hsees : ∀ rows : List (GroupKey × Row), (rows.filter fun row =>
      ((Aggregate.adopt (.empty id reserve) twap : Twap).observe row.2).isValid) =
        rows.filter (sees twap) := fun _ => rfl
  rw [foldlM_pushRow_filter, hnew, hsees] at hrows hkept
  rw [same] at hkept
  cases hrun : (rows.filter (sees twap)).foldlM pushRow
    (Aggregate.adopt (.empty id reserve) twap, fun _ => layout.newRecord) with
  | error fault =>
    rw [hrun] at hrows hkept hyields
    simp only [opening, hrows, hkept]
    refine ⟨hyields.1, hyields.1, ?_⟩
    have := hyields.2
    simp only [Handle.offsetSpan] at this
    omega
  | ok state =>
    rw [hrun] at hrows hkept hyields
    obtain ⟨groups, hdrive, hrecords, hkeys⟩ := hrows
    obtain ⟨groups', hdrive', hrecords', hkeys'⟩ := hkept
    simp only [opening, hdrive, hdrive']
    have hnone : ∀ key, key ∉ ({} : Groups SlotRecord).keys := fun key => List.not_mem_nil
    refine ⟨state.1, rfl, rfl, fun key => ?_, fun key => ?_, fun key hkey hkey' => ?_,
      fun key hkey => ⟨state.2 key, ?_, left_of_serves hyields fun hnot => ?_⟩⟩
    · rw [hkeys]
      exact or_iff_right (hnone key)
    · rw [hkeys']
      exact or_iff_right (hnone key)
    · rw [find?_of_mem_keys layout hkey, find?_of_mem_keys layout hkey', hrecords, hrecords']
    · rw [find?_of_mem_keys layout hkey, hrecords]
    · exact foldlM_pushRow_of_notMem hrun hnot

/-- Of two groups, one has no valid row and the other one is started by a row without a time. -/
theorem drive_skips_invalid_two :
    let table : Table := ⟨#[.floats #[1.5, 2.5], .timestamps #[Timestamp.null, 7]], 2, by
      simp [Column.size]⟩
    let twap : Twap := ⟨.column 0, .column 1, .empty ⟨1, by decide⟩ 0, none, 0⟩
    let layout : SlotLayout := ⟨#[.long, .long, .long]⟩
    let rows : List (GroupKey × Row) := [(some "A", table.row 0), (none, table.row 0),
      (some "A", table.row 1)]
    let kept : List (GroupKey × Row) := [(some "A", table.row 1)]
    ∃ p q last, (opening ⟨2, by decide⟩ 0 twap layout).drive rows = .ok p ∧
      (opening ⟨2, by decide⟩ 0 twap layout).drive kept = .ok q ∧
      p.aggregates = [last] ∧ q.aggregates = [last] ∧
      p.groups.find? (some "A") = q.groups.find? (some "A") ∧
      p.groups.find? none = some layout.newRecord ∧
      ∃ after, Aggregate.value layout.newRecord last = .ok missingValue after := by
  intro table twap layout rows kept
  have hnull : (twap.observe (table.row 0)).isValid = false := by decide +kernel
  have hvalid : (twap.observe (table.row 1)).isValid = true := by decide +kernel
  have hwide : twap.slotIndex + Buffer.slotCount ≤ layout.size := by decide
  have hsame : kept.filter (sees twap) = rows.filter (sees twap) := by
    simp [rows, kept, sees, hnull, hvalid]
  have hlength : (rows.filter (sees twap)).length = 1 := by simp [rows, sees, hnull, hvalid]
  have hskip := drive_skips_invalid ⟨2, by decide⟩ 0 twap hwide hsame
  split at hskip
  · obtain ⟨last, hp, hq, hpkeys, hqkeys, hrecord, hleft⟩ := hskip
    have hA := hrecord (some "A") ((hpkeys _).2 (by simp [rows])) ((hqkeys _).2 (by simp [kept]))
    obtain ⟨record, hfind, hnone⟩ := hleft none ((hpkeys _).2 (by simp [rows]))
    obtain ⟨rfl, hmissing⟩ := hnone.nothing (by simp [rows, sees, hnull])
    exact ⟨_, _, last, ‹_›, ‹_›, hp, hq, hA, hfind, hmissing⟩
  · rw [hlength] at hskip
    omega
  · exact hskip.elim

end Partial

end TimeWeighted
