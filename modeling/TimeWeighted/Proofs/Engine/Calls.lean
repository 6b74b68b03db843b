import Mathlib
import TimeWeighted.Aggregate.Recorder
import TimeWeighted.Proofs.Engine.Creation
import TimeWeighted.Proofs.Engine.Evolution
import TimeWeighted.Proofs.Engine.Frames

/-!
# Calls made to aggregates

A recorder writes down the calls that the engine makes to the aggregate inside, so its calls say
which rows it was handed.  Gathering hands over every row with one call to every instance, the
first row of a group with `Call.first` and its further rows with `Call.next`; merging and reading
hand over no rows.

* `Table.callsFrom` : the calls that hand over some rows.
* `Table.filter_callsFrom` : those that concern one group.
* `Partial.gather_adds` : **the calls that gathering makes to every instance.**
* `Query.gatherAll_handed` : the calls made to the instances of all workers.
-/

namespace TimeWeighted

/-! ### The calls that hand over rows -/

namespace Call

/-- The calls that hand over the rows of a group: the first one starts its record. -/
def ofGroup : List ℕ → List Call
  | [] => []
  | i :: rest => .first i :: rest.map .next

/-- Whether a call hands over a row of the group. -/
def concerns (table : Table) (groupBy : Option ℕ) (key : GroupKey) (call : Call) : Bool :=
  call.row?.any fun i => table.keyOf groupBy i = key

/-- The calls that merging makes. -/
def IsMerging (call : Call) : Prop :=
  call = .clear ∨ call = .merge

/-- The calls that reading makes. -/
def IsReading (call : Call) : Prop :=
  call = .clear ∨ call = .value

theorem IsMerging.row?_eq {call : Call} (h : call.IsMerging) : call.row? = none := by
  rcases h with rfl | rfl <;> rfl

theorem IsReading.row?_eq {call : Call} (h : call.IsReading) : call.row? = none := by
  rcases h with rfl | rfl <;> rfl

end Call

namespace Table

variable {table : Table} {groupBy : Option ℕ}

/-- The calls that hand over rows, one after the other, when some groups have been seen before. -/
def callsFrom (table : Table) (groupBy : Option ℕ) (seen : Finset GroupKey) : List ℕ → List Call
  | [] => []
  | i :: rest =>
    (if table.keyOf groupBy i ∈ seen then .next i else .first i) ::
      table.callsFrom groupBy (insert (table.keyOf groupBy i) seen) rest

theorem filterMap_callsFrom (seen : Finset GroupKey) (rows : List ℕ) :
    (table.callsFrom groupBy seen rows).filterMap Call.row? = rows := by
  induction rows generalizing seen with
  | nil => rfl
  | cons i rest ih =>
    rw [callsFrom, List.filterMap_cons, ih]
    split_ifs <;> rfl

theorem isSome_row?_of_mem_callsFrom {seen : Finset GroupKey} {rows : List ℕ} {call : Call}
    (h : call ∈ table.callsFrom groupBy seen rows) : call.row?.isSome := by
  induction rows generalizing seen with
  | nil => simp [callsFrom] at h
  | cons i rest ih =>
    rcases List.mem_cons.1 h with rfl | h
    · split_ifs <;> rfl
    · exact ih h

/-- Of the calls those that concern a group hand over its rows; the first one starts its record,
unless the group has been seen before. -/
theorem filter_callsFrom (seen : Finset GroupKey) (rows : List ℕ) (key : GroupKey) :
    (table.callsFrom groupBy seen rows).filter (Call.concerns table groupBy key) =
      if key ∈ seen then (rows.filter fun i => table.keyOf groupBy i = key).map .next
      else Call.ofGroup (rows.filter fun i => table.keyOf groupBy i = key) := by
  induction rows generalizing seen with
  | nil => simp [callsFrom, Call.ofGroup]
  | cons i rest ih =>
    rw [callsFrom, List.filter_cons, ih]
    by_cases hkey : table.keyOf groupBy i = key
    · subst hkey
      by_cases hseen : table.keyOf groupBy i ∈ seen <;>
        simp [hseen, Call.concerns, Call.row?, Call.ofGroup]
    · have hne : key ≠ table.keyOf groupBy i := Ne.symm hkey
      by_cases hseen : table.keyOf groupBy i ∈ seen <;>
        simp [hseen, hkey, hne, Call.concerns, Call.row?]

end Table

/-! ### What recorders write down -/

namespace Recorder

variable {φ : Type}

/-- `g` is `f` after the calls. -/
def Adds (calls : List Call) (f g : Recorder φ) : Prop :=
  g.calls.toList = f.calls.toList ++ calls

/-- `g` is `f` after calls that have some property. -/
def After (P : Call → Prop) (f g : Recorder φ) : Prop :=
  ∃ calls, (∀ call ∈ calls, P call) ∧ Adds calls f g

theorem Adds.trans {calls calls' : List Call} (f g k : Recorder φ) (h : Adds calls f g)
    (h' : Adds calls' g k) : Adds (calls ++ calls') f k := by
  rw [Adds, h', h, List.append_assoc]

theorem Adds.after {P : Call → Prop} {call : Call} (hcall : P call) {f g : Recorder φ}
    (h : Adds [call] f g) : After P f g :=
  ⟨[call], by simpa using hcall, h⟩

theorem After.refl {P : Call → Prop} (f : Recorder φ) : After P f f :=
  ⟨[], by simp, by simp [Adds]⟩

theorem After.trans {P : Call → Prop} (f g k : Recorder φ) (h : After P f g) (h' : After P g k) :
    After P f k := by
  obtain ⟨calls, hcalls, hadds⟩ := h
  obtain ⟨calls', hcalls', hadds'⟩ := h'
  exact ⟨calls ++ calls', List.forall_mem_append.2 ⟨hcalls, hcalls'⟩, hadds.trans f g k hadds'⟩

theorem passOn_relates (call : Call) (update : UpdateM φ Unit) :
    (passOn call update).Relates (Adds [call]) := by
  intro f record g record' hrun
  rw [UpdateM.apply_eq_ok, passOn] at hrun
  split at hrun
  · cases hrun
    simp [Adds]
  · exact absurd hrun (by simp)

theorem passOn_after {P : Call → Prop} {call : Call} (hcall : P call) (update : UpdateM φ Unit) :
    (passOn call update).Relates (After P) :=
  fun f record g record' h => (passOn_relates call update f record g record' h).after hcall

theorem value_adds [Aggregate φ] {record : SlotRecord} {f g : Recorder φ} {x : Float}
    (hrun : Aggregate.value record f = .ok x g) : Adds [.value] f g := by
  change Recorder.value record f = .ok x g at hrun
  rw [Recorder.value] at hrun
  split at hrun
  · cases hrun
    simp [Adds]
  · exact absurd hrun (by simp)

theorem calls_of_makes [Aggregate φ] {factory : Factory (Recorder φ)} {f : Recorder φ}
    (h : factory.Makes f) (hnew : ∀ supply, (factory.run supply).1.calls = #[]) :
    f.calls.toList = [.adopt] := by
  obtain ⟨supply, layout, arena, rfl⟩ := h
  have hcalls : (Aggregate.adopt arena (Aggregate.register layout (factory.run supply).1).1).calls =
      (factory.run supply).1.calls.push .adopt := rfl
  rw [hcalls, hnew]
  rfl

end Recorder

/-! ### Gathering -/

namespace Partial

variable {φ : Type} [Aggregate φ] {p q : Partial (Recorder φ)}

theorem gatherRow_adds {groupBy : Option ℕ} {row : Row} (hrun : gatherRow groupBy p row = .ok q) :
    List.Forall₂ (Recorder.Adds [if groupBy.bind row.symbol ∈ p.groups.keys then .next row.index
        else .first row.index]) p.aggregates q.aggregates ∧
      ∀ key, key ∈ q.groups.keys ↔ key = groupBy.bind row.symbol ∨ key ∈ p.groups.keys := by
  cases hfind : p.groups.find? (groupBy.bind row.symbol) with
  | some record =>
    rw [gatherRow_of_some hfind] at hrun
    obtain ⟨⟨gs, record'⟩, hall, hrun⟩ := exists_of_bind_ok hrun
    cases hrun
    refine ⟨?_, fun key => Groups.mem_keys_insert⟩
    rw [if_pos (Groups.mem_keys_of_find? hfind)]
    exact updateAll_relates (Recorder.passOn_relates _ _) hall
  | none =>
    rw [gatherRow_of_none hfind] at hrun
    obtain ⟨⟨gs, record'⟩, hall, hrun⟩ := exists_of_bind_ok hrun
    cases hrun
    refine ⟨?_, fun key => Groups.mem_keys_insert⟩
    rw [if_neg ((Groups.find?_eq_none_iff _ _).1 hfind)]
    exact updateAll_relates (Recorder.passOn_relates _ _) hall

/-- **The calls that gathering makes to every instance**: one for every row, in the order of the
rows. -/
theorem gather_adds {groupBy : Option ℕ} {table : Table} {rows : List ℕ} {seen : Finset GroupKey}
    (hseen : ∀ key, key ∈ seen ↔ key ∈ p.groups.keys)
    (hrun : p.gather groupBy table rows = .ok q) :
    List.Forall₂ (Recorder.Adds (table.callsFrom groupBy seen rows)) p.aggregates q.aggregates := by
  induction rows generalizing p seen with
  | nil =>
    cases hrun
    exact List.forall₂_same.2 fun f _ => by simp [Recorder.Adds, Table.callsFrom]
  | cons i rest ih =>
    obtain ⟨mid, hrow, hrun⟩ := exists_of_bind_ok hrun
    obtain ⟨hadds, hkeys⟩ := gatherRow_adds hrow
    have hseen' : ∀ key, key ∈ insert (table.keyOf groupBy i) seen ↔ key ∈ mid.groups.keys := by
      intro key
      rw [Finset.mem_insert, hseen, hkeys]
      rfl
    rw [Table.callsFrom]
    simp only [hseen]
    exact forall₂_trans (fun f g k => Recorder.Adds.trans f g k) hadds (ih hseen' hrun)

end Partial

end TimeWeighted
