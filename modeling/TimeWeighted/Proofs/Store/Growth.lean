import Mathlib
import TimeWeighted.Proofs.Buffer.Growth
import TimeWeighted.Proofs.Store.Memo

/-!
# The growth law

One aggregate with a new arena gathers rows for many records at once.  At every moment the size of
its arena is told by how many valid observations each record was given: the buffer of a record has
the least room that doubling can lead to, and the arena has no bytes but those of the buffers and of
the smaller ones that they have grown out of.

* `Store.Accumulation` : commands that give every record a first row and then further rows.
* `Store.gathered` : the valid observations that a record was given.
* `Store.allocated` : the bytes that the law allows.
* `Store.Accumulated` : what a store is like in the midst of an accumulation; `Accumulated.step`
  keeps it so.
* `Store.growth_law` : **counts, capacities and bytes after every command of an accumulation.**
-/

namespace TimeWeighted

namespace Store

/-! ### Accumulations -/

/-- A row may come after the commands `done`, to aggregate 0 and one of `n` records: it is a first
row if the record was not given one, else a further row. -/
inductive Command.Continues (n : ℕ) (done : List Command) : Command → Prop where
  /-- The first row of a record. -/
  | first {v : ℕ} {row : Row} (lt : v < n) (new : ∀ command ∈ done, command.record ≠ v) :
      Continues n done (.first 0 v row)
  /-- A further row of a record that has been given its first. -/
  | next {v : ℕ} {row : Row} (lt : v < n) (started : ∃ command ∈ done, command.record = v) :
      Continues n done (.next 0 v row)

/-- Commands that give rows to `n` records in any order, to each a first row once and then further
rows. -/
def Accumulation (n : ℕ) (commands : List Command) : Prop :=
  ∀ done command rest, commands = done ++ command :: rest → command.Continues n done

/-- The row that a command gives to its record, if any. -/
def Command.row? : Command → Option Row
  | .first _ _ row | .next _ _ row => some row
  | .merge .. | .clear .. | .value .. => none

/-- The valid observation that a command brings to the record `v`, if any. -/
def Command.brings (observe : Row → Observation) (v : ℕ) (command : Command) : List Observation :=
  if command.record = v then (command.row?.toList.map observe).filter Observation.isValid else []

/-- The valid observations that commands bring to the record `v`. -/
def gathered (observe : Row → Observation) (v : ℕ) (commands : List Command) : List Observation :=
  commands.flatMap (Command.brings observe v)

/-- The bytes of all buffers that `n` records have had: sixteen for every entry a buffer has room
for, and as many less sixteen entries for those that it has grown out of. -/
def allocated (observe : Row → Observation) (n : ℕ) (commands : List Command) : ℕ :=
  ∑ v ∈ Finset.range n with 1 ≤ (gathered observe v commands).length,
    16 * (2 * Shelf.roomFor (gathered observe v commands).length - 16)

variable {i n v : ℕ} {observe : Row → Observation} {command : Command} {row : Row}
  {commands done rest : List Command}

theorem Accumulation.left (h : Accumulation n (done ++ rest)) : Accumulation n done := by
  rintro before command after rfl
  exact h before command (after ++ rest) (by simp)

theorem accumulation_nil : Accumulation n [] := by
  intro done command rest h
  simp at h

theorem Accumulation.append (h : Accumulation n done) (hcommand : command.Continues n done) :
    Accumulation n (done ++ [command]) := by
  intro before last after heq
  rcases List.eq_nil_or_concat after with rfl | ⟨after, x, rfl⟩
  · obtain ⟨rfl, hlast⟩ := List.append_inj' heq rfl
    cases hlast
    exact hcommand
  · refine h before last after ?_
    rw [List.concat_eq_append, ← List.cons_append, ← List.append_assoc] at heq
    exact (List.append_inj' heq rfl).1

theorem gathered_append (observe : Row → Observation) (v : ℕ) (done : List Command)
    (command : Command) :
    gathered observe v (done ++ [command]) =
      gathered observe v done ++ command.brings observe v := by
  simp [gathered]

theorem Command.brings_of_row (h : command.row? = some row) (v : ℕ) :
    command.brings observe v =
      if command.record = v then [observe row].filter Observation.isValid else [] := by
  rw [brings, h]
  rfl

theorem Command.Continues.exists_row (h : command.Continues n done) :
    command.record < n ∧ ∃ row, command.row? = some row := by
  cases h with
  | first lt new => exact ⟨lt, _, rfl⟩
  | next lt started => exact ⟨lt, _, rfl⟩

theorem gathered_of_new (h : ∀ command ∈ done, command.record ≠ v) : gathered observe v done = [] :=
  List.flatMap_eq_nil_iff.2 fun command hmem => if_neg (h command hmem)

theorem allocated_eq_sum (observe : Row → Observation) (n : ℕ) (commands : List Command) :
    allocated observe n commands =
      ∑ v ∈ Finset.range n, (Shelf.ofList (gathered observe v commands)).spent := by
  rw [allocated, Finset.sum_filter]
  refine Finset.sum_congr rfl fun v _ => ?_
  by_cases hnil : gathered observe v commands = []
  · simp [hnil, Shelf.spent]
  · have hpos : 1 ≤ (gathered observe v commands).length := List.length_pos_iff.2 hnil
    rw [if_pos hpos, Shelf.spent_ofList hnil]

theorem allocated_mod (observe : Row → Observation) (n : ℕ) (commands : List Command) :
    allocated observe n commands % Arena.alignment = 0 := by
  rw [allocated_eq_sum, Finset.sum_nat_mod, Finset.sum_eq_zero fun v _ => Shelf.spent_mod _,
    Nat.zero_mod]

theorem ofList_gathered_append (hrow : command.row? = some row) :
    (fun v => Shelf.ofList (gathered observe v (done ++ [command]))) =
      Function.update (fun v => Shelf.ofList (gathered observe v done)) command.record
        ((Shelf.ofList (gathered observe command.record done)).push (observe row)) := by
  funext v
  rw [gathered_append, Command.brings_of_row hrow]
  by_cases hv : v = command.record
  · rw [if_pos hv.symm, hv, Function.update_self, Shelf.push_ofList]
  · rw [if_neg (Ne.symm hv), Function.update_of_ne hv, List.append_nil]

theorem allocated_append (hlt : command.record < n) (hrow : command.row? = some row) :
    allocated observe n (done ++ [command]) =
      Arena.grown (allocated observe n done)
        ((Shelf.ofList (gathered observe command.record done)).pushBytes (observe row)) := by
  have hspent := ((Shelf.grown_ofList (gathered observe command.record done)).push (observe row)).2
  have hsum := Shelf.sum_update (g := fun v => Shelf.ofList (gathered observe v done))
    (Finset.mem_range.2 hlt) hspent
  rw [← ofList_gathered_append hrow] at hsum
  rw [Arena.grown_of_aligned (allocated_mod ..), allocated_eq_sum, allocated_eq_sum, hsum]

theorem allocated_le_append (h : command.Continues n done) (observe : Row → Observation) :
    allocated observe n done ≤ allocated observe n (done ++ [command]) := by
  obtain ⟨hlt, row, hrow⟩ := h.exists_row
  rw [allocated_append hlt hrow]
  exact Arena.le_grown _ _

/-- One row allocates if it is the first valid one of its record or finds the buffer full. -/
theorem allocated_append_ne_iff (h : command.Continues n done) (observe : Row → Observation) :
    allocated observe n (done ++ [command]) ≠ allocated observe n done ↔
      command.brings observe command.record ≠ [] ∧
        ((gathered observe command.record done).length = 0 ∨
          (gathered observe command.record done).length =
            Shelf.roomFor (gathered observe command.record done).length) := by
  obtain ⟨hlt, row, hrow⟩ := h.exists_row
  rw [allocated_append hlt hrow, Arena.grown_of_aligned (allocated_mod ..),
    Command.brings_of_row hrow, if_pos rfl, Ne, Nat.add_eq_left, ← Ne,
    Shelf.pushBytes_ofList_ne_zero]
  simp

/-! ### The midst of an accumulation -/

/-- A store after the commands `done` of an accumulation: its only aggregate keeps a buffer for each
of `n` records, and the slots of those that were given rows, from `i` on, spell them. -/
structure Accumulated (observe : Row → Observation) (i n : ℕ) (done : List Command)
    (store : Store Twap) (twap : Twap) (buffer : ℕ → Buffer) : Prop where
  /-- There is one aggregate. -/
  aggregates_eq : store.aggregates = #[twap]
  /-- The number of records. -/
  size_records : store.records.size = n
  /-- The aggregate has its slots from `i` on. -/
  slotIndex_eq : twap.slotIndex = i
  /-- It reads what the law says. -/
  observe_eq : twap.observe = observe
  /-- It keeps what the records have gathered. -/
  keeps : twap.Keeps buffer fun v => Shelf.ofList (gathered observe v done)
  /-- It has allocated what the law says. -/
  size_eq : twap.arena.size = allocated observe n done
  /-- All records have the slots. -/
  wide : ∀ (v : ℕ) (record : SlotRecord), store.records[v]? = some record →
    i + Buffer.slotCount ≤ record.size
  /-- The slots spell the buffers, once a record was given a row. -/
  inSlots : ∀ (v : ℕ) (record : SlotRecord), store.records[v]? = some record →
    (∃ command ∈ done, command.record = v) → (buffer v).InSlots record i

/-- Commands go through and leave a store in the midst of an accumulation, or the law asks for more
bytes than there are offsets. -/
def Abides {α : Type} (observe : Row → Observation) (i n : ℕ) (done : List Command) (answer : α)
    (outcome : EStateM.Result Fault (Store Twap) α) : Prop :=
  (∃ store twap buffer, outcome = .ok answer store ∧
    Accumulated observe i n done store twap buffer) ∨
  ((∃ after, outcome = .error .arenaExhausted after) ∧
    Handle.offsetSpan ≤ allocated observe n done)

variable {store : Store Twap} {twap twap' : Twap} {buffer : ℕ → Buffer} {record : SlotRecord}
  {b : Buffer}

theorem Accumulated.put (h : Accumulated observe i n done store twap buffer)
    (hv : store.records[command.record]? = some record) (hrow : command.row? = some row)
    (hup : twap.Updated buffer (fun v => Shelf.ofList (gathered observe v done)) command.record b
      ((Shelf.ofList (gathered observe command.record done)).push (observe row))
      ((Shelf.ofList (gathered observe command.record done)).pushBytes (observe row)) twap') :
    Accumulated observe i n (done ++ [command])
      (store.put 0 command.record twap' (record.withBuffer i b)) twap'
      (Function.update buffer command.record b) := by
  have hlt : command.record < n := h.size_records ▸ (Array.getElem?_eq_some_iff.1 hv).1
  refine ⟨?_, ?_, hup.slotIndex_eq.trans h.slotIndex_eq, hup.observe_eq.trans h.observe_eq, ?_, ?_,
    ?_, ?_⟩
  · simp [Store.put, h.aggregates_eq]
  · simpa [Store.put] using h.size_records
  · rw [ofList_gathered_append hrow]
    exact hup.keeps
  · rw [allocated_append hlt hrow, ← h.size_eq, hup.size_eq]
  · intro w r hr
    rw [records_put hv, Function.update_apply] at hr
    split_ifs at hr with hw
    · obtain rfl := Option.some.inj hr
      rw [SlotRecord.size_withBuffer]
      exact h.wide _ record hv
    · exact h.wide w r hr
  · intro w r hr hstarted
    rw [records_put hv, Function.update_apply] at hr
    split_ifs at hr with hw
    · obtain rfl := Option.some.inj hr
      rw [hw, Function.update_self]
      exact Buffer.inSlots_withBuffer b (h.wide _ record hv)
    · -- the other records were given their rows before
      rw [Function.update_of_ne hw]
      refine h.inSlots w r hr ?_
      obtain ⟨c, hc, rfl⟩ := hstarted
      rcases List.mem_append.1 hc with hc | hc
      · exact ⟨c, hc, rfl⟩
      · rw [List.mem_singleton.1 hc] at hw
        exact absurd rfl hw

/-- A command abides by the law if the update of its record does what its shelf says. -/
theorem Accumulated.update (h : Accumulated observe i n done store twap buffer)
    (hv : store.records[command.record]? = some record) (hrow : command.row? = some row)
    {update : UpdateM Twap Unit}
    (hstep : Store.step command = do Store.update 0 command.record update; return none)
    (change : twap.Change (buffer command.record)
      ((Shelf.ofList (gathered observe command.record done)).push (observe row))
      ((Shelf.ofList (gathered observe command.record done)).pushBytes (observe row)) record
      (update (twap, record))) :
    Abides observe i n (done ++ [command]) none (Store.step command store) := by
  have hlt : command.record < n := h.size_records ▸ (Array.getElem?_eq_some_iff.1 hv).1
  have hf : store.aggregates[0]? = some twap := by rw [h.aggregates_eq]; rfl
  rw [hstep]
  cases change.attempt h.keeps with
  | done hrun hup =>
    rw [h.slotIndex_eq] at hrun
    exact .inl ⟨_, _, _, by rw [bind_of_ok (update_of_ok hf hv hrun), pure_apply],
      h.put hv hrow hup⟩
  | full hrun hfull =>
    refine .inr ⟨⟨_, bind_of_error (update_of_error hf hv hrun)⟩, ?_⟩
    rwa [allocated_append hlt hrow, ← h.size_eq]

/-- **One row abides by the law.** -/
theorem Accumulated.step (h : Accumulated observe i n done store twap buffer)
    (hcommand : command.Continues n done) :
    Abides observe i n (done ++ [command]) none (Store.step command store) := by
  obtain rfl := h.size_records
  obtain rfl := h.observe_eq
  obtain ⟨record, hv⟩ : ∃ record, store.records[command.record]? = some record :=
    ⟨_, Array.getElem?_eq_getElem hcommand.exists_row.1⟩
  cases hcommand with
  | @first v row lt new =>
    have hnil : gathered twap.observe v done = [] := gathered_of_new new
    have hwide := h.wide v _ hv
    rw [← h.slotIndex_eq] at hwide
    have hchange := Twap.change_start (buffer v) hwide (twap.observe row)
    rw [← Shelf.push_empty, ← Shelf.pushBytes_empty, ← Shelf.ofList_nil, ← hnil] at hchange
    exact h.update hv rfl rfl hchange
  | @next v row lt started =>
    have hslots := h.inSlots v _ hv started
    rw [← h.slotIndex_eq] at hslots
    exact h.update hv rfl rfl (Twap.change_append (h.keeps.holds v) hslots (twap.observe row))

theorem Accumulated.spells (h : Accumulated observe i n done store twap buffer)
    (hv : store.records[v]? = some record) (hstarted : ∃ command ∈ done, command.record = v) :
    ∃ b : Buffer, b.InSlots record i ∧ Buffer.load record i = .ok b ∧
      ((gathered observe v done).length = 0 → b = .empty) ∧
      (1 ≤ (gathered observe v done).length → b.start.isSome ∧
        b.count = (gathered observe v done).length ∧
        b.capacity = Shelf.roomFor (gathered observe v done).length) := by
  have hslots := h.inSlots v record hv hstarted
  have hholds := h.keeps.holds v
  refine ⟨buffer v, hslots, hslots.load hholds.storable, fun hzero => ?_, fun hpos => ?_⟩
  · exact (hholds.empty_of_nil (List.length_eq_zero_iff.1 hzero)).1
  · have hne : gathered observe v done ≠ [] := List.length_pos_iff.1 hpos
    obtain ⟨p, hstored⟩ := hholds.stored hne
    refine ⟨by rw [hstored.start_eq]; rfl, hstored.length_eq.symm, ?_⟩
    rw [hstored.capacity_eq, Shelf.capacity_ofList hne]

theorem Accumulated.size_step (h : Accumulated observe i n done store twap buffer)
    (hcommand : command.Continues n done) {answer : Option Float} {after : Store Twap}
    (hstep : Store.step command store = .ok answer after) :
    ∃ twap', after.aggregates = #[twap'] ∧
      (twap'.arena.size ≠ twap.arena.size ↔ command.brings observe command.record ≠ [] ∧
        ((gathered observe command.record done).length = 0 ∨
          (gathered observe command.record done).length =
            Shelf.roomFor (gathered observe command.record done).length)) := by
  rcases h.step hcommand with ⟨store', twap', buffer', hok, hnext⟩ | ⟨⟨state, herror⟩, -⟩
  · cases hstep.symm.trans hok
    refine ⟨twap', hnext.aggregates_eq, ?_⟩
    rw [hnext.size_eq, h.size_eq]
    exact allocated_append_ne_iff hcommand observe
  · cases hstep.symm.trans herror

/-! ### Whole accumulations -/

/-- A store before an accumulation: one aggregate with a new arena, and records with anything in
their slots. -/
def unused (id : ArenaId) (reserve : ℕ) (twap : Twap) (records : Array SlotRecord) :
    Store Twap where
  aggregates := #[Aggregate.adopt (.empty id reserve) twap]
  records := records

theorem accumulated_unused (id : ArenaId) (reserve : ℕ) (twap : Twap) {records : Array SlotRecord}
    (wide : ∀ record ∈ records, twap.slotIndex + Buffer.slotCount ≤ record.size) :
    Accumulated twap.observe twap.slotIndex records.size [] (unused id reserve twap records)
      (Aggregate.adopt (.empty id reserve) twap) fun _ => .empty := by
  refine ⟨rfl, rfl, rfl, rfl, Twap.keeps_empty rfl, ?_, ?_, ?_⟩
  · rw [allocated_eq_sum]
    exact (Finset.sum_eq_zero fun v _ => rfl).symm
  · exact fun v record hv => wide record (Array.mem_of_getElem? hv)
  · rintro v record - ⟨command, hmem, -⟩
    simp at hmem

/-- **A run abides by the law.** -/
theorem Accumulated.run (h : Accumulated observe i n [] store twap buffer)
    (hdone : Accumulation n done) : Abides observe i n done [] (Store.run done store) := by
  induction done using List.reverseRecOn with
  | nil => exact .inl ⟨store, twap, buffer, rfl, h⟩
  | append_singleton done command ih =>
    have hcommand : command.Continues n done := hdone done command [] rfl
    rcases ih hdone.left with ⟨reached, twap₁, buffer₁, hrun, hmid⟩ | ⟨⟨after, hrun⟩, hfull⟩
    · rcases hmid.step hcommand with ⟨last, twap₂, buffer₂, hstep, hlast⟩ | ⟨⟨after, hstep⟩, hfull⟩
      · exact .inl ⟨last, twap₂, buffer₂, run_append_singleton hrun hstep, hlast⟩
      · refine .inr ⟨⟨after, ?_⟩, hfull⟩
        rw [run_append, bind_of_ok hrun, Store.run, bind_assoc, bind_of_error hstep]
    · refine .inr ⟨⟨after, ?_⟩, hfull.trans (allocated_le_append hcommand observe)⟩
      rw [run_append, bind_of_error hrun]

/-- **The growth law.**  One aggregate with a new arena gathers rows for records, in which there may
be anything at first; each is given a first row once and then further rows, in any order.  After
every command, unless more bytes were asked for than there are offsets, each record that was given a
row spells a buffer with as many entries as it was given valid observations and with the least room,
sixteen times a power of two, in which they fit, or three zeros if there are none; and the arena has
as many bytes as all these buffers and the smaller ones that they have grown out of.  So only the
first valid observation of a record allocates, and one that finds the buffer of its record full. -/
theorem growth_law (id : ArenaId) (reserve : ℕ) (twap : Twap) {records : Array SlotRecord}
    (wide : ∀ record ∈ records, twap.slotIndex + Buffer.slotCount ≤ record.size)
    (accumulation : Accumulation records.size commands) :
    (∀ n, IsLeast {c | (∃ k, c = 16 * 2 ^ k) ∧ n ≤ c} (Shelf.roomFor n)) ∧
    ∀ done rest, commands = done ++ rest →
      (Handle.offsetSpan ≤ allocated twap.observe records.size done ∧
        ∃ after, Store.run done (unused id reserve twap records) =
          .error .arenaExhausted after) ∨
      ∃ store twap', Store.run done (unused id reserve twap records) = .ok [] store ∧
        store.aggregates = #[twap'] ∧ store.records.size = records.size ∧
        twap'.arena.size = allocated twap.observe records.size done ∧
        (∀ (v : ℕ) (record : SlotRecord), store.records[v]? = some record →
          (∃ command ∈ done, command.record = v) →
          let n := (gathered twap.observe v done).length
          ∃ b : Buffer, b.InSlots record twap.slotIndex ∧
            Buffer.load record twap.slotIndex = .ok b ∧ (n = 0 → b = .empty) ∧
            (1 ≤ n → b.start.isSome ∧ b.count = n ∧ b.capacity = Shelf.roomFor n)) ∧
        ∀ command more answer after, rest = command :: more →
          Store.step command store = .ok answer after →
          let n := (gathered twap.observe command.record done).length
          ∃ twap'', after.aggregates = #[twap''] ∧
            (twap''.arena.size ≠ twap'.arena.size ↔
              command.brings twap.observe command.record ≠ [] ∧
                (n = 0 ∨ n = Shelf.roomFor n)) := by
  refine ⟨Shelf.isLeast_roomFor, ?_⟩
  rintro done rest rfl
  rcases (accumulated_unused id reserve twap wide).run accumulation.left with
    ⟨store, twap', buffer, hrun, hmid⟩ | ⟨hfaults, hfull⟩
  · refine .inr ⟨store, twap', hrun, hmid.aggregates_eq, hmid.size_records, hmid.size_eq,
      fun v record hv => hmid.spells hv, ?_⟩
    rintro command more answer after rfl
    exact hmid.size_step (accumulation done command more rfl)
  · exact .inl ⟨hfull, hfaults⟩

/-- Two records, in which there was something else before, are given rows in turn, and the first row
of one of them is not valid: each has taken its initial room, sixteen entries of sixteen bytes. -/
theorem growth_law_interleaved :
    let table : Table :=
      ⟨#[.floats #[5, 6], .timestamps #[Timestamp.null, 3]], 2, by simp [Column.size]⟩
    let twap : Twap := ⟨.column 0, .column 1, .empty ⟨1, by decide⟩ 0, none, 0⟩
    let records : Array SlotRecord := #[⟨#[7, 8, 9]⟩, ⟨#[1, 2, 3]⟩]
    let commands : List Command := [.first 0 1 (table.row 0), .first 0 0 (table.row 1),
      .next 0 1 (table.row 1), .next 0 0 (table.row 1)]
    ∃ store twap', Store.run commands (unused ⟨2, by decide⟩ 0 twap records) = .ok [] store ∧
      store.aggregates = #[twap'] ∧ twap'.arena.size = 512 ∧
      ∀ record, store.records[0]? = some record →
        ∃ b : Buffer, Buffer.load record 0 = .ok b ∧ b.count = 2 ∧ b.capacity = 16 := by
  intro table twap records commands
  have hwide : ∀ record ∈ records, twap.slotIndex + Buffer.slotCount ≤ record.size := by decide
  have hone : Accumulation 2 ([] ++ [Command.first 0 1 (table.row 0)]) :=
    accumulation_nil.append (.first (by decide) (by simp))
  have htwo : Accumulation 2 (_ ++ [Command.first 0 0 (table.row 1)]) :=
    hone.append (.first (by decide) (by simp [Command.record]))
  have hthree : Accumulation 2 (_ ++ [Command.next 0 1 (table.row 1)]) :=
    htwo.append (.next (by decide) ⟨.first 0 1 (table.row 0), by simp, rfl⟩)
  have hstarted : ∃ command ∈ commands, command.record = 0 :=
    ⟨.first 0 0 (table.row 1), by simp [commands], rfl⟩
  have haccumulation : Accumulation records.size commands :=
    hthree.append (.next (by decide) ⟨.first 0 0 (table.row 1), by simp, rfl⟩)
  have hallocated : allocated twap.observe records.size commands = 512 := by decide +kernel
  have hgathered : (gathered twap.observe 0 commands).length = 2 := by decide +kernel
  have hlaw := (growth_law ⟨2, by decide⟩ 0 twap hwide haccumulation).2 commands []
    (List.append_nil _).symm
  rcases hlaw with ⟨hfull, -⟩ | ⟨store, twap', hrun, haggregates, -, hsize, hspells, -⟩
  · rw [hallocated] at hfull
    exact absurd hfull (by decide)
  · refine ⟨store, twap', hrun, haggregates, hsize.trans hallocated, fun record hrecord => ?_⟩
    obtain ⟨b, -, hload, -, hcount⟩ := hspells 0 record hrecord hstarted
    rw [hgathered] at hcount
    obtain ⟨-, hcount, hcapacity⟩ := hcount (by decide)
    exact ⟨b, hload, hcount, hcapacity.trans (by decide)⟩

end Store

end TimeWeighted
