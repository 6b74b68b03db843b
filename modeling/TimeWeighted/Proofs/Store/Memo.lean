import Mathlib
import TimeWeighted.Proofs.Store.Refinement

/-!
# What is remembered is never seen

An aggregate remembers the value it computed last and answers from memory while the place and the
count of the buffer stay the same; no other change makes it forget.  This is enough: bytes that were
handed out are never handed out again, and bytes below a count are never written again, so the same
place and the same count are always the same entries.

* `Store.recompute` : the value of a record, worked out from its entries.
* `Store.forget` : the store without what its aggregates remember.
* `Store.Represents.run_of_ok` : a run without faults did what the ledger says.
* `Store.value_recomputed` : **every answer is the one that would have been computed afresh**, and
  no requests for other values change it.
-/

namespace TimeWeighted

namespace Store

/-- The value of a record, worked out from its entries; a record without any has none. -/
def recompute (store : Store Twap) (f v : ℕ) : Except Fault Float :=
  match store.aggregates[f]?, store.records[v]? with
  | some twap, some record => do
    let buffer ← Buffer.load record twap.slotIndex
    if buffer.count = 0 then
      return missingValue
    return Observation.average (← buffer.entries twap.arena)
  | _, _ => throw .outOfBounds

/-- The store without what its aggregates remember. -/
def forget (store : Store Twap) : Store Twap where
  aggregates := store.aggregates.map fun twap => { twap with memo := none }
  records := store.records

/-- Whether a value is asked for. -/
def Command.isValue : Command → Bool
  | .value _ _ => true
  | .first .. | .next .. | .merge .. | .clear .. => false

/-- What is to be merged is a buffer in an arena, spelled by the slots from `i` on. -/
def Command.WellFormed (i : ℕ) : Command → Prop
  | .merge _ _ other source => ∃ (b : Buffer) (t : Shelf), b.InSlots other i ∧ b.Holds source t
  | .first .. | .next .. | .clear .. | .value .. => True

/-- The task of a command to an aggregate with slots from `i` on: what is to be merged is read from
the arena it lies in. -/
def Command.task (i : ℕ) (command : Command) : Task where
  command := command
  incoming := match command with
    | .merge _ _ other source =>
      (Buffer.load other i >>= fun b => b.entries source).toOption.getD []
    | .first .. | .next .. | .clear .. | .value .. => []

/-- An aggregate that was given a new arena, and new records. -/
def opening (id : ArenaId) (reserve : ℕ) (twap : Twap) (layouts : List SlotLayout) :
    Store Twap where
  aggregates := #[Aggregate.adopt (.empty id reserve) twap]
  records := (layouts.map SlotLayout.newRecord).toArray

variable {base m n i f v : ℕ} {store store' : Store Twap} {ledger : Ledger} {twap : Twap}
  {record : SlotRecord} {command : Command} {commands before after : List Command}
  {answers : List Float}

/-! ### Tasks -/

theorem map_task (i : ℕ) (commands : List Command) :
    (commands.map (Command.task i)).map (·.command) = commands := by
  simp [Command.task, Function.comp_def]

theorem Command.WellFormed.carries (h : command.WellFormed i) (hf : command.aggregate < 1) :
    Carries i (command.task i) := by
  rintro f v other source ⟨rfl⟩
  obtain ⟨b, t, hin, hholds⟩ := h
  obtain rfl : f = 0 := Nat.lt_one_iff.1 hf
  refine ⟨b, t, hin, hholds, ?_⟩
  simp only [Command.task, hin.load hholds.storable, ok_bind, Buffer.entries_of_holds hholds]
  rfl

theorem ledger_run_filter (ledger : Ledger) (commands : List Command) :
    ledger.run ((commands.filter (!·.isValue)).map (Command.task i)) =
      ledger.run (commands.map (Command.task i)) := by
  induction commands generalizing ledger with
  | nil => rfl
  | cons command rest ih =>
    cases command with
    | value f v => exact ih ledger
    | first f v row => exact ih _
    | next f v row => exact ih _
    | merge f v other source => exact ih _
    | clear f v => exact ih _

/-! ### Runs without faults -/

theorem run_cons_of_ok (h : Store.run (command :: commands) store = .ok answers store') :
    ∃ answer reached rest, Store.step command store = .ok answer reached ∧
      Store.run commands reached = .ok rest store' ∧ answers = answer.toList ++ rest := by
  rw [Store.run] at h
  obtain ⟨answer, reached, hstep, h⟩ := exists_of_run_bind_ok h
  obtain ⟨rest, last, hrest, h⟩ := exists_of_run_bind_ok h
  cases h
  exact ⟨answer, reached, rest, hstep, hrest, rfl⟩

theorem run_append (before after : List Command) :
    (Store.run (before ++ after) : EStateM Fault (Store Twap) (List Float)) = do
      let earlier ← Store.run before
      let later ← Store.run after
      return earlier ++ later := by
  induction before with
  | nil => simp [Store.run]
  | cons command rest ih =>
    simp only [List.cons_append, Store.run, ih, bind_assoc, pure_bind, List.append_assoc]

theorem run_append_of_ok (h : Store.run (before ++ after) store = .ok answers store') :
    ∃ earlier reached later, Store.run before store = .ok earlier reached ∧
      Store.run after reached = .ok later store' ∧ answers = earlier ++ later := by
  rw [run_append] at h
  obtain ⟨earlier, reached, hbefore, h⟩ := exists_of_run_bind_ok h
  obtain ⟨later, last, hafter, h⟩ := exists_of_run_bind_ok h
  cases h
  exact ⟨earlier, reached, later, hbefore, hafter, rfl⟩

theorem run_append_singleton {reached : Store Twap} {answer : Option Float}
    (h : Store.run before store = .ok answers reached)
    (hstep : Store.step command reached = .ok answer store') :
    Store.run (before ++ [command]) store = .ok (answers ++ answer.toList) store' := by
  rw [run_append, bind_of_ok h, Store.run, bind_assoc, bind_of_ok hstep, Store.run, pure_bind,
    pure_bind, pure_apply, List.append_nil]

/-- **A run without faults did what the ledger says**, and all its commands regard aggregates and
records that are there. -/
theorem Represents.run_of_ok (h : Represents i 1 n store ledger)
    (sound : ∀ command ∈ commands, command.WellFormed i)
    (hrun : Store.run commands store = .ok answers store') :
    (∀ command ∈ commands, command.aggregate < 1 ∧ command.record < n) ∧
      Represents i 1 n store' (ledger.run (commands.map (Command.task i))) := by
  induction commands generalizing store ledger answers with
  | nil =>
    cases hrun
    exact ⟨nofun, h⟩
  | cons command rest ih =>
    obtain ⟨answer, reached, more, hstep, hmore, -⟩ := run_cons_of_ok hrun
    rw [List.forall_mem_cons] at sound
    have hbounds := bounds_of_ok hstep
    rw [h.size_aggregates, h.size_records] at hbounds
    have hreached : Represents i 1 n reached (ledger.step (command.task i)) :=
      h.of_ok hstep (sound.1.carries hbounds.1)
    obtain ⟨hrest, hlast⟩ := ih hreached sound.2 hmore
    exact ⟨List.forall_mem_cons.2 ⟨hbounds, hrest⟩, hlast⟩

/-- Commands that regard aggregates and records that are there have a run without faults, as long as
the arena is large enough for what they lead to. -/
theorem Represents.run_of_fits (h : Represents i 1 n store ledger)
    (sound : ∀ command ∈ commands, command.WellFormed i)
    (bounds : ∀ command ∈ commands, command.aggregate < 1 ∧ command.record < n)
    (fits : (ledger.run (commands.map (Command.task i))).used 0 < Handle.offsetSpan) :
    ∃ answers reached, Store.run commands store = .ok answers reached ∧
      Represents i 1 n reached (ledger.run (commands.map (Command.task i))) := by
  obtain ⟨reached, hrun, hreached⟩ := h.run_of_carries (List.forall_mem_map.2 bounds)
    (List.forall_mem_map.2 fun command hmem => (sound command hmem).carries (bounds command hmem).1)
    (by
      intro f hf
      rwa [Nat.lt_one_iff.1 hf])
  rw [map_task] at hrun
  exact ⟨_, reached, hrun, hreached⟩

/-! ### Values -/

theorem Represents.answer (h : Represents base m n store ledger) (hf : f < m) (hv : v < n) :
    store.recompute f v = .ok (Observation.average (ledger.shelf f v).entries) ∧
      ∃ store', Store.value f v store =
        .ok (Observation.average (ledger.shelf f v).entries) store' := by
  obtain ⟨twap, hf⟩ := h.exists_aggregate hf
  obtain ⟨record, hv⟩ := h.exists_record hv
  obtain ⟨buffer, hkeeps, hslots⟩ := h.keeps f twap hf
  have hholds := hkeeps.holds v
  obtain ⟨store', hvalue, -⟩ := h.value_apply hf hv
  refine ⟨?_, store', hvalue⟩
  simp only [recompute, hf, hv, (hslots v record hv).load hholds.storable, ok_bind,
    Buffer.entries_of_holds hholds]
  split_ifs with hzero
  · rw [hholds.entries_eq_nil_iff.2 hzero]
    rfl
  · rfl

theorem step_value {x : Float} (h : Store.value f v store = .ok x store') :
    Store.step (.value f v) store = .ok (some x) store' := by
  rw [Store.step, bind_of_ok h, pure_apply]

theorem Represents.forget (h : Represents base m n store ledger) :
    Represents base m n store.forget ledger := by
  have hsome : ∀ (f : ℕ) (twap : Twap), store.forget.aggregates[f]? = some twap →
      ∃ old : Twap, store.aggregates[f]? = some old ∧ twap = { old with memo := none } := by
    intro f twap hf
    rw [Store.forget, Array.getElem?_map, Option.map_eq_some_iff] at hf
    obtain ⟨old, hold, rfl⟩ := hf
    exact ⟨old, hold, rfl⟩
  refine ⟨?_, h.size_records, ?_, ?_, ?_, ?_⟩
  · rw [← h.size_aggregates]
    exact Array.size_map
  · intro f twap hf
    obtain ⟨old, hold, rfl⟩ := hsome f twap hf
    exact h.slotIndex_eq f old hold
  · intro f twap hf
    obtain ⟨old, hold, rfl⟩ := hsome f twap hf
    exact h.observe_eq f old hold
  · intro f twap hf
    obtain ⟨old, hold, rfl⟩ := hsome f twap hf
    exact h.used_eq f old hold
  · intro f twap hf
    obtain ⟨old, hold, rfl⟩ := hsome f twap hf
    obtain ⟨buffer, hkeeps, hslots⟩ := h.keeps f old hold
    exact ⟨buffer, hkeeps.forget, hslots⟩

/-- The same changes, with other requests for values among them, lead to the same ledger. -/
theorem Represents.run_of_same (h : Represents i 1 n store ledger)
    (sound : ∀ command ∈ before, command.WellFormed i)
    (bounds : ∀ command ∈ before, command.aggregate < 1 ∧ command.record < n)
    (fits : (ledger.run (before.map (Command.task i))).used 0 < Handle.offsetSpan)
    {before' : List Command}
    (same : before'.filter (!·.isValue) = before.filter (!·.isValue))
    (values : ∀ g w, .value g w ∈ before' → g < 1 ∧ w < n) :
    ∃ answers reached, Store.run before' store = .ok answers reached ∧
      Represents i 1 n reached (ledger.run (before.map (Command.task i))) := by
  have hledger : ledger.run (before'.map (Command.task i)) =
      ledger.run (before.map (Command.task i)) := by
    rw [← ledger_run_filter, same, ledger_run_filter]
  -- a command that asks for no value is one of those before
  have hcommand : ∀ command ∈ before', (command.aggregate < 1 ∧ command.record < n) ∧
      command.WellFormed i := by
    intro command hmem
    cases hkind : command.isValue with
    | false =>
      have hbefore : command ∈ before := by
        refine List.mem_of_mem_filter (p := fun c => !c.isValue) ?_
        rw [← same, List.mem_filter, hkind]
        exact ⟨hmem, rfl⟩
      exact ⟨bounds command hbefore, sound command hbefore⟩
    | true =>
      cases command with
      | value g w => exact ⟨values g w hmem, trivial⟩
      | _ => cases hkind
  rw [← hledger] at fits ⊢
  exact h.run_of_fits (fun command hmem => (hcommand command hmem).2)
    (fun command hmem => (hcommand command hmem).1) fits

theorem represents_opening (id : ArenaId) (reserve : ℕ) (twap : Twap) {layouts : List SlotLayout}
    (wide : ∀ layout ∈ layouts, twap.slotIndex + Buffer.slotCount ≤ layout.size) :
    Represents twap.slotIndex 1 layouts.length (opening id reserve twap layouts)
      (.opening [Aggregate.adopt (.empty id reserve) twap]) := by
  have hsome : ∀ f x, (opening id reserve twap layouts).aggregates[f]? = some x →
      f = 0 ∧ x = Aggregate.adopt (.empty id reserve) twap := by
    intro f x hx
    obtain ⟨hlt, rfl⟩ := Array.getElem?_eq_some_iff.1 hx
    obtain rfl : f = 0 := Nat.lt_one_iff.1 hlt
    exact ⟨rfl, rfl⟩
  refine ⟨rfl, by simp [opening], ?_, ?_, ?_, ?_⟩
  · intro f x hx
    obtain ⟨rfl, rfl⟩ := hsome f x hx
    rfl
  · intro f x hx
    obtain ⟨rfl, rfl⟩ := hsome f x hx
    rfl
  · intro f x hx
    obtain ⟨rfl, rfl⟩ := hsome f x hx
    rfl
  · intro f x hx
    obtain ⟨rfl, rfl⟩ := hsome f x hx
    refine ⟨_, Twap.keeps_empty rfl, ?_⟩
    intro v record hrecord
    rw [opening, List.getElem?_toArray, List.getElem?_map, Option.map_eq_some_iff] at hrecord
    obtain ⟨layout, hlayout, rfl⟩ := hrecord
    exact Buffer.empty_inSlots_newRecord (wide layout (List.mem_of_getElem? hlayout))

/-- **Every answer is the one that would have been computed afresh.**  In any run without faults on
new records, with a new arena, a request for a value is answered with what is worked out from the
entries that the record has then, and with what the aggregate would answer if it remembered nothing;
with the same commands before it, but for requests for values, the answer is the same. -/
theorem value_recomputed (id : ArenaId) (reserve : ℕ) (twap : Twap) {layouts : List SlotLayout}
    (wide : ∀ layout ∈ layouts, twap.slotIndex + Buffer.slotCount ≤ layout.size)
    (sound : ∀ command ∈ before ++ .value f v :: after, command.WellFormed twap.slotIndex)
    (hrun : Store.run (before ++ .value f v :: after) (opening id reserve twap layouts) =
      .ok answers store') :
    ∃ earlier reached x later,
      Store.run before (opening id reserve twap layouts) = .ok earlier reached ∧
      answers = earlier ++ x :: later ∧ reached.recompute f v = .ok x ∧
      (∃ last, Store.value f v reached.forget = .ok x last) ∧
      ∀ before', before'.filter (!·.isValue) = before.filter (!·.isValue) →
        (∀ g w, .value g w ∈ before' → g < 1 ∧ w < layouts.length) →
        ∃ earlier' last, Store.run (before' ++ [.value f v]) (opening id reserve twap layouts) =
          .ok (earlier' ++ [x]) last := by
  have hopening := represents_opening id reserve twap wide
  obtain ⟨earlier, reached, later, hbefore, hlater, rfl⟩ := run_append_of_ok hrun
  obtain ⟨answer, next, rest, hstep, -, rfl⟩ := run_cons_of_ok hlater
  have hsound : ∀ command ∈ before, command.WellFormed twap.slotIndex := fun command hcommand =>
    sound command (List.mem_append_left _ hcommand)
  obtain ⟨hbounds, hreached⟩ := hopening.run_of_ok hsound hbefore
  obtain ⟨hf, hv⟩ := bounds_of_ok hstep
  rw [hreached.size_aggregates] at hf
  rw [hreached.size_records] at hv
  obtain ⟨hrecompute, last, hvalue⟩ := hreached.answer hf hv
  obtain ⟨rfl, rfl⟩ := EStateM.Result.ok.inj ((step_value hvalue).symm.trans hstep)
  refine ⟨earlier, reached, _, rest, hbefore, rfl, hrecompute, (hreached.forget.answer hf hv).2, ?_⟩
  intro before' same values
  -- the first run has left an arena with these bytes, so there is room for a second one
  obtain ⟨earlier', reached', hrun', hreached'⟩ :=
    hopening.run_of_same hsound hbounds (hreached.used_lt Nat.one_pos) same values
  obtain ⟨-, last', hvalue'⟩ := hreached'.answer hf hv
  exact ⟨earlier', last', run_append_singleton hrun' (step_value hvalue')⟩

/-- Two records, the first of which is asked for its value before and after it grows. -/
theorem value_recomputed_two :
    let table : Table := ⟨#[.floats #[1.5, 2.5], .timestamps #[1, 5]], 2, by simp [Column.size]⟩
    let stale : Memo := ⟨.make ⟨2, by decide⟩ 0, 1, 0.5⟩
    let twap : Twap := ⟨.column 0, .column 1, .empty ⟨1, by decide⟩ 0, some stale, 0⟩
    let layouts : List SlotLayout := [⟨#[.long, .long, .long]⟩, ⟨#[.long, .long, .long]⟩]
    let before : List Command := [.first 0 0 (table.row 0), .first 0 1 (table.row 1), .value 0 0,
      .value 0 1, .next 0 0 (table.row 1),
      .merge 0 1 (SlotLayout.newRecord ⟨#[.long, .long, .long]⟩) (.empty ⟨2, by decide⟩ 0)]
    ∃ answers store' earlier reached x later,
      Store.run (before ++ [Command.value 0 0]) (opening ⟨2, by decide⟩ 0 twap layouts) =
        .ok answers store' ∧
      Store.run before (opening ⟨2, by decide⟩ 0 twap layouts) = .ok earlier reached ∧
      answers = earlier ++ x :: later ∧ reached.recompute 0 0 = .ok x ∧
      (∃ last, Store.value 0 0 reached.forget = .ok x last) ∧
      ∀ before', before'.filter (!·.isValue) = before.filter (!·.isValue) →
        (∀ g w, .value g w ∈ before' → g < 1 ∧ w < layouts.length) →
        ∃ earlier' last, Store.run (before' ++ [Command.value 0 0])
          (opening ⟨2, by decide⟩ 0 twap layouts) = .ok (earlier' ++ [x]) last := by
  intro table stale twap layouts before
  have hwide : ∀ layout ∈ layouts, twap.slotIndex + Buffer.slotCount ≤ layout.size := by decide
  have hsound : ∀ command ∈ before ++ [Command.value 0 0], command.WellFormed twap.slotIndex := by
    simp only [before, List.cons_append, List.nil_append, List.forall_mem_cons, Command.WellFormed,
      true_and, List.not_mem_nil, false_imp_iff, implies_true, and_true]
    exact ⟨.empty, {}, Buffer.empty_inSlots_newRecord (by decide), Buffer.holds_empty _⟩
  have hbounds : ∀ command ∈ before ++ [Command.value 0 0],
      command.aggregate < 1 ∧ command.record < layouts.length := by
    simp [before, layouts, Command.aggregate, Command.record]
  have hfits : ((Ledger.opening [Aggregate.adopt (.empty ⟨2, by decide⟩ 0) twap]).run
      ((before ++ [Command.value 0 0]).map (Command.task twap.slotIndex))).used 0 <
        Handle.offsetSpan := by
    decide +kernel
  obtain ⟨answers, store', hrun, -⟩ :=
    (represents_opening ⟨2, by decide⟩ 0 twap hwide).run_of_fits hsound hbounds hfits
  obtain ⟨earlier, reached, x, later, h⟩ := value_recomputed ⟨2, by decide⟩ 0 twap hwide hsound hrun
  exact ⟨answers, store', earlier, reached, x, later, hrun, h⟩

end Store

end TimeWeighted
