import Mathlib
import TimeWeighted.Proofs.Store.Ledger
import TimeWeighted.Proofs.Twap.Updates

/-!
# Stores keep lists

A store of time-weighted averages keeps its observations as bytes in arenas and as numbers in slots.
Seen from outside it keeps a list of observations for every aggregate and every record: whatever
commands are carried out, no buffer runs into another and none is lost.

* `Store.Family` : the stores that aggregates and records made for each other can become.
* `Store.Represents` : a store stands for a ledger; every command keeps this so.
* `Store.Spells` : what the slots and the bytes of a store have to be to spell lists.
* `Store.run_spells` : **after any commands, the slots and the bytes spell the lists** that these
  commands lead to, as long as the arenas are large enough.
-/

namespace TimeWeighted

/-! ### Stores that fit together -/

section

variable {φ : Type} [Aggregate φ]

/-- Registers aggregates one after the other. -/
def SlotLayout.registerAll (layout : SlotLayout) : List φ → List φ × SlotLayout
  | [] => ([], layout)
  | f :: fs =>
    let (f, layout) := Aggregate.register layout f
    let (fs, layout) := layout.registerAll fs
    (f :: fs, layout)

/-- Registers aggregates and makes `n` records for them. -/
def Store.assemble (layout : SlotLayout) (fs : List φ) (n : ℕ) : Store φ where
  aggregates := (layout.registerAll fs).1.toArray
  records := Array.replicate n (layout.registerAll fs).2.newRecord

end

/-- The ledger of aggregates that have not seen a row. -/
def Ledger.opening (twaps : List Twap) : Ledger where
  observe f row := (twaps[f]?.map (Twap.observe · row)).getD ⟨Timestamp.null, missingValue⟩
  shelf _ _ := {}
  used f := (twaps[f]?.map (·.arena.size)).getD 0

namespace Store

/-- A store that was assembled and then carried out commands, with its ledger.  A merge takes its
record and its arena from another such store, where the slots have to start at the same index. -/
inductive Family : Store Twap → Ledger → Prop
  /-- Nothing has been asked yet. -/
  | assemble (layout : SlotLayout) (twaps : List Twap) (n : ℕ)
      (fresh : ∀ twap ∈ twaps, twap.memo = none) :
      Family (.assemble layout twaps n) (.opening twaps)
  /-- A command that regards this store alone. -/
  | alone {store store' : Store Twap} {ledger : Ledger} {command : Command} {answer : Option Float}
      (family : Family store ledger) (alone : ∀ f v other source, command ≠ .merge f v other source)
      (done : Store.step command store = .ok answer store') :
      Family store' (ledger.step ⟨command, []⟩)
  /-- A merge. -/
  | merge {store store' origin : Store Twap} {ledger originLedger : Ledger} {f v g w : ℕ}
      {twap twap' : Twap} {other : SlotRecord} {answer : Option Float}
      (family : Family store ledger) (originFamily : Family origin originLedger)
      (here : store.aggregates[f]? = some twap) (there : origin.aggregates[g]? = some twap')
      (record : origin.records[w]? = some other) (index : twap'.slotIndex = twap.slotIndex)
      (done : Store.step (.merge f v other twap'.arena) store = .ok answer store') :
      Family store' (ledger.step ⟨.merge f v other twap'.arena, originLedger.lists g w⟩)

/-- A task that aggregates registered from slot `base` on can be given: `m` aggregates and `n`
records are there, and what is to be merged comes from a family. -/
def Legal (base m n : ℕ) (task : Task) : Prop :=
  task.command.aggregate < m ∧ task.command.record < n ∧
    ∀ f v other source, task.command = .merge f v other source →
      ∃ origin originLedger g w twap, Family origin originLedger ∧
        origin.aggregates[g]? = some twap ∧ twap.slotIndex = base + Buffer.slotCount * f ∧
        twap.arena = source ∧ origin.records[w]? = some other ∧
        task.incoming = originLedger.lists g w

/-! ### The invariant -/

/-- A store stands for a ledger: `m` aggregates with slots from `base` on keep buffers for `n`
records, and these stand for the shelves. -/
structure Represents (base m n : ℕ) (store : Store Twap) (ledger : Ledger) : Prop where
  /-- The number of aggregates. -/
  size_aggregates : store.aggregates.size = m
  /-- The number of records. -/
  size_records : store.records.size = n
  /-- Every aggregate has slots of its own. -/
  slotIndex_eq : ∀ f (twap : Twap), store.aggregates[f]? = some twap →
    twap.slotIndex = base + Buffer.slotCount * f
  /-- Every aggregate reads what the ledger says. -/
  observe_eq : ∀ f (twap : Twap), store.aggregates[f]? = some twap → twap.observe = ledger.observe f
  /-- Every aggregate has allocated what the ledger says. -/
  used_eq : ∀ f (twap : Twap), store.aggregates[f]? = some twap → twap.arena.size = ledger.used f
  /-- Every aggregate keeps its shelves in buffers that the records spell. -/
  keeps : ∀ f (twap : Twap), store.aggregates[f]? = some twap →
    ∃ buffer : ℕ → Buffer, twap.Keeps buffer (ledger.shelf f) ∧
      ∀ v record, store.records[v]? = some record → (buffer v).InSlots record twap.slotIndex

variable {base m n : ℕ} {store : Store Twap} {ledger : Ledger}

theorem Represents.exists_aggregate (h : Represents base m n store ledger) {f : ℕ} (hf : f < m) :
    ∃ twap, store.aggregates[f]? = some twap :=
  ⟨_, Array.getElem?_eq_getElem (by rwa [h.size_aggregates])⟩

theorem Represents.exists_record (h : Represents base m n store ledger) {v : ℕ} (hv : v < n) :
    ∃ record, store.records[v]? = some record :=
  ⟨_, Array.getElem?_eq_getElem (by rwa [h.size_records])⟩

theorem Represents.used_lt (h : Represents base m n store ledger) {f : ℕ} (hf : f < m) :
    ledger.used f < Handle.offsetSpan := by
  obtain ⟨twap, htwap⟩ := h.exists_aggregate hf
  rw [← h.used_eq f twap htwap]
  exact Arena.size_lt_offsetSpan _

theorem registerAll_spec (layout : SlotLayout) (twaps : List Twap) :
    (layout.registerAll twaps).2.size = layout.size + Buffer.slotCount * twaps.length ∧
      (layout.registerAll twaps).1.length = twaps.length ∧
      ∀ f : ℕ, (layout.registerAll twaps).1[f]? =
        twaps[f]?.map (Aggregate.setSlotIndex (layout.size + Buffer.slotCount * f)) := by
  induction twaps generalizing layout with
  | nil => simp [SlotLayout.registerAll]
  | cons twap rest ih =>
    have hsize : (layout.addMany .long Buffer.slotCount).size = layout.size + Buffer.slotCount := by
      simp [SlotLayout.addMany, SlotLayout.size]
    obtain ⟨h1, h2, h3⟩ := ih (layout.addMany .long Buffer.slotCount)
    rw [hsize] at h1 h3
    refine ⟨?_, ?_, ?_⟩
    · refine h1.trans ?_
      rw [List.length_cons, Nat.mul_succ]
      omega
    · exact congrArg (· + 1) h2
    · intro f
      cases f with
      | zero => rfl
      | succ f =>
        refine (h3 f).trans ?_
        rw [List.getElem?_cons_succ, Nat.mul_succ, Nat.add_assoc, Nat.add_comm Buffer.slotCount]

theorem represents_assemble (layout : SlotLayout) {twaps : List Twap} (n : ℕ)
    (fresh : ∀ twap ∈ twaps, twap.memo = none) :
    Represents layout.size twaps.length n (.assemble layout twaps n) (.opening twaps) := by
  obtain ⟨hsize, hlength, hget⟩ := registerAll_spec layout twaps
  have hsome : ∀ f twap, (assemble layout twaps n).aggregates[f]? = some twap →
      ∃ old, twaps[f]? = some old ∧
        twap = Aggregate.setSlotIndex (layout.size + Buffer.slotCount * f) old := by
    intro f twap h
    rw [assemble, List.getElem?_toArray, hget, Option.map_eq_some_iff] at h
    obtain ⟨old, hold, rfl⟩ := h
    exact ⟨old, hold, rfl⟩
  refine ⟨?_, ?_, ?_, ?_, ?_, ?_⟩
  · simpa [assemble] using hlength
  · simp [assemble]
  · intro f twap h
    obtain ⟨old, -, rfl⟩ := hsome f twap h
    rfl
  · intro f twap h
    obtain ⟨old, hold, rfl⟩ := hsome f twap h
    funext row
    simp [Ledger.opening, hold, Twap.observe, Aggregate.setSlotIndex]
  · intro f twap h
    obtain ⟨old, hold, rfl⟩ := hsome f twap h
    simp [Ledger.opening, hold, Aggregate.setSlotIndex]
  · intro f twap h
    obtain ⟨old, hold, rfl⟩ := hsome f twap h
    refine ⟨_, Twap.keeps_empty (fresh old (List.mem_of_getElem? hold)), ?_⟩
    intro v record hrecord
    obtain rfl : record = (layout.registerAll twaps).2.newRecord := by
      simp only [assemble, Array.getElem?_replicate] at hrecord
      split_ifs at hrecord
      exact (Option.some.inj hrecord).symm
    obtain ⟨hlt, -⟩ := List.getElem?_eq_some_iff.1 hold
    refine Buffer.empty_inSlots_newRecord ?_
    change layout.size + Buffer.slotCount * f + Buffer.slotCount ≤ _
    simp only [hsize, Buffer.slotCount]
    omega

/-! ### One command -/

section

variable {f v : ℕ} {twap twap' : Twap} {record : SlotRecord}

theorem aggregates_put (hf : store.aggregates[f]? = some twap) (record : SlotRecord) (g : ℕ) :
    (store.put f v twap' record).aggregates[g]? =
      if g = f then some twap' else store.aggregates[g]? := by
  obtain ⟨hlt, -⟩ := Array.getElem?_eq_some_iff.1 hf
  by_cases hg : g = f
  · subst hg
    simp [put, hlt]
  · simp [put, Array.getElem?_setIfInBounds_ne (Ne.symm hg), hg]

theorem records_put (hv : store.records[v]? = some record) (twap' : Twap) (record' : SlotRecord)
    (w : ℕ) : (store.put f v twap' record').records[w]? =
      Function.update (fun w => store.records[w]?) v (some record') w := by
  obtain ⟨hlt, -⟩ := Array.getElem?_eq_some_iff.1 hv
  by_cases hw : w = v
  · subst hw
    simp [put, hlt]
  · simp [put, Array.getElem?_setIfInBounds_ne (Ne.symm hw), hw]

theorem update_of_ok {change : UpdateM Twap Unit} {record' : SlotRecord}
    (hf : store.aggregates[f]? = some twap) (hv : store.records[v]? = some record)
    (h : change (twap, record) = .ok () (twap', record')) :
    Store.update f v change store = .ok () (store.put f v twap' record') := by
  simp only [Store.update, hf, hv, h]

theorem update_of_error {change : UpdateM Twap Unit} {record' : SlotRecord} {fault : Fault}
    (hf : store.aggregates[f]? = some twap) (hv : store.records[v]? = some record)
    (h : change (twap, record) = .error fault (twap', record')) :
    Store.update f v change store = .error fault (store.put f v twap' record') := by
  simp only [Store.update, hf, hv, h]

theorem aggregates_put_cases (hf : store.aggregates[f]? = some twap) {record : SlotRecord} {g : ℕ}
    {x : Twap} (hx : (store.put f v twap' record).aggregates[g]? = some x) :
    (g = f ∧ x = twap') ∨ (g ≠ f ∧ store.aggregates[g]? = some x) := by
  rw [aggregates_put hf] at hx
  split_ifs at hx with hg
  · exact .inl ⟨hg, (Option.some.inj hx).symm⟩
  · exact .inr ⟨hg, hx⟩

theorem Represents.put (h : Represents base m n store ledger)
    (hf : store.aggregates[f]? = some twap) (hv : store.records[v]? = some record)
    {buffer : ℕ → Buffer} {b : Buffer} {s : Shelf} {bytes : ℕ}
    (hslots : ∀ w r, store.records[w]? = some r → (buffer w).InSlots r twap.slotIndex)
    (hup : twap.Updated buffer (ledger.shelf f) v b s bytes twap') :
    Represents base m n (store.put f v twap' (record.withBuffer twap.slotIndex b))
      (ledger.put f v s bytes) := by
  have hindex := h.slotIndex_eq f twap hf
  refine ⟨?_, ?_, ?_, ?_, ?_, ?_⟩
  · simpa [Store.put] using h.size_aggregates
  · simpa [Store.put] using h.size_records
  · intro g x hx
    rcases aggregates_put_cases hf hx with ⟨rfl, rfl⟩ | ⟨hg, hx'⟩
    · rw [hup.slotIndex_eq, hindex]
    · exact h.slotIndex_eq g x hx'
  · intro g x hx
    rcases aggregates_put_cases hf hx with ⟨rfl, rfl⟩ | ⟨hg, hx'⟩
    · rw [Ledger.observe_put, ← h.observe_eq g twap hf, hup.observe_eq]
    · exact h.observe_eq g x hx'
  · intro g x hx
    rcases aggregates_put_cases hf hx with ⟨rfl, rfl⟩ | ⟨hg, hx'⟩
    · rw [Ledger.used_put_self, hup.size_eq, h.used_eq g twap hf]
    · rw [Ledger.used_put_of_ne hg, h.used_eq g x hx']
  · simp only [records_put hv]
    intro g x hx
    rcases aggregates_put_cases hf hx with ⟨rfl, rfl⟩ | ⟨hg, hx'⟩
    · refine ⟨_, by rw [Ledger.shelf_put_self]; exact hup.keeps, ?_⟩
      rw [hup.slotIndex_eq]
      exact Buffer.inSlots_update_withBuffer hv hslots b
    · obtain ⟨others, hkeeps, hothers⟩ := h.keeps g x hx'
      refine ⟨others, by rwa [Ledger.shelf_put_of_ne hg],
        Buffer.inSlots_update_of_apart hv hothers ?_ b⟩
      -- the slots of two aggregates do not overlap
      rw [hindex, h.slotIndex_eq g x hx']
      simp only [Buffer.slotCount]
      omega

/-- A command goes through and leaves a store that stands for the ledger after it, or its arena
would need more bytes than there are offsets. -/
def Follows (base m n f : ℕ) (answer : Option Float) (ledger : Ledger)
    (outcome : EStateM.Result Fault (Store Twap) (Option Float)) : Prop :=
  (∃ store, outcome = .ok answer store ∧ Represents base m n store ledger) ∨
    ∃ store, outcome = .error .arenaExhausted store ∧ Handle.offsetSpan ≤ ledger.used f

/-- Commands that change a record go through, or not, as the update of that record does. -/
theorem Represents.update (h : Represents base m n store ledger)
    (hf : store.aggregates[f]? = some twap) (hv : store.records[v]? = some record)
    {update : UpdateM Twap Unit} {s : Shelf} {bytes : ℕ}
    (change : ∀ b : Buffer, b.Holds twap.arena (ledger.shelf f v) →
      b.InSlots record twap.slotIndex →
        twap.Change b s bytes record (update (twap, record))) :
    Follows base m n f none (ledger.put f v s bytes)
      ((do Store.update f v update; return none : EStateM Fault (Store Twap) (Option Float))
        store) := by
  obtain ⟨buffer, hkeeps, hslots⟩ := h.keeps f twap hf
  have hused := h.used_eq f twap hf
  cases (change (buffer v) (hkeeps.holds v) (hslots v record hv)).attempt hkeeps with
  | done hrun hup =>
    exact .inl ⟨_, by rw [bind_of_ok (update_of_ok hf hv hrun), pure_apply],
      h.put hf hv hslots hup⟩
  | full hrun hfull =>
    refine .inr ⟨_, bind_of_error (update_of_error hf hv hrun), ?_⟩
    rwa [Ledger.used_put_self, ← hused]

/-- What a merge takes is spelled by the other record and its arena. -/
def Carries (base : ℕ) (task : Task) : Prop :=
  ∀ f v other source, task.command = .merge f v other source →
    ∃ (b : Buffer) (t : Shelf), b.InSlots other (base + Buffer.slotCount * f) ∧
      b.Holds source t ∧ t.entries = task.incoming

theorem Represents.value_apply (h : Represents base m n store ledger)
    (hf : store.aggregates[f]? = some twap) (hv : store.records[v]? = some record) :
    ∃ store', Store.value f v store =
        .ok (Observation.average (ledger.shelf f v).entries) store' ∧
      Represents base m n store' ledger := by
  obtain ⟨buffer, hkeeps, hslots⟩ := h.keeps f twap hf
  obtain ⟨memo, hvalue, hkeeps'⟩ := hkeeps.value_apply (hslots v record hv)
  have hup : twap.Updated buffer (ledger.shelf f) v (buffer v) (ledger.shelf f v) 0
      { twap with memo } :=
    ⟨rfl, rfl, rfl, by rwa [Function.update_eq_self, Function.update_eq_self], rfl⟩
  have hput := h.put hf hv hslots hup
  rw [(hslots v record hv).withBuffer_self, Ledger.put_self] at hput
  refine ⟨store.put f v { twap with memo } record, ?_, hput⟩
  simp only [Store.value, hf, hv, Aggregate.value, hvalue]

/-- **Every command keeps the store standing for its ledger.** -/
theorem Represents.step (h : Represents base m n store ledger) {task : Task}
    (hm : task.command.aggregate < m) (hn : task.command.record < n)
    (hcarries : Carries base task) :
    Follows base m n task.command.aggregate (ledger.lists.answer task.command) (ledger.step task)
      (Store.step task.command store) := by
  obtain ⟨command, incoming⟩ := task
  obtain ⟨twap, hf⟩ := h.exists_aggregate hm
  obtain ⟨record, hv⟩ := h.exists_record hn
  cases command with
  | first f v row =>
    refine h.update hf hv fun b hb hslots => ?_
    rw [← h.observe_eq f twap hf]
    exact Twap.change_start b hslots.size_le _
  | next f v row =>
    refine h.update hf hv fun b hb hslots => ?_
    rw [← h.observe_eq f twap hf]
    exact Twap.change_append hb hslots _
  | merge f v other source =>
    obtain ⟨b, t, hin, hholds, rfl⟩ := hcarries f v other source rfl
    rw [← h.slotIndex_eq f twap hf] at hin
    exact h.update hf hv fun b hb hslots => Twap.change_absorb hb hslots hin hholds
  | clear f v =>
    exact h.update hf hv fun b hb hslots => Twap.change_clear b hslots.size_le
  | value f v =>
    change store.aggregates[f]? = some twap at hf
    change store.records[v]? = some record at hv
    obtain ⟨store', hrun, hrep⟩ := h.value_apply hf hv
    refine .inl ⟨store', ?_, hrep⟩
    rw [Store.step, bind_of_ok hrun, pure_apply]
    rfl

end

/-! ### Many commands -/

theorem bounds_of_ok {command : Command} {answer : Option Float} {store' : Store Twap}
    (h : Store.step command store = .ok answer store') :
    command.aggregate < store.aggregates.size ∧ command.record < store.records.size := by
  by_contra hnot
  have hnone : store.aggregates[command.aggregate]? = none ∨
      store.records[command.record]? = none := by
    simp only [Array.getElem?_eq_none_iff]
    omega
  have hupdate : ∀ change, Store.update command.aggregate command.record change store =
      .error .outOfBounds store := by
    intro change
    rcases hnone with hnone | hnone
    · simp only [Store.update, hnone]
    · cases hf : store.aggregates[command.aggregate]? <;> simp only [Store.update, hf, hnone]
  have hvalue : Store.value command.aggregate command.record store =
      .error .outOfBounds store := by
    rcases hnone with hnone | hnone
    · simp only [Store.value, hnone]
    · cases hf : store.aggregates[command.aggregate]? <;> simp only [Store.value, hf, hnone]
  cases command with
  | value f v => exact nomatch h.symm.trans (bind_of_error hvalue)
  | _ => exact nomatch h.symm.trans (bind_of_error (hupdate _))

theorem Represents.carries {f w : ℕ} {twap : Twap} {other : SlotRecord}
    (h : Represents base m n store ledger) (hf : store.aggregates[f]? = some twap)
    (hw : store.records[w]? = some other) :
    ∃ (b : Buffer) (t : Shelf), b.InSlots other twap.slotIndex ∧ b.Holds twap.arena t ∧
      t.entries = ledger.lists f w := by
  obtain ⟨buffer, hkeeps, hslots⟩ := h.keeps f twap hf
  exact ⟨buffer w, ledger.shelf f w, hslots w other hw, hkeeps.holds w, rfl⟩

theorem Represents.of_ok (h : Represents base m n store ledger) {task : Task}
    {answer : Option Float} {store' : Store Twap}
    (hdone : Store.step task.command store = .ok answer store') (hcarries : Carries base task) :
    Represents base m n store' (ledger.step task) := by
  obtain ⟨hf, hv⟩ := bounds_of_ok hdone
  rw [h.size_aggregates] at hf
  rw [h.size_records] at hv
  rcases h.step hf hv hcarries with ⟨after, hok, hrep⟩ | ⟨after, herror, -⟩
  · rw [hdone] at hok
    cases hok
    exact hrep
  · rw [hdone] at herror
    cases herror

theorem Family.represents (h : Family store ledger) :
    ∃ base m n, Represents base m n store ledger := by
  induction h with
  | assemble layout twaps n fresh => exact ⟨_, _, _, represents_assemble layout n fresh⟩
  | alone family alone done ih =>
    obtain ⟨base, m, n, hrep⟩ := ih
    refine ⟨base, m, n, hrep.of_ok done ?_⟩
    intro f v other source hmerge
    exact absurd hmerge (alone f v other source)
  | merge family originFamily here there record index done ih originIh =>
    obtain ⟨base, m, n, hrep⟩ := ih
    obtain ⟨_, _, _, horigin⟩ := originIh
    refine ⟨base, m, n, hrep.of_ok done ?_⟩
    rintro f v other source ⟨⟩
    rw [← hrep.slotIndex_eq _ _ here, ← index]
    exact horigin.carries there record

theorem Legal.carries {task : Task} (h : Legal base m n task) : Carries base task := by
  intro f v other source hmerge
  obtain ⟨origin, originLedger, g, w, twap, hfamily, hg, hindex, rfl, hw, hincoming⟩ :=
    h.2.2 f v other source hmerge
  obtain ⟨_, _, _, horigin⟩ := hfamily.represents
  rw [hincoming, ← hindex]
  exact horigin.carries hg hw

/-- Commands that find room are carried out and keep the store standing for its ledger, if what is
to be merged is well formed. -/
theorem Represents.run_of_carries {tasks : List Task} (h : Represents base m n store ledger)
    (bounds : ∀ task ∈ tasks, task.command.aggregate < m ∧ task.command.record < n)
    (carries : ∀ task ∈ tasks, Carries base task)
    (fits : ∀ f < m, (ledger.run tasks).used f < Handle.offsetSpan) :
    ∃ store', Store.run (tasks.map (·.command)) store =
        .ok (ledger.lists.answers ledger.observe tasks) store' ∧
      Represents base m n store' (ledger.run tasks) := by
  induction tasks generalizing store ledger with
  | nil => exact ⟨store, rfl, h⟩
  | cons task rest ih =>
    obtain ⟨⟨hf, hv⟩, hbounds⟩ := List.forall_mem_cons.1 bounds
    obtain ⟨hcarries, hrest⟩ := List.forall_mem_cons.1 carries
    have hfits : (ledger.step task).used task.command.aggregate < Handle.offsetSpan :=
      ((ledger.step task).used_le_run rest _).trans_lt (fits _ hf)
    rcases h.step hf hv hcarries with ⟨after, hok, hrep⟩ | ⟨-, -, hfull⟩
    · obtain ⟨last, hrun, hlast⟩ := ih hrep hbounds hrest fits
      refine ⟨last, ?_, hlast⟩
      rw [List.map_cons, Store.run, bind_of_ok hok, bind_of_ok hrun, pure_apply, Lists.answers,
        Ledger.lists_step, Ledger.observe_step]
    · omega

theorem Represents.run {tasks : List Task} (h : Represents base m n store ledger)
    (legal : ∀ task ∈ tasks, Legal base m n task)
    (fits : ∀ f < m, (ledger.run tasks).used f < Handle.offsetSpan) :
    ∃ store', Store.run (tasks.map (·.command)) store =
        .ok (ledger.lists.answers ledger.observe tasks) store' ∧
      Represents base m n store' (ledger.run tasks) :=
  h.run_of_carries (fun task htask => ⟨(legal task htask).1, (legal task htask).2.1⟩)
    (fun task htask => (legal task htask).carries) fits

/-! ### What the slots and the bytes say -/

/-- The slots and the bytes of a store spell lists: from every record every aggregate can load a
buffer that has the entries of its list, and the buffers of one aggregate do not overlap. -/
structure Spells (store : Store Twap) (lists : Lists) : Prop where
  /-- Three slots hold a buffer: all zero for the empty one, or a place that its arena owns, a
  count and a capacity that leads to no byte past the end.  Its entries are those of the list. -/
  buffer : ∀ f v (twap : Twap) (record : SlotRecord), store.aggregates[f]? = some twap →
    store.records[v]? = some record → ∃ b, Buffer.load record twap.slotIndex = .ok b ∧
      b.InSlots record twap.slotIndex ∧ b.entries twap.arena = .ok (lists f v) ∧
      (b = .empty ∨ ∃ p, b.start = some p ∧ twap.arena.owns p ∧ p.offset % Arena.alignment = 0 ∧
        1 ≤ b.count ∧ b.count ≤ b.capacity ∧
        p.offset + Observation.width * b.capacity ≤ twap.arena.size)
  /-- The room of different records does not overlap. -/
  apart : ∀ (f v w : ℕ) (twap : Twap) (r r' : SlotRecord) (b b' : Buffer), v ≠ w →
    store.aggregates[f]? = some twap → store.records[v]? = some r →
    store.records[w]? = some r' → Buffer.load r twap.slotIndex = .ok b →
    Buffer.load r' twap.slotIndex = .ok b' → b.Apart b'

theorem Represents.spells (h : Represents base m n store ledger) : store.Spells ledger.lists where
  buffer f v twap record hf hv := by
    obtain ⟨buffer, hkeeps, hslots⟩ := h.keeps f twap hf
    have hholds := hkeeps.holds v
    refine ⟨buffer v, (hslots v record hv).load hholds.storable, hslots v record hv,
      Buffer.entries_of_holds hholds, ?_⟩
    rcases hholds with ⟨hempty, -⟩ | ⟨p, hst⟩
    · exact .inl hempty
    · exact .inr ⟨p, hst.start_eq, hst.owns, hst.aligned, hst.count_pos, hst.count_le,
        hst.covers.le_size⟩
  apart f v w twap r r' b b' hne hf hv hw hb hb' := by
    obtain ⟨buffer, hkeeps, hslots⟩ := h.keeps f twap hf
    obtain rfl : buffer v = b :=
      Except.ok.inj (((hslots v r hv).load (hkeeps.holds v).storable).symm.trans hb)
    obtain rfl : buffer w = b' :=
      Except.ok.inj (((hslots w r' hw).load (hkeeps.holds w).storable).symm.trans hb')
    exact hkeeps.apart v w hne

/-- **After any commands, the slots and the bytes of a store spell the lists that the commands lead
to**, and the values answered are the averages of these lists, provided that no arena would need
more bytes than there are offsets.  This goes for every part of the commands that is carried out
first, so after every single command. -/
theorem run_spells (layout : SlotLayout) {twaps : List Twap} (n : ℕ)
    (fresh : ∀ twap ∈ twaps, twap.memo = none) {tasks : List Task}
    (legal : ∀ task ∈ tasks, Legal layout.size twaps.length n task)
    (fits : ∀ f < twaps.length, ((Ledger.opening twaps).run tasks).used f < Handle.offsetSpan)
    {done rest : List Task} (hdone : tasks = done ++ rest) :
    ∃ store, Store.run (done.map (·.command)) (assemble layout twaps n) =
        .ok (Lists.answers (Ledger.opening twaps).observe (fun _ _ => []) done) store ∧
      store.Spells (Lists.run (Ledger.opening twaps).observe (fun _ _ => []) done) := by
  subst hdone
  have hfits : ∀ f < twaps.length,
      ((Ledger.opening twaps).run done).used f < Handle.offsetSpan := by
    intro f hf
    have hlast := fits f hf
    rw [Ledger.run, List.foldl_append] at hlast
    exact (Ledger.used_le_run _ rest f).trans_lt hlast
  obtain ⟨store, hrun, hrep⟩ := (represents_assemble layout n fresh).run
    (fun task htask => legal task (List.mem_append_left _ htask)) hfits
  refine ⟨store, hrun, ?_⟩
  have hspells := hrep.spells
  rw [Ledger.lists_run] at hspells
  exact hspells

/-- Two records of one aggregate.  Into the second goes a record that another store has made, whose
arena goes by the same id. -/
theorem run_spells_two_records :
    let table : Table := ⟨#[.floats #[1.5, 2.5, 3.5], .timestamps #[1, 5, 3]], 3, by
      simp [Column.size]⟩
    let twap : Twap := ⟨.column 0, .column 1, .empty ⟨1, by decide⟩ 0, none, 0⟩
    let tasks (other : SlotRecord) (source : Arena) : List Task :=
      [⟨.first 0 0 (table.row 0), []⟩, ⟨.first 0 1 (table.row 0), []⟩,
        ⟨.next 0 1 (table.row 1), []⟩, ⟨.merge 0 1 other source, [⟨3, 3.5⟩]⟩, ⟨.value 0 1, []⟩]
    ∃ origin lender other store,
      Store.step (.first 0 0 (table.row 2)) (assemble {} [twap] 1) = .ok none origin ∧
      origin.aggregates[0]? = some lender ∧ origin.records[0]? = some other ∧
      Store.run ((tasks other lender.arena).map (·.command)) (assemble {} [twap] 2) =
        .ok (Lists.answers (Ledger.opening [twap]).observe (fun _ _ => [])
          (tasks other lender.arena)) store ∧
      store.Spells (Lists.run (Ledger.opening [twap]).observe (fun _ _ => [])
        (tasks other lender.arena)) := by
  intro table twap tasks
  have hfresh : ∀ x ∈ [twap], x.memo = none := by simp [twap]
  have hassemble := represents_assemble {} 1 hfresh
  -- what the other store makes
  let task : Task := ⟨.first 0 0 (table.row 2), []⟩
  have haggregate : task.command.aggregate < [twap].length := Nat.one_pos
  have hrecord : task.command.record < 1 := Nat.one_pos
  obtain ⟨origin, hstep, horigin⟩ | ⟨-, -, hfull⟩ :=
    hassemble.step haggregate hrecord (by rintro f v other source ⟨⟩)
  swap
  · exact absurd hfull (by decide +kernel)
  obtain ⟨lender, hlender⟩ := horigin.exists_aggregate Nat.one_pos
  obtain ⟨other, hother⟩ := horigin.exists_record Nat.one_pos
  have hfamily : Family origin ((Ledger.opening [twap]).step task) :=
    .alone (.assemble {} [twap] 1 hfresh) (by rintro f v other source ⟨⟩) hstep
  have hincoming : [⟨3, 3.5⟩] = ((Ledger.opening [twap]).step task).lists 0 0 := by
    rw [Ledger.lists_step]
    change _ = Lists.put _ 0 0 ([twap.observe (table.row 2)].filter Observation.isValid) 0 0
    rw [Lists.put_apply_self, List.filter_cons_of_pos (by decide +kernel)]
    rfl
  have hlegal : ∀ t ∈ tasks other lender.arena, Legal (SlotLayout.size {}) [twap].length 2 t := by
    intro t ht
    simp only [tasks, List.mem_cons, List.not_mem_nil, or_false] at ht
    rcases ht with rfl | rfl | rfl | rfl | rfl
    · exact ⟨Nat.one_pos, Nat.two_pos, nofun⟩
    · exact ⟨Nat.one_pos, Nat.one_lt_two, nofun⟩
    · exact ⟨Nat.one_pos, Nat.one_lt_two, nofun⟩
    · refine ⟨Nat.one_pos, Nat.one_lt_two, ?_⟩
      rintro f v r source ⟨⟩
      exact ⟨_, _, 0, 0, _, hfamily, hlender, horigin.slotIndex_eq 0 lender hlender, rfl, hother,
        hincoming⟩
    · exact ⟨Nat.one_pos, Nat.one_lt_two, nofun⟩
  -- the bytes in use do not depend on where the incoming entries lie
  have hused : ((Ledger.opening [twap]).run (tasks other lender.arena)).used =
      ((Ledger.opening [twap]).run (tasks ⟨#[]⟩ twap.arena)).used := rfl
  have hfits : ∀ f < [twap].length,
      ((Ledger.opening [twap]).run (tasks other lender.arena)).used f < Handle.offsetSpan := by
    rw [hused]
    decide +kernel
  obtain ⟨store, hrun, hspells⟩ :=
    run_spells {} 2 hfresh hlegal hfits (List.append_nil (tasks other lender.arena)).symm
  exact ⟨origin, lender, other, store, hstep, hlender, hother, hrun, hspells⟩

end Store

end TimeWeighted
