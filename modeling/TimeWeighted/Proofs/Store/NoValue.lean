import Mathlib
import TimeWeighted.Proofs.Average.Indefinite
import TimeWeighted.Proofs.Store.Memo

/-!
# Records without a value

A record that was given no valid observation has no value, and this is told by an answer that is not
a number.  For values of moderate size nothing else is told in this way.  In general the answer is
not a number either if the observations that were given are indefinite, so that their average is
none.

* `Store.received` : the valid observations that a record was given.
* `Store.entries_run` : they are the entries of the record.
* `Store.isNaN_value` : **the answers that are not a number.**
-/

namespace TimeWeighted

namespace Store

/-- Whether a command gives a row to a record, or asks for its value. -/
def Command.isOfRows : Command → Bool
  | .first .. | .next .. | .value .. => true
  | .merge .. | .clear .. => false

/-- The observations that the record `v` was given, after one more command: the first row starts
anew, a further row is added, both unless the observation is not valid. -/
def receive (observe : Row → Observation) (v : ℕ) (received : List Observation) :
    Command → List Observation
  | .first _ w row => if w = v then [observe row].filter Observation.isValid else received
  | .next _ w row =>
    if w = v then received ++ [observe row].filter Observation.isValid else received
  | .merge .. | .clear .. | .value .. => received

/-- The valid observations that the record `v` was given, since it was given a first row last. -/
def received (observe : Row → Observation) (v : ℕ) (commands : List Command) : List Observation :=
  commands.foldl (receive observe v) []

variable {m n i v : ℕ} {store store' : Store Twap} {ledger : Ledger} {twap : Twap}
  {command : Command} {commands before after : List Command} {answers : List Float}

theorem isValid_of_mem_receive {observe : Row → Observation} {l : List Observation}
    (hl : ∀ o ∈ l, o.isValid = true) : ∀ o ∈ receive observe v l command, o.isValid = true := by
  intro o ho
  cases command with
  | first f w row =>
    rw [receive] at ho
    split_ifs at ho
    · exact (List.mem_filter.1 ho).2
    · exact hl o ho
  | next f w row =>
    rw [receive] at ho
    split_ifs at ho
    · exact (List.mem_append.1 ho).elim (hl o) fun h => (List.mem_filter.1 h).2
    · exact hl o ho
  | merge f w other source => exact hl o ho
  | clear f w => exact hl o ho
  | value f w => exact hl o ho

theorem isValid_of_mem_received {observe : Row → Observation} :
    ∀ o ∈ received observe v commands, o.isValid = true := by
  have hfold : ∀ l : List Observation, (∀ o ∈ l, o.isValid = true) →
      ∀ o ∈ commands.foldl (receive observe v) l, o.isValid = true := by
    induction commands with
    | nil => exact fun l hl => hl
    | cons command rest ih => exact fun l hl => ih _ (isValid_of_mem_receive hl)
  exact hfold [] nofun

theorem entries_step (ledger : Ledger) (hf : command.aggregate < 1)
    (hrows : command.record = v → command.isOfRows = true) :
    ((ledger.step (command.task i)).shelf 0 v).entries =
      receive (ledger.observe 0) v (ledger.shelf 0 v).entries command := by
  refine (congrFun (congrFun (ledger.lists_step (command.task i)) 0) v).trans ?_
  cases command with
  | first f w row =>
    obtain rfl : f = 0 := Nat.lt_one_iff.1 hf
    simp only [Lists.step, Command.task, receive]
    split_ifs with h
    · exact h ▸ Lists.put_apply_self ..
    · exact Lists.put_apply_of_ne h
  | next f w row =>
    obtain rfl : f = 0 := Nat.lt_one_iff.1 hf
    simp only [Lists.step, Command.task, receive]
    split_ifs with h
    · exact h ▸ Lists.put_apply_self ..
    · exact Lists.put_apply_of_ne h
  | merge f w other source =>
    obtain rfl : f = 0 := Nat.lt_one_iff.1 hf
    exact Lists.put_apply_of_ne fun h => Bool.false_ne_true (hrows h)
  | clear f w =>
    obtain rfl : f = 0 := Nat.lt_one_iff.1 hf
    exact Lists.put_apply_of_ne fun h => Bool.false_ne_true (hrows h)
  | value f w => rfl

/-- **The entries of a record are what it received.** -/
theorem entries_run (ledger : Ledger) (hf : ∀ command ∈ commands, command.aggregate < 1)
    (hrows : ∀ command ∈ commands, command.record = v → command.isOfRows = true) :
    ((ledger.run (commands.map (Command.task i))).shelf 0 v).entries =
      commands.foldl (receive (ledger.observe 0) v) (ledger.shelf 0 v).entries := by
  induction commands generalizing ledger with
  | nil => rfl
  | cons command rest ih =>
    rw [List.forall_mem_cons] at hf hrows
    have hrest := ih (ledger.step (command.task i)) hf.2 hrows.2
    rw [Ledger.observe_step, entries_step ledger hf.1 hrows.1] at hrest
    exact hrest

theorem Represents.length_lt (h : Represents i m n store ledger) {f : ℕ} (hf : f < m) :
    (ledger.shelf f v).entries.length < Handle.offsetSpan := by
  obtain ⟨twap, htwap⟩ := h.exists_aggregate hf
  obtain ⟨buffer, hkeeps, -⟩ := h.keeps f twap htwap
  have hholds := hkeeps.holds v
  by_cases hnil : (ledger.shelf f v).entries = []
  · rw [hnil]
    exact Handle.offsetSpan_pos
  · obtain ⟨p, hstored⟩ := hholds.stored hnil
    have hroom := hstored.room_lt
    have hcount := hstored.count_le
    rw [hstored.length_eq]
    simp only [Observation.width] at hroom
    omega

/-- **The answers that are not a number.**  In any run without faults on new records, with a new
arena, let a record be given nothing but rows.  The answer to a request for its value is not a
number exactly if it received nothing valid, or if what it received is indefinite; and if all values
that it received are moderate, exactly if it received nothing valid. -/
theorem isNaN_value (id : ArenaId) (reserve : ℕ) (twap : Twap) {layouts : List SlotLayout}
    (wide : ∀ layout ∈ layouts, twap.slotIndex + Buffer.slotCount ≤ layout.size)
    (sound : ∀ command ∈ before ++ .value 0 v :: after, command.WellFormed twap.slotIndex)
    (rows : ∀ command ∈ before, command.record = v → command.isOfRows = true)
    (hrun : Store.run (before ++ .value 0 v :: after) (opening id reserve twap layouts) =
      .ok answers store') :
    ∃ earlier reached x later,
      Store.run before (opening id reserve twap layouts) = .ok earlier reached ∧
      answers = earlier ++ x :: later ∧
      (x.isNaN = true ↔ received twap.observe v before = [] ∨
        Observation.Indefinite (received twap.observe v before)) ∧
      (Observation.Moderate (received twap.observe v before) →
        (x.isNaN = true ↔ received twap.observe v before = [])) := by
  have hopening := represents_opening id reserve twap wide
  obtain ⟨earlier, reached, later, hbefore, hlater, rfl⟩ := run_append_of_ok hrun
  obtain ⟨answer, next, rest, hstep, -, rfl⟩ := run_cons_of_ok hlater
  obtain ⟨hbounds, hreached⟩ := hopening.run_of_ok
    (fun command hcommand => sound command (List.mem_append_left _ hcommand)) hbefore
  have hv : v < layouts.length := hreached.size_records ▸ (bounds_of_ok hstep).2
  have hentries : ((((Ledger.opening [Aggregate.adopt (.empty id reserve) twap]).run
      (before.map (Command.task twap.slotIndex))).shelf 0 v).entries) =
      received twap.observe v before :=
    entries_run _ (fun command hcommand => (hbounds command hcommand).1) rows
  have hlength := hreached.length_lt (v := v) Nat.one_pos
  obtain ⟨-, last, hvalue⟩ := hreached.answer Nat.one_pos hv
  rw [hentries] at hlength hvalue
  obtain ⟨rfl, rfl⟩ := EStateM.Result.ok.inj ((step_value hvalue).symm.trans hstep)
  have hspan : Handle.offsetSpan < 2 ^ 52 := by decide
  have hnan := Observation.isNaN_average (l := received twap.observe v before)
    isValid_of_mem_received (by omega)
  refine ⟨earlier, reached, _, rest, hbefore, rfl, hnan, fun hmoderate => hnan.trans ?_⟩
  exact or_iff_left (hmoderate.not_indefinite (by omega))

/-- A record that was given three valid observations, of which the first is infinite and holds for
no time: the answer is not a number. -/
theorem isNaN_value_infinite :
    let table : Table :=
      ⟨#[.floats #[1 / 0, 1, 2], .timestamps #[0, 0, 10]], 3, by simp [Column.size]⟩
    let twap : Twap := ⟨.column 0, .column 1, .empty ⟨1, by decide⟩ 0, none, 0⟩
    let layouts : List SlotLayout := [⟨#[.long, .long, .long]⟩]
    let before : List Command :=
      [.first 0 0 (table.row 0), .next 0 0 (table.row 1), .next 0 0 (table.row 2)]
    ∃ answers store' earlier reached x later,
      Store.run (before ++ [Command.value 0 0]) (opening ⟨2, by decide⟩ 0 twap layouts) =
        .ok answers store' ∧
      Store.run before (opening ⟨2, by decide⟩ 0 twap layouts) = .ok earlier reached ∧
      answers = earlier ++ x :: later ∧ received twap.observe 0 before ≠ [] ∧ x.isNaN = true := by
  intro table twap layouts before
  have hwide : ∀ layout ∈ layouts, twap.slotIndex + Buffer.slotCount ≤ layout.size := by decide
  have hsound : ∀ command ∈ before ++ [Command.value 0 0], command.WellFormed twap.slotIndex := by
    simp [before, Command.WellFormed]
  have hbounds : ∀ command ∈ before ++ [Command.value 0 0],
      command.aggregate < 1 ∧ command.record < layouts.length := by
    simp [before, layouts, Command.aggregate, Command.record]
  have hrows : ∀ command ∈ before, command.record = 0 → command.isOfRows = true := by
    simp [before, Command.isOfRows]
  have hfits : ((Ledger.opening [Aggregate.adopt (.empty ⟨2, by decide⟩ 0) twap]).run
      ((before ++ [Command.value 0 0]).map (Command.task twap.slotIndex))).used 0 <
        Handle.offsetSpan := by
    decide +kernel
  obtain ⟨answers, store', hrun, -⟩ :=
    (represents_opening ⟨2, by decide⟩ 0 twap hwide).run_of_fits hsound hbounds hfits
  obtain ⟨earlier, reached, x, later, hbefore, hanswers, hnan, -⟩ :=
    isNaN_value ⟨2, by decide⟩ 0 twap hwide hsound hrows hrun
  have hreceived : received twap.observe 0 before = [⟨0, 1 / 0⟩, ⟨0, 1⟩, ⟨10, 2⟩] := by
    decide +kernel
  refine ⟨answers, store', earlier, reached, x, later, hrun, hbefore, hanswers, ?_,
    hnan.2 (.inr ?_)⟩
  · rw [hreceived]
    simp
  · -- in the first two observations infinity holds for no time
    rw [hreceived, Observation.Indefinite, if_pos (by decide +kernel)]
    have hfirst : [⟨0, 1 / 0⟩, ⟨0, 1⟩] <+: ([⟨0, 1 / 0⟩, ⟨0, 1⟩, ⟨10, 2⟩] : List Observation) :=
      ⟨[⟨10, 2⟩], rfl⟩
    exact .inl ⟨_, _, hfirst.isInfix, by decide +kernel, rfl⟩

end Store

end TimeWeighted
