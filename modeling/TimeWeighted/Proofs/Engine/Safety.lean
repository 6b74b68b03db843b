import Mathlib
import TimeWeighted.Proofs.Engine.Execution
import TimeWeighted.Proofs.Engine.Partition

/-!
# Runs without faults

A run of averages over at most `2 ^ 32` rows never faults, whatever the columns hold, whichever of
them are read, and however the workers and the groups take their turns.  What a worker gathers takes
no more than 256 bytes a row of any arena, and no arena takes part in more than 32 rounds of merges,
so no arena comes near the offsets a handle can hold.

* `Settings.toSettings_of_validate` : a query has the settings it was made from.
* `Query.frame_lt_wordSpan` : the ends of frames are numbers a machine word can hold.
* `Query.exists_report` : the report of a run, and the bytes its arenas use.
* `Query.runWith_safe` : **a run has an answer, or the group column is refused.**
-/

namespace TimeWeighted

theorem Settings.toSettings_of_validate {φ : Type} {settings : Settings φ} {query : Query φ}
    (h : settings.validate = .ok query) : query.toSettings = settings := by
  unfold validate at h
  split_ifs at h
  split at h
  · cases h
  · cases h
    rfl

namespace Query

variable {query : Query Twap} {sources : List (Source × Source)} {table : Table}
  {schedule : ℕ → Schedule}

theorem frame_lt_wordSpan (word : query.frameSize < wordSpan) (small : table.rowCount ≤ 2 ^ 32)
    {i : ℕ} (hi : i < table.frameCount query.frameSize) :
    i * query.frameSize + query.frameSize < wordSpan :=
  Table.reach_lt_wordSpan (small.trans (by decide)) word
    ((table.lt_frameCount_iff query.frameSize_pos).1 hi)

/-- With a reservation that is granted and no more than `2 ^ 32` rows there is a report.  A worker
takes at most 256 bytes a row of any arena, and so does every one of at most 32 rounds of merges. -/
theorem exists_report (haggregates : query.aggregates = twapsOf sources)
    (hcolumn : query.checkGroupColumn table = .ok ())
    (hreserve : query.arenaReserve ≤ Arena.maxReservation) (small : table.rowCount ≤ 2 ^ 32)
    (complete : (schedule (query.workersOn table)).Complete (query.workersOn table)
      (table.frameCount query.frameSize))
    (supply : IdSupply) :
    ∃ report supply', query.runWith table schedule supply = .ok (report, supply') ∧
      (∀ p ∈ report.gathered, ∀ f ∈ p.aggregates, f.arena.size ≤ 256 * table.rowCount) ∧
      ∀ f ∈ report.aggregates, f.arena.size ≤ 256 * ((32 + 1) * table.rowCount) := by
  obtain ⟨workers, supply', created, ⟨first, hfirst, hlength⟩, hanswer, -⟩ :=
    runWith_of_le hcolumn hreserve schedule supply
  rw [workerCount_eq] at hlength
  -- no more workers than frames, and no more frames than rows: 32 rounds of merges will do
  have hframes := query.frameCount_le table
  have hworkers : workers.length ≤ 2 ^ 32 := by
    rw [hlength, workersOn]
    omega
  have hyields := execute_yields (d := 32) haggregates created (List.ne_nil_of_mem hfirst)
    (hlength ▸ complete) hworkers
  rw [hlength] at hyields hanswer
  obtain ⟨report, hreport, ps, tree, hps, -, -, hgathered, hused⟩ := hyields.exists_ok (by
    simp only [Handle.offsetSpan]
    omega)
  refine ⟨report, supply', hanswer report hreport, ?_, hused⟩
  rw [hgathered]
  exact fun p hp f hf => hps.used_le complete.frames_perm hp hf

theorem checkGroupColumn_cases (query : Query Twap) (table : Table) :
    query.checkGroupColumn table = .ok () ∨
      ∃ column, query.groupBy = some column ∧ (table.column? column).any Column.isSymbols = false ∧
        query.checkGroupColumn table = .error (.unknownColumn column) := by
  unfold checkGroupColumn
  cases hgroup : query.groupBy with
  | none => exact .inl rfl
  | some column =>
    cases hsymbols : (table.column? column).any Column.isSymbols with
    | true => exact .inl (if_pos hsymbols)
    | false => exact .inr ⟨column, rfl, hsymbols, if_neg (by simp [hsymbols])⟩

/-- **A run has an answer, or the group column is refused.**  A query of averages that was accepted,
over any columns whatever, has no fault on a table of at most `2 ^ 32` rows, whoever gathers which
frames and whatever order the groups are gone through in, as long as the reservations for its arenas
are granted.  The ends of all frames fit into a machine word, and no arena comes near the offsets
that a handle can hold. -/
theorem runWith_safe {settings : Settings Twap} (accepted : settings.validate = .ok query)
    {columns : List (ℕ × ℕ)}
    (averages : settings.aggregates = columns.map fun c => Twap.ofColumns c.1 c.2)
    (reserved : settings.arenaReserve ≤ Arena.maxReservation)
    (word : settings.frameSize < wordSpan) (small : table.rowCount ≤ 2 ^ 32)
    (complete : (schedule (query.workersOn table)).Complete (query.workersOn table)
      (table.frameCount query.frameSize))
    (supply : IdSupply) :
    (∀ i < table.frameCount query.frameSize,
        i * query.frameSize + query.frameSize < wordSpan) ∧
      match query.runWith table schedule supply with
      | .ok (report, _) => query.checkGroupColumn table = .ok () ∧
          (∀ p ∈ report.gathered, ∀ f ∈ p.aggregates, f.arena.size ≤ 256 * table.rowCount) ∧
          ∀ f ∈ report.aggregates, f.arena.size ≤ 256 * ((32 + 1) * table.rowCount)
      | .error failure => ∃ column, query.groupBy = some column ∧
          (table.column? column).any Column.isSymbols = false ∧
          failure = .error (.unknownColumn column) := by
  have hsettings := Settings.toSettings_of_validate accepted
  rw [← hsettings] at averages reserved word
  refine ⟨fun i hi => frame_lt_wordSpan word small hi, ?_⟩
  have haggregates : query.aggregates =
      twapsOf (columns.map fun c => (.column c.1, .column c.2)) := by
    rw [averages, twapsOf, List.map_map]
    rfl
  rcases query.checkGroupColumn_cases table with hcolumn | ⟨column, hgroup, hsymbols, hcolumn⟩
  · obtain ⟨report, supply', hrun, hused⟩ :=
      exists_report haggregates hcolumn reserved small complete supply
    simp only [hrun, hcolumn]
    exact ⟨trivial, hused⟩
  · simp only [runWith, hcolumn]
    exact ⟨column, hgroup, hsymbols, rfl⟩

/-- Three rows in two frames, grouped by a column of symbols, with two averages, the second of which
reads columns that do not exist. -/
theorem runWith_safe_two :
    let table : Table := ⟨#[.symbols #["A", "B", "A"], .floats #[1.5, 2.5, 3.5],
      .timestamps #[1, 2, 3]], 3, by simp [Column.size]⟩
    let settings : Settings Twap := ⟨2, 2, some 0, 0, [Twap.ofColumns 1 2, Twap.ofColumns 7 8]⟩
    let schedule := Schedule.roundRobin (table.frameCount settings.frameSize)
    ∃ query report supply, settings.validate = .ok query ∧
      (∀ i < table.frameCount query.frameSize,
        i * query.frameSize + query.frameSize < wordSpan) ∧
      query.runWith table schedule {} = .ok (report, supply) ∧
      (∀ p ∈ report.gathered, ∀ f ∈ p.aggregates, f.arena.size ≤ 768) ∧
      ∀ f ∈ report.aggregates, f.arena.size ≤ 256 * 99 := by
  intro table settings schedule
  let query : Query Twap := ⟨settings, by decide, by decide, by simp [settings]⟩
  have accepted : settings.validate = .ok query := rfl
  have averages : settings.aggregates =
      [(1, 2), (7, 8)].map fun c => Twap.ofColumns c.1 c.2 := rfl
  have hworkers : 0 < query.workersOn table := workersOn_pos
  have complete : (schedule (query.workersOn table)).Complete (query.workersOn table)
      (table.frameCount query.frameSize) := Schedule.complete_roundRobin _ hworkers
  obtain ⟨hword, hrun⟩ := runWith_safe accepted averages (by decide) (by decide) (by decide)
    complete {}
  cases hends : query.runWith table schedule {} with
  | ok ended =>
    rw [hends] at hrun
    obtain ⟨-, hgathered, hread⟩ := hrun
    exact ⟨query, ended.1, ended.2, accepted, hword, hends, hgathered, hread⟩
  | error failure =>
    rw [hends] at hrun
    obtain ⟨column, hgroup, hsymbols, -⟩ := hrun
    cases hgroup
    cases hsymbols

end Query

end TimeWeighted
