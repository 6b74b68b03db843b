import Mathlib
import TimeWeighted.Aggregate.Recorder
import TimeWeighted.Proofs.Bytes.Utf8Order
import TimeWeighted.Proofs.Engine.Execution
import TimeWeighted.Proofs.Engine.Instances
import TimeWeighted.Proofs.Engine.Safety

/-!
# The shape of the answer

What a run answers, whatever the aggregates, the workers, the frames they take and the order groups
are gone through in: one row for every key of the table, in order, with one value for every
aggregate.  A group column that cannot be used is refused.  A reservation may be refused as well, an
aggregate may fault; nothing else keeps a run from its answer.

* `GroupKey.Before` : the order of the rows.
* `Report.Answers`, `Query.Answered` : the shape of the answer, and how a run may end.
* `Query.Stops`, `Query.exists_fault_iff` : what keeps a run from its answer, and that it does.
* `Query.execute_ends` : gathering, merging and reading under any schedule.
* `Query.runWith_answered` : **every run is answered.**
-/

namespace TimeWeighted

/-! ### The order of keys -/

/-- The order of the rows: the group without a symbol comes first, the others follow in the order of
the bytes of their UTF-8 encodings. -/
def GroupKey.Before : GroupKey → GroupKey → Prop
  | none, some _ => True
  | some s, some t => Utf8.bytes s < Utf8.bytes t
  | _, none => False

theorem GroupKey.before_of_le {a b : GroupKey} (h : le a b) (hne : a ≠ b) : a.Before b := by
  match a, b with
  | none, none => exact absurd rfl hne
  | none, some _ => trivial
  | some s, some t =>
    simp only [le, decide_eq_true_eq] at h
    exact Utf8.bytes_lt_bytes (lt_of_le_of_ne h fun heq => hne (congrArg some heq))

theorem pairwise_before {rows : List GroupRow} (hnodup : (rows.map (·.key)).Nodup)
    (hsorted : rows.Pairwise fun a b => GroupKey.le a.key b.key) :
    rows.Pairwise fun a b => a.key.Before b.key :=
  (hsorted.and (List.pairwise_map.1 hnodup)).imp fun h => GroupKey.before_of_le h.1 h.2

theorem Table.exists_keyOf_iff {table : Table} {c : ℕ} {cells : Array String}
    (h : table.column? c = some (.symbols cells)) (key : GroupKey) :
    (∃ i < table.rowCount, table.keyOf (some c) i = key) ↔ ∃ s ∈ cells, key = some s := by
  have hsize : cells.size = table.rowCount := table.size_eq _ (Array.mem_of_getElem? h)
  have hkey (i : ℕ) : table.keyOf (some c) i = cells[i]? := by
    change (table.row i).symbol c = _
    simp only [Row.symbol, Table.row, h]
  simp only [hkey, ← hsize]
  constructor
  · rintro ⟨i, hi, rfl⟩
    exact ⟨cells[i], Array.getElem_mem hi, Array.getElem?_eq_getElem hi⟩
  · rintro ⟨s, hs, rfl⟩
    obtain ⟨i, hi, rfl⟩ := Array.getElem_of_mem hs
    exact ⟨i, hi, Array.getElem?_eq_getElem hi⟩

/-! ### The shape of the answer -/

section

variable {φ : Type} [Aggregate φ]

/-- The report has the shape that the query and the table demand. -/
structure Report.Answers (report : Report φ) (query : Query φ) (table : Table)
    (performs : GroupKey → Operation φ → Prop) : Prop where
  /-- The keys of the rows are strictly increasing. -/
  increasing : report.rows.Pairwise fun a b => a.key.Before b.key
  /-- Each row holds one value for every factory, in their order, which an instance of it has read
  from a record of the group. -/
  values : ∀ row ∈ report.rows,
    List.Forall₂ (fun factory => factory.Reads performs row.key) query.aggregates row.values
  /-- Without a group column there is one row, for all rows of the table. -/
  total : query.groupBy = none → report.rows.map (·.key) = [none]
  /-- With a group column there are rows for its symbols, and no others. -/
  grouped : ∀ c, query.groupBy = some c → ∃ cells, table.column? c = some (.symbols cells) ∧
    ∀ key, key ∈ report.rows.map (·.key) ↔ ∃ s ∈ cells, key = some s

namespace Query

/-- The run ends as the query and the table demand, or with one of the faults that there may be. -/
structure Answered (query : Query φ) (table : Table) (schedule : ℕ → Schedule) (supply : IdSupply)
    (fails : Fault → Prop) : Prop where
  /-- A group column is refused exactly if it does not exist or does not hold symbols. -/
  refused_iff : ∀ c, query.runWith table schedule supply = .error (.error (.unknownColumn c)) ↔
    query.groupBy = some c ∧ ∀ cells, table.column? c ≠ some (.symbols cells)
  /-- Nothing else is wrong with a query. -/
  error_eq : ∀ error, query.runWith table schedule supply = .error (.error error) →
    ∃ c, error = .unknownColumn c
  /-- The faults. -/
  fails : ∀ fault, query.runWith table schedule supply = .error (.fault fault) → fails fault
  /-- The answer. -/
  answers : ∀ report supply', query.runWith table schedule supply = .ok (report, supply') →
    report.Answers query table (query.Performs table schedule supply)

/-- Why a run can fail whatever the aggregates are: the reservation for the arenas is refused, or
one of the operations that the run performs faults. -/
def Stops (query : Query φ) (table : Table) (schedule : ℕ → Schedule) (supply : IdSupply)
    (fault : Fault) : Prop :=
  (fault = .reservationTooLarge ∧ Arena.maxReservation < query.arenaReserve) ∨
    Faulted (query.Performs table schedule supply) fault

/-- The run comes to its answer, or to one of the faults. -/
def Concludes (query : Query φ) (table : Table) (schedule : ℕ → Schedule) (supply : IdSupply)
    (fails : Fault → Prop) : Prop :=
  match query.runWith table schedule supply with
  | .ok (report, _) => report.Answers query table (query.Performs table schedule supply)
  | .error failure => ∃ fault, failure = .fault fault ∧ fails fault

variable {query : Query φ} {table : Table} {workers : List (Partial φ)} {dealt : List (List ℕ)}
  {performs : GroupKey → Operation φ → Prop}

theorem Created.lists {p : Partial φ} (h : query.Created p) :
    p.Lists performs query.aggregates ∅ := by
  obtain ⟨supply, supply', hcreate⟩ := h
  obtain ⟨hmakes, hnil⟩ := Partial.create_makes hcreate
  exact ⟨hmakes.imp fun _ _ => .made, fun key => by simp [hnil]⟩

theorem gatherAll_ends (created : ∀ p ∈ workers, query.Created p)
    (hlength : dealt.length = workers.length)
    (hops : ∀ start frames done i rest p, (start, frames) ∈ workers.zip dealt →
      query.rowsOf table frames = done ++ i :: rest →
      start.gather query.groupBy table done = .ok p →
      ∀ op, (p.rowDemand query.groupBy (table.row i)).Performs op →
        performs (table.keyOf query.groupBy i) op) :
    Ends (Faulted performs)
      (fun ps => ps.length = workers.length ∧
        (∀ p ∈ ps, Descend performs query.aggregates p.aggregates) ∧
        ∀ key, (∃ p ∈ ps, key ∈ p.groups.keys) ↔
          ∃ i ∈ (dealt.map (query.rowsOf table)).flatten, table.keyOf query.groupBy i = key)
      (query.gatherAll table workers dealt) := by
  induction workers generalizing dealt with
  | nil =>
    rw [List.length_nil, List.length_eq_zero_iff] at hlength
    subst hlength
    exact ⟨rfl, by simp, by simp⟩
  | cons start workers ih =>
    cases dealt with
    | nil => simp at hlength
    | cons frames dealt =>
      obtain ⟨hstart, hworkers⟩ := List.forall_mem_cons.1 created
      rw [gatherAll]
      refine (hstart.lists.gather_ends fun done i rest p hrows hdone =>
        hops start frames done i rest p (List.mem_cons_self ..) hrows hdone).bind fun q _ hq => ?_
      refine (ih hworkers (Nat.succ_injective hlength) fun start' frames' done i rest p hmem =>
        hops start' frames' done i rest p (List.mem_cons_of_mem _ hmem)).bind fun qs _ hqs => ?_
      obtain ⟨hqslength, hdescend, hkeys⟩ := hqs
      refine ⟨congrArg (· + 1) hqslength, List.forall_mem_cons.2 ⟨hq.descend, hdescend⟩,
        fun key => ?_⟩
      simp only [List.mem_cons, List.map_cons, List.flatten_cons, List.mem_append, or_and_right,
        exists_or, exists_eq_left]
      rw [hkeys, hq.mem_keys]
      simp [rowsOf]

theorem reduce_ends {factories : List (Factory φ)} {order : List Branch → GroupOrder}
    {ps : List (Partial φ)} (hne : ps ≠ [])
    (horder : ∀ way groups, (order way groups).Perm groups)
    (hdescend : ∀ p ∈ ps, Descend performs factories p.aggregates)
    (hops : ∀ tree d, MergeTree.balanced? ps = some tree → tree.Merges order [] d →
      ∀ op, d.Performs op → performs d.key op) :
    Ends (Faulted performs)
      (fun last => ∃ q, last = some q ∧
        q.Lists performs factories {key | ∃ p ∈ ps, key ∈ p.groups.keys})
      (reduce order ps) := by
  obtain ⟨tree, htree⟩ := MergeTree.exists_balanced hne
  have hleaves := MergeTree.leaves_of_balanced htree
  rw [← hleaves] at hdescend
  simp only [reduce, htree]
  refine (Partial.foldM_ends horder hdescend fun d => hops tree d htree).bind
    fun q _ hq => ⟨q, rfl, ?_⟩
  rwa [hleaves] at hq

variable (table) in
theorem ensureTotal_ends {q : Partial φ} {keys : Set GroupKey}
    (h : q.Lists performs query.aggregates keys)
    (hkeys : ∀ key, key ∈ keys ↔ ∃ i < table.rowCount, table.keyOf query.groupBy i = key)
    (hops : query.groupBy = none → q.groups.find? none = none →
      ∀ op, q.totalDemand.Performs op → performs none op) :
    Ends (Faulted performs)
      (fun last => last.Lists performs query.aggregates
        {key | key ∈ table.groupKeys query.groupBy})
      (if query.groupBy.isNone then q.ensureTotal else pure q) := by
  cases hgroup : query.groupBy with
  | none =>
    refine (h.ensureTotal_ends (hops hgroup)).mono fun last hlast => hlast.congr fun key => ?_
    rw [Set.mem_insert_iff, hkeys, Set.mem_ofPred_eq, Table.mem_groupKeys, hgroup, or_comm]
    simp
  | some c =>
    refine (h.congr fun key => ?_ : q.Lists performs query.aggregates _)
    rw [hkeys, Set.mem_ofPred_eq, Table.mem_groupKeys, hgroup]
    simp

/-- **What a run answers under any schedule**: rows for the keys of the table. -/
theorem execute_ends (created : ∀ p ∈ workers, query.Created p) (hne : workers ≠ [])
    {schedule : Schedule}
    (complete : schedule.Complete workers.length (table.frameCount query.frameSize))
    (hops : ∀ d, query.Demands table schedule workers d →
      ∀ op, d.Performs op → performs d.key op) :
    Ends (Faulted performs)
      (fun report => (report.rows.map (·.key)).Nodup ∧
        (∀ key, key ∈ report.rows.map (·.key) ↔ key ∈ table.groupKeys query.groupBy) ∧
        report.rows.Pairwise (fun a b => GroupKey.le a.key b.key) ∧
        ∀ row ∈ report.rows, List.Forall₂ (fun factory => factory.Reads performs row.key)
          query.aggregates row.values)
      (query.execute table schedule workers) := by
  rw [execute]
  refine (gatherAll_ends created complete.workers_eq fun start frames done i rest p hworker hrows
    hdone => hops _ (.gather hworker hrows hdone)).bind ?_
  rintro ps hgather ⟨hpslength, hdescend, hkeys⟩
  have hpsne : ps ≠ [] := by
    rw [← List.length_pos_iff, hpslength, List.length_pos_iff]
    exact hne
  refine (reduce_ends hpsne complete.mergeOrder_perm hdescend fun tree d htree hd =>
    hops d (.merge hgather htree hd)).bind ?_
  rintro _ hreduce ⟨q, rfl, hq⟩
  have hlast := ensureTotal_ends table hq (fun key => by
    rw [Set.mem_ofPred_eq, hkeys]
    simp only [(flatten_rowsOf_perm complete.frames_perm).mem_iff, List.mem_range])
    fun hgroup hnone => hops _ (.total hgather hreduce hgroup hnone)
  simp only
  rw [ite_bind]
  refine hlast.bind fun last htotal hlast => ?_
  refine (hlast.finish_ends (complete.readOrder_perm _) fun done group rest gs rows hgroups hdone =>
    hops _ (.read hgather hreduce htotal hgroups hdone)).bind fun x _ hx => ?_
  exact hx

/-! ### Every run is answered -/

theorem isSymbols_iff {column : Option Column} :
    column.any Column.isSymbols = true ↔ ∃ cells, column = some (.symbols cells) := by
  rcases column with _ | (_ | _ | _) <;> simp [Column.isSymbols]

omit [Aggregate φ] in
theorem checkGroupColumn_eq_error_iff {error : Error} :
    query.checkGroupColumn table = .error error ↔ ∃ c, error = .unknownColumn c ∧
      query.groupBy = some c ∧ ∀ cells, table.column? c ≠ some (.symbols cells) := by
  unfold checkGroupColumn
  cases hgroup : query.groupBy with
  | none => simp
  | some c =>
    simp only
    by_cases h : (table.column? c).any Column.isSymbols = true
    · obtain ⟨cells, hcells⟩ := isSymbols_iff.1 h
      rw [if_pos h]
      constructor
      · intro herror
        cases herror
      · rintro ⟨c', -, hc', hnone⟩
        rw [← Option.some.inj hc'] at hnone
        exact absurd hcells (hnone cells)
    · rw [if_neg h, Except.error.injEq]
      refine ⟨fun herror => ⟨c, herror.symm, rfl, fun cells hcells => ?_⟩, ?_⟩
      · exact h (isSymbols_iff.2 ⟨cells, hcells⟩)
      · rintro ⟨c', rfl, hc', -⟩
        rw [Option.some.inj hc']

omit [Aggregate φ] in
theorem exists_symbols (hcolumn : query.checkGroupColumn table = .ok ()) {c : ℕ}
    (hgroup : query.groupBy = some c) : ∃ cells, table.column? c = some (.symbols cells) := by
  by_contra hnone
  rw [checkGroupColumn_eq_error_iff.2 ⟨c, rfl, hgroup, not_exists.1 hnone⟩] at hcolumn
  cases hcolumn

theorem answers_of_keys {report : Report φ} (hcolumn : query.checkGroupColumn table = .ok ())
    (hnodup : (report.rows.map (·.key)).Nodup)
    (hkeys : ∀ key, key ∈ report.rows.map (·.key) ↔ key ∈ table.groupKeys query.groupBy)
    (hsorted : report.rows.Pairwise fun a b => GroupKey.le a.key b.key)
    (hvalues : ∀ row ∈ report.rows, List.Forall₂ (fun factory => factory.Reads performs row.key)
      query.aggregates row.values) :
    report.Answers query table performs where
  increasing := pairwise_before hnodup hsorted
  values := hvalues
  total hgroup := by
    have hperm : (report.rows.map (·.key)).Perm [none] := by
      refine (List.perm_ext_iff_of_nodup hnodup (List.nodup_singleton _)).2 fun key => ?_
      rw [hkeys, hgroup, Table.groupKeys]
    exact List.perm_singleton.1 hperm
  grouped c hgroup := by
    obtain ⟨cells, hcells⟩ := exists_symbols hcolumn hgroup
    refine ⟨cells, hcells, fun key => ?_⟩
    rw [hkeys, hgroup, Table.mem_groupKeys, ← Table.exists_keyOf_iff hcells]
    simp

omit [Aggregate φ] in
theorem refused_iff_of_error {error : Error}
    (hcolumn : query.checkGroupColumn table = .error error) (c : ℕ) :
    error = .unknownColumn c ↔
      query.groupBy = some c ∧ ∀ cells, table.column? c ≠ some (.symbols cells) := by
  constructor
  · rintro rfl
    obtain ⟨c', hc, hgroup⟩ := checkGroupColumn_eq_error_iff.1 hcolumn
    rwa [Error.unknownColumn.inj hc]
  · intro hgroup
    have hrefused := checkGroupColumn_eq_error_iff.2 ⟨c, rfl, hgroup⟩
    rw [hcolumn] at hrefused
    exact Except.error.inj hrefused

section

variable {schedule : ℕ → Schedule} {supply : IdSupply} {fails : Fault → Prop}

theorem answered_of_error {error : Error} (hcolumn : query.checkGroupColumn table = .error error) :
    query.Answered table schedule supply fails := by
  have hrun : query.runWith table schedule supply = .error (.error error) := by
    simp only [runWith, hcolumn]
  constructor
  · intro c
    rw [hrun, Except.error.injEq, Failure.error.injEq, refused_iff_of_error hcolumn]
  · intro error' herror
    rw [hrun] at herror
    cases herror
    exact (checkGroupColumn_eq_error_iff.1 hcolumn).imp fun _ => And.left
  · intro fault hfault
    rw [hrun] at hfault
    cases hfault
  · intro report supply' hok
    rw [hrun] at hok
    cases hok

theorem answered_of_ok (hcolumn : query.checkGroupColumn table = .ok ())
    (h : query.Concludes table schedule supply fails) :
    query.Answered table schedule supply fails := by
  have hrefused (c : ℕ) : ¬(query.groupBy = some c ∧
      ∀ cells, table.column? c ≠ some (.symbols cells)) := by
    rintro ⟨hgroup, hnone⟩
    obtain ⟨cells, hcells⟩ := exists_symbols hcolumn hgroup
    exact hnone cells hcells
  constructor
  · refine fun c => iff_of_false (fun hrun => ?_) (hrefused c)
    simp only [Concludes, hrun] at h
    obtain ⟨fault, heq, -⟩ := h
    cases heq
  · intro error hrun
    simp only [Concludes, hrun] at h
    obtain ⟨fault, heq, -⟩ := h
    cases heq
  · intro fault hrun
    simp only [Concludes, hrun] at h
    obtain ⟨_, heq, hfails⟩ := h
    cases heq
    exact hfails
  · intro report supply' hrun
    simp only [Concludes, hrun] at h
    exact h

theorem answered_runWith
    (h : query.checkGroupColumn table = .ok () → query.Concludes table schedule supply fails) :
    query.Answered table schedule supply fails := by
  cases hcolumn : query.checkGroupColumn table with
  | error error => exact answered_of_error hcolumn
  | ok _ => exact answered_of_ok hcolumn (h hcolumn)

variable (supply) in
theorem runWith_concludes (hcolumn : query.checkGroupColumn table = .ok ())
    (complete : ∀ n, 0 < n → (schedule n).Complete n (table.frameCount query.frameSize)) :
    query.Concludes table schedule supply (query.Stops table schedule supply) := by
  rcases Nat.lt_or_ge Arena.maxReservation query.arenaReserve with hreserve | hreserve
  · rw [Concludes, runWith_of_lt hcolumn hreserve]
    exact ⟨_, rfl, .inl ⟨rfl, hreserve⟩⟩
  · obtain ⟨workers, supply', hprepare⟩ := prepare_of_le hreserve table supply
    obtain ⟨created, first, hfirst, -⟩ := prepare_of_ok hprepare
    have hops : ∀ d, query.Demands table (schedule workers.length) workers d →
        ∀ op, d.Performs op → query.Performs table schedule supply d.key op :=
      fun d hd op hop => ⟨workers, supply', d, hprepare, hd, rfl, hop⟩
    have hends := execute_ends created (List.ne_nil_of_mem hfirst)
      (complete _ (List.length_pos_of_mem hfirst)) hops
    cases hresult : query.execute table (schedule workers.length) workers with
    | error fault =>
      simp only [Concludes, runWith, hcolumn, hprepare, hresult]
      rw [hresult] at hends
      exact ⟨fault, rfl, .inr hends⟩
    | ok report =>
      simp only [Concludes, runWith, hcolumn, hprepare, hresult]
      rw [hresult] at hends
      obtain ⟨hnodup, hkeys, hsorted, hvalues⟩ := hends
      exact answers_of_keys hcolumn hnodup hkeys hsorted hvalues

/-- Nothing but what stops a run keeps it from its answer, and all of that does. -/
theorem exists_fault_iff
    (complete : ∀ n, 0 < n → (schedule n).Complete n (table.frameCount query.frameSize)) :
    (∃ fault, query.runWith table schedule supply = .error (.fault fault)) ↔
      query.checkGroupColumn table = .ok () ∧ ∃ fault, query.Stops table schedule supply fault := by
  constructor
  · rintro ⟨fault, hrun⟩
    cases hcolumn : query.checkGroupColumn table with
    | error error => simp [runWith, hcolumn] at hrun
    | ok _ =>
      have hconcludes := runWith_concludes supply hcolumn complete
      simp only [Concludes, hrun] at hconcludes
      obtain ⟨fault, -, hstops⟩ := hconcludes
      exact ⟨rfl, fault, hstops⟩
  · rintro ⟨hcolumn, fault, ⟨-, hreserve⟩ | ⟨_, op, ⟨workers, supply', d, hprepare, hd, rfl, hop⟩,
      hfault⟩⟩
    · exact ⟨_, runWith_of_lt hcolumn hreserve schedule supply⟩
    · obtain ⟨fault', hexecute⟩ := hd.breaks (hop.breaks ⟨fault, hfault⟩)
      exact ⟨fault', by simp only [runWith, hcolumn, hprepare, hexecute]⟩

end

end Query

end

/-- **Every run is answered.**  Whatever the table, the aggregates, the frames that the workers take
and the order the groups are gone through in: a group column that cannot be used is refused, and
otherwise there is an answer, unless the reservation for the arenas is refused or an operation that
the run performs faults.  Averages do not fault in a table of up to `2 ^ 34` rows. -/
theorem Query.runWith_answered (table : Table) (schedule : ℕ → Schedule) (supply : IdSupply) :
    (∀ (φ : Type) [Aggregate φ] (query : Query φ),
      (∀ n, 0 < n → (schedule n).Complete n (table.frameCount query.frameSize)) →
        query.Answered table schedule supply (query.Stops table schedule supply) ∧
        ((∃ fault, query.runWith table schedule supply = .error (.fault fault)) ↔
          query.checkGroupColumn table = .ok () ∧
            ∃ fault, query.Stops table schedule supply fault)) ∧
    ∀ (query : Query Twap) (sources : List (Source × Source)),
      query.aggregates = twapsOf sources →
      (∀ n, 0 < n → (schedule n).Complete n (table.frameCount query.frameSize)) →
        query.Answered table schedule supply fun fault => query.LacksRoom table (.fault fault) := by
  refine ⟨fun φ _ query complete => ⟨answered_runWith fun hcolumn =>
    runWith_concludes supply hcolumn complete, exists_fault_iff complete⟩,
    fun query sources haggregates complete => answered_runWith fun hcolumn => ?_⟩
  have hconcludes := runWith_concludes supply hcolumn complete
  have hyields := runWith_yields haggregates hcolumn (complete _ workersOn_pos) supply
  unfold Concludes at hconcludes ⊢
  cases hrun : query.runWith table schedule supply with
  | ok result =>
    rw [hrun] at hconcludes
    exact hconcludes
  | error failure =>
    rw [hrun] at hconcludes hyields
    obtain ⟨fault, rfl, -⟩ := hconcludes
    exact ⟨fault, rfl, hyields⟩

/-- Two workers gather averages of three groups, one of which has no valid row; and averages that
write down their calls, of two groups that are gathered apart. -/
theorem Query.runWith_answered_two :
    let table : Table := ⟨#[.symbols #["B", "C", "B", "A"], .floats #[1.5, missingValue, 3.5, 2.5],
      .timestamps #[4, 2, 3, 1]], 4, by simp [Column.size]⟩
    let sources : List (Source × Source) := [(.column 1, .column 2), (.column 7, .column 2)]
    let query : Query Twap := ⟨⟨2, 2, some 0, 0, twapsOf sources⟩, by decide, by decide, by
      simp [sources, twapsOf]⟩
    let short : Table := ⟨#[.symbols #["B", "A"], .floats #[1.5, 2.5],
      .timestamps #[4, Timestamp.null]], 2, by simp [Column.size]⟩
    let observed : Query (Recorder Twap) := ⟨⟨2, 1, some 0, 0,
      [Recorder.observing (Twap.ofColumns 1 2)]⟩, by decide, by decide, by simp⟩
    let schedule := Schedule.roundRobin 2
    (∃ report supply, query.runWith table schedule {} = .ok (report, supply) ∧
      report.Answers query table (query.Performs table schedule {})) ∧
    ∃ report supply, observed.runWith short schedule {} = .ok (report, supply) ∧
      report.Answers observed short (observed.Performs short schedule {}) ∧
      ∀ fault, ¬observed.Stops short schedule {} fault := by
  intro table sources query short observed schedule
  have hframes : table.frameCount query.frameSize = 2 := by decide
  have hframes' : short.frameCount observed.frameSize = 2 := by decide
  have complete : ∀ n, 0 < n → (schedule n).Complete n 2 :=
    fun n hn => Schedule.complete_roundRobin 2 hn
  constructor
  · have hanswered := (runWith_answered table schedule {}).2 query sources rfl
      (hframes ▸ complete)
    cases hrun : query.runWith table schedule {} with
    | ok result => exact ⟨result.1, result.2, rfl, hanswered.answers _ _ hrun⟩
    | error failure =>
      cases failure with
      | error error =>
        obtain ⟨c, rfl⟩ := hanswered.error_eq _ hrun
        obtain ⟨hgroup, hnone⟩ := (hanswered.refused_iff c).1 hrun
        cases hgroup
        exact absurd rfl (hnone _)
      | fault fault =>
        have hfails := hanswered.fails _ hrun
        exact absurd hfails (by simp [LacksRoom, query, table])
  · obtain ⟨hanswered, hfault⟩ := (runWith_answered short schedule {}).1 _ observed
      (hframes' ▸ complete)
    have hok : (observed.runWith short schedule {}).isOk = true := by decide +kernel
    cases hrun : observed.runWith short schedule {} with
    | error failure =>
      rw [hrun] at hok
      cases hok
    | ok result =>
      refine ⟨result.1, result.2, rfl, hanswered.answers _ _ hrun, fun fault hstops => ?_⟩
      obtain ⟨fault', hfault'⟩ := hfault.2 ⟨rfl, fault, hstops⟩
      rw [hrun] at hfault'
      cases hfault'

/-- A reservation that no block of memory can hold is not an unknown column, and yet there is no
answer. -/
theorem Query.run_reservation_refused :
    let table : Table := ⟨#[.floats #[1], .timestamps #[0]], 1, by simp [Column.size]⟩
    let settings : Settings Twap := ⟨4, 1024, none, 0x8000000000000000, [Twap.ofColumns 0 1]⟩
    ∃ query, settings.validate = .ok query ∧ query.groupBy = none ∧
      query.run table {} = .error (.fault .reservationTooLarge) := by
  intro table settings
  let query : Query Twap := ⟨settings, by decide, by decide, by simp [settings]⟩
  have hreserve : Arena.maxReservation < query.arenaReserve := by decide
  exact ⟨query, rfl, rfl, runWith_of_lt rfl hreserve _ _⟩

end TimeWeighted
