import Mathlib
import TimeWeighted.Proofs.Engine.Sequential

/-!
# Parallel and sequential runs

Whatever frames the workers are dealt and in whatever order groups are gone through, a run gathers,
merges and reads the same entries.  If the order of the workers cannot show in them, its answer is
the sequential one.

* `Query.Gathered` : the partial results of workers.
* `Query.execute_yields` : what a run computes under any schedule.
* `Query.runWith_eq_sequential` : **a parallel run gives the sequential answer.**
-/

namespace TimeWeighted

open Observation

namespace Query

/-! ### What a run computes -/

section

variable {query : Query Twap} {sources : List (Source × Source)} {table : Table} {need d : ℕ}
  {workers ps : List (Partial Twap)} {dealt : List (List ℕ)} {schedule : Schedule}

/-- Partial results that workers gathered, each from the frames it was dealt. -/
def Gathered (query : Query Twap) (sources : List (Source × Source)) (table : Table)
    (dealt : List (List ℕ)) (ps : List (Partial Twap)) : Prop :=
  ∃ gs : List Gathering, List.Forall₂ (fun g p => g.Makes sources p) gs ps ∧
    gs.map (·.rows) = dealt.map (query.rowsOf table) ∧
    ∀ g ∈ gs, g.table = table ∧ g.groupBy = query.groupBy

theorem gatherAll_yields (haggregates : query.aggregates = twapsOf sources)
    (created : ∀ p ∈ workers, query.Created p) (hlength : dealt.length = workers.length)
    (hneed : ∀ frames ∈ dealt, 256 * (query.rowsOf table frames).length ≤ need) :
    Yields need (query.Gathered sources table dealt) (query.gatherAll table workers dealt) := by
  induction workers generalizing dealt with
  | nil =>
    rw [List.length_nil, List.length_eq_zero_iff] at hlength
    subst hlength
    exact Yields.of_ok rfl ⟨[], .nil, rfl, by simp⟩
  | cons p workers ih =>
    cases dealt with
    | nil => simp at hlength
    | cons frames dealt =>
      obtain ⟨hp, hworkers⟩ := List.forall_mem_cons.1 created
      obtain ⟨hframes, hdealt⟩ := List.forall_mem_cons.1 hneed
      obtain ⟨supply, supply', hcreate⟩ := hp
      rw [haggregates] at hcreate
      obtain ⟨hrep, hnil⟩ := Partial.Represents.of_create hcreate
      have hgather := hrep.gather_yields hnil query.groupBy table (query.rowsOf table frames)
        hframes
      have hrest := ih hworkers (Nat.succ_injective hlength) hdealt
      rw [gatherAll]
      change Yields need _ (p.gather query.groupBy table (query.rowsOf table frames) >>= _)
      cases hq : p.gather query.groupBy table (query.rowsOf table frames) with
      | error fault =>
        rw [hq] at hgather
        exact hgather
      | ok q =>
        rw [ok_bind]
        refine hrest.bind ?_
        rintro qs ⟨gs, hmade, hrows, hsame⟩
        refine Yields.of_ok rfl ⟨⟨query.arenaReserve, supply, query.groupBy, table,
          query.rowsOf table frames⟩ :: gs, .cons ⟨p, supply', hcreate, hq⟩ hmade, ?_, ?_⟩
        · rw [List.map_cons, List.map_cons, hrows]
        · exact List.forall_mem_cons.2 ⟨⟨rfl, rfl⟩, hsame⟩

theorem Gathered.makes (h : query.Gathered sources table dealt ps) :
    ∀ p ∈ ps, ∃ g : Gathering, g.Makes sources p ∧ g.table = table ∧
      g.groupBy = query.groupBy ∧ g.rows ∈ dealt.map (query.rowsOf table) := by
  obtain ⟨gs, hmade, hrows, hsame⟩ := h
  intro p hp
  obtain ⟨i, hi, rfl⟩ := List.getElem_of_mem hp
  have hi' : i < gs.length := hmade.length_eq ▸ hi
  obtain ⟨htable, hgroup⟩ := hsame _ (List.getElem_mem hi')
  exact ⟨gs[i], hmade.get hi' hi, htable, hgroup,
    hrows ▸ List.mem_map_of_mem (List.getElem_mem hi')⟩

theorem Gathered.flatMap_contents (h : query.Gathered sources table dealt ps) {k : ℕ}
    (hk : k < sources.length) (key : GroupKey) :
    ps.flatMap (·.contents k key) =
      ((dealt.map (query.rowsOf table)).flatten.filter fun i =>
        table.keyOf query.groupBy i = key ∧ (observing sources k (table.row i)).isValid).map
        fun i => observing sources k (table.row i) := by
  obtain ⟨gs, hmade, hrows, hsame⟩ := h
  rw [← hrows]
  clear hrows
  induction hmade with
  | nil => rfl
  | cons hmakes hrest ih =>
    obtain ⟨⟨htable, hgroup⟩, hsame⟩ := List.forall_mem_cons.1 hsame
    rw [List.flatMap_cons, ih hsame, hmakes.contents_eq hk, htable, hgroup, List.map_cons,
      List.flatten_cons, List.filter_append, List.map_append]

theorem Gathered.mem_keys (h : query.Gathered sources table dealt ps) (key : GroupKey) :
    (∃ p ∈ ps, key ∈ p.groups.keys) ↔
      ∃ i ∈ (dealt.map (query.rowsOf table)).flatten, table.keyOf query.groupBy i = key := by
  obtain ⟨gs, hmade, hrows, hsame⟩ := h
  rw [← hrows]
  clear hrows
  induction hmade with
  | nil => simp
  | cons hmakes hrest ih =>
    obtain ⟨⟨htable, hgroup⟩, hsame⟩ := List.forall_mem_cons.1 hsame
    simp only [List.mem_cons, List.map_cons, List.flatten_cons, List.mem_append, or_and_right,
      exists_or, exists_eq_left]
    rw [ih hsame, hmakes.represents.2, htable, hgroup, List.mem_map]

theorem Gathered.sum_rows (h : query.Gathered sources table dealt ps)
    (hperm : dealt.flatten.Perm (List.range (table.frameCount query.frameSize)))
    {K : Finset GroupKey} (hK : ∀ p ∈ ps, ∀ key ∈ p.groups.keys, key ∈ K) {k : ℕ}
    (hk : k < sources.length) : (ps.map (·.load K k)).sum ≤ table.rowCount := by
  obtain ⟨gs, hmade, hrows, -⟩ := h
  refine (sum_load_le hmade hK hk).trans (le_of_eq ?_)
  have hlength := (flatten_rowsOf_perm hperm).length_eq
  rw [← hrows, List.length_flatten, List.map_map, List.length_range] at hlength
  exact hlength

theorem Gathered.length_eq (h : query.Gathered sources table dealt ps) :
    ps.length = dealt.length := by
  obtain ⟨gs, hmade, hrows, -⟩ := h
  have hlength := congrArg List.length hrows
  rw [List.length_map, List.length_map] at hlength
  rw [← hmade.length_eq, hlength]

/-- The partial result that is read has the keys of the output: if there is nothing to group by, the
group of all rows is added where it was missing. -/
theorem exists_read (query : Query Twap) {q : Partial Twap} {m : ℕ}
    {observe : ℕ → Row → Observation} {account : ℕ → Account} (hq : q.Represents m observe account)
    (hkeys : ∀ key, key ∈ q.groups.keys ↔
      ∃ i < table.rowCount, table.keyOf query.groupBy i = key) :
    ∃ last, (if query.groupBy.isNone then q.ensureTotal else pure q) = .ok last ∧
      last.Represents m observe account ∧
      ∀ key, key ∈ last.groups.keys ↔ key ∈ table.groupKeys query.groupBy := by
  cases hgroup : query.groupBy with
  | some c =>
    refine ⟨q, rfl, hq, fun key => ?_⟩
    rw [Table.mem_groupKeys, hkeys, hgroup]
    simp
  | none =>
    obtain ⟨last, hlast, hrep, hlastKeys⟩ := hq.ensureTotal_ok
    refine ⟨last, hlast, hrep, fun key => ?_⟩
    have hnone : ∀ key, key ∈ q.groups.keys → key = none := by
      intro key hkey
      obtain ⟨i, -, rfl⟩ := (hkeys key).1 hkey
      rw [Table.keyOf, hgroup]
      rfl
    rw [hlastKeys, or_iff_left_of_imp (hnone key), Table.groupKeys, List.mem_singleton]

theorem exists_rows (query : Query Twap) {q : Partial Twap} {m : ℕ}
    {observe : ℕ → Row → Observation} {account : ℕ → Account} (hq : q.Represents m observe account)
    (hkeys : ∀ key, key ∈ q.groups.keys ↔
      ∃ i < table.rowCount, table.keyOf query.groupBy i = key) {order : GroupOrder}
    (horder : ∀ groups, (order groups).Perm groups) :
    ∃ last fs, (if query.groupBy.isNone then q.ensureTotal else pure q) = .ok last ∧
      last.finish order = .ok (fs, (table.groupKeys query.groupBy).map fun key =>
        ⟨key, Partial.averages m account key⟩) ∧
      ∀ f ∈ fs, ∃ k < m, f.arena.size = (account k).used := by
  obtain ⟨last, hlast, hrep, hlastKeys⟩ := query.exists_read hq hkeys
  obtain ⟨fs, hfinish, hused⟩ := hrep.finish_eq (horder _)
  have hsort : last.groups.keys.mergeSort GroupKey.le = table.groupKeys query.groupBy :=
    Table.mergeSort_eq_groupKeys last.groups.nodup_keys hlastKeys
  rw [hsort] at hfinish
  exact ⟨last, fs, hlast, hfinish, hused⟩

/-- The averages of one group, merged along a tree. -/
def averagesOf (m : ℕ) (tree : MergeTree (Partial Twap)) (key : GroupKey) : List Float :=
  (List.range m).map fun k => average
    (tree.fold (fun p => p.contents k key) fun l m => l.merge m Shelf.le)

theorem length_rowsOf_le {frames : List ℕ} (hframes : frames ∈ dealt)
    (hperm : dealt.flatten.Perm (List.range (table.frameCount query.frameSize))) :
    (query.rowsOf table frames).length ≤ table.rowCount := by
  have hlength := (flatten_rowsOf_perm hperm).length_eq
  rw [List.length_flatten, List.length_range] at hlength
  rw [← hlength]
  exact List.le_sum_of_mem (List.mem_map_of_mem (List.mem_map_of_mem hframes))

theorem Gathered.used_le (h : query.Gathered sources table dealt ps)
    (hperm : dealt.flatten.Perm (List.range (table.frameCount query.frameSize)))
    {p : Partial Twap} (hp : p ∈ ps) {f : Twap} (hf : f ∈ p.aggregates) :
    f.arena.size ≤ 256 * table.rowCount := by
  obtain ⟨g, hg, -, -, hrows⟩ := h.makes p hp
  obtain ⟨frames, hframes, hrows⟩ := List.mem_map.1 hrows
  have hrep := hg.represents.1
  obtain ⟨k, hk, hused⟩ := hrep.serve.exists_used hrep.length_eq hf
  have hbytes := Account.used_ofRows_le
    (g.table.readings g.groupBy (observing sources k) g.rows)
  rw [Table.length_readings, ← hrows] at hbytes
  rw [hused, ← hrows]
  exact hbytes.trans (Nat.mul_le_mul_left _ (length_rowsOf_le hframes hperm))

theorem Gathered.reduce_yields (h : query.Gathered sources table schedule.frames ps) (hne : ps ≠ [])
    (complete : schedule.Complete workers.length (table.frameCount query.frameSize))
    (hlength : ps.length ≤ 2 ^ d) :
    Yields (256 * ((d + 1) * table.rowCount)) (fun last => ∃ q tree account, last = some q ∧
        MergeTree.leaves tree = ps ∧
        q.Represents sources.length (observing sources) account ∧
        (∀ k < sources.length, (account k).used ≤ 256 * ((d + 1) * table.rowCount)) ∧
        (∀ key, key ∈ q.groups.keys ↔ ∃ i < table.rowCount, table.keyOf query.groupBy i = key) ∧
        ∀ key, Partial.averages sources.length account key = averagesOf sources.length tree key)
      (reduce schedule.mergeOrder ps) := by
  obtain ⟨K, hK⟩ := Partial.exists_keys ps
  have holding : ∀ p ∈ ps, p.Holding K sources.length (observing sources) 0 := by
    intro p hp
    obtain ⟨g, hg, -⟩ := h.makes p hp
    exact hg.holding (hK p hp)
  refine (Query.reduce_yields hne complete.mergeOrder_perm holding
    (fun k hk => h.sum_rows complete.frames_perm hK hk) hlength).mono le_rfl ?_
  rintro last ⟨q, tree, account, rfl, hleaves, hq, hused, hkeys, hcontents⟩
  refine ⟨q, tree, account, rfl, hleaves, hq, hused, fun key => ?_, fun key => ?_⟩
  · rw [hkeys, h.mem_keys]
    simp only [(flatten_rowsOf_perm complete.frames_perm).mem_iff, List.mem_range]
  · refine List.map_congr_left fun k hk => ?_
    rw [← hcontents k (List.mem_range.1 hk) key, hq.contents_eq (List.mem_range.1 hk)]

/-- **What a run computes under any schedule**: one row for every key of the table, with the
averages of what all workers have gathered, merged along some tree.  No more bytes of an arena are
in use in the end than every row may take in every round of merges. -/
theorem execute_yields (haggregates : query.aggregates = twapsOf sources)
    (created : ∀ p ∈ workers, query.Created p) (hne : workers ≠ [])
    (complete : schedule.Complete workers.length (table.frameCount query.frameSize))
    (hlength : workers.length ≤ 2 ^ d) :
    Yields (256 * ((d + 1) * table.rowCount)) (fun report => ∃ ps tree,
        query.Gathered sources table schedule.frames ps ∧ MergeTree.leaves tree = ps ∧
        report.rows = ((table.groupKeys query.groupBy).map fun key =>
          ⟨key, averagesOf sources.length tree key⟩) ∧
        report.gathered = ps ∧
        ∀ f ∈ report.aggregates, f.arena.size ≤ 256 * ((d + 1) * table.rowCount))
      (query.execute table schedule workers) := by
  have hneed : ∀ frames ∈ schedule.frames, 256 * (query.rowsOf table frames).length ≤
      256 * ((d + 1) * table.rowCount) := fun frames hframes =>
    Nat.mul_le_mul_left _ ((length_rowsOf_le hframes complete.frames_perm).trans
      (Nat.le_mul_of_pos_left _ (Nat.succ_pos d)))
  rw [execute]
  refine (gatherAll_yields haggregates created complete.workers_eq hneed).bind ?_
  intro ps hps
  have hpslength : ps.length = workers.length := hps.length_eq.trans complete.workers_eq
  have hpsne : ps ≠ [] := by
    rw [← List.length_pos_iff, hpslength, List.length_pos_iff]
    exact hne
  refine (hps.reduce_yields hpsne complete (hpslength.trans_le hlength)).bind ?_
  rintro _ ⟨q, tree, account, rfl, hleaves, hq, hbytes, hkeys, haverages⟩
  obtain ⟨last, fs, hlast, hfinish, hused⟩ := query.exists_rows hq hkeys complete.readOrder_perm
  simp only [haverages] at hfinish
  refine Yields.of_ok (a := ⟨_, ps, fs⟩) ((ite_bind ..).trans ?_)
    ⟨ps, tree, hps, hleaves, rfl, rfl, fun f hf => ?_⟩
  · rw [hlast]
    simp only [ok_bind, hfinish]
    rfl
  · obtain ⟨k, hk, hsize⟩ := hused f hf
    exact hsize.trans_le (hbytes k hk)

end

/-! ### The answer of a run -/

section

variable {query : Query Twap} {sources : List (Source × Source)} {table : Table}
  {ps : List (Partial Twap)} {n : ℕ}

theorem observing_of_lt {k : ℕ} (hk : k < sources.length) :
    observing sources k = reading sources[k] := by
  simp [observing, List.getElem?_eq_getElem hk]

/-- If the order of the workers cannot show, merging what they have gathered gives the valid
observations in the order of the table. -/
theorem Gathered.fold_eq {schedule : Schedule} {tree : MergeTree (Partial Twap)}
    (h : query.Gathered sources table schedule.frames (MergeTree.leaves tree))
    (deals : schedule.Deals n (table.frameCount query.frameSize))
    (orderly : query.Orderly sources table schedule) {k : ℕ} (hk : k < sources.length)
    (key : GroupKey) :
    (tree.fold (fun p => p.contents k key) fun l m => l.merge m Shelf.le) =
      (table.validRows query.groupBy (observing sources k) key).map
        fun i => observing sources k (table.row i) := by
  have hperm := flatten_rowsOf_perm deals.frames_perm
  have ascending : ∀ rows ∈ schedule.frames.map (query.rowsOf table), rows.Pairwise (· < ·) := by
    intro rows hrows
    obtain ⟨frames, hframes, rfl⟩ := List.mem_map.1 hrows
    exact pairwise_rowsOf (deals.ascending frames hframes)
  have inOrder := orderly.inOrder sources[k] (List.getElem_mem hk) key
  have together := orderly.together sources[k] (List.getElem_mem hk) key
  rw [← observing_of_lt hk] at inOrder together
  rw [InOrder, List.pairwise_map] at inOrder
  have sorted : ∀ p ∈ tree.leaves, (p.contents k key).Pairwise (Shelf.le · ·) := by
    intro p hp
    obtain ⟨g, hg, htable, hgroup, hrows⟩ := h.makes p hp
    rw [hg.contents_eq hk, htable, hgroup, List.pairwise_map]
    have hsub := (sublist_range (n := table.rowCount) (ascending _ hrows) fun i hi =>
      List.mem_range.1 (hperm.mem_iff.1 (List.mem_flatten_of_mem hrows hi))).filter fun i =>
        table.keyOf query.groupBy i = key ∧ (observing sources k (table.row i)).isValid
    exact (inOrder.sublist hsub).imp fun hle => by simpa [Shelf.le] using hle
  rw [MergeTree.fold_merge Shelf.le_trans Shelf.le_total (·.contents k key) tree sorted,
    h.flatMap_contents hk key, Table.validRows, ← mergeSort_dealt hperm ascending inOrder]
  · exact (List.map_mergeSort (s := Shelf.le) fun _ _ _ _ => rfl).symm
  · intro i hi j hj hts rows hrows
    obtain ⟨frames, hframes, rfl⟩ := List.mem_map.1 hrows
    exact together i hi j hj hts frames hframes

/-- The number of workers of a run whose partial results can be merged. -/
def workersOn {φ : Type} (query : Query φ) (table : Table) : ℕ :=
  max (min query.workers (table.frameCount query.frameSize)) 1

/-- Why a run of averages can fail: the arenas cannot be made as large as asked for, or more than
`2 ^ 34` rows exhaust one. -/
def LacksRoom {φ : Type} (query : Query φ) (table : Table) (failure : Failure) : Prop :=
  (failure = .fault .reservationTooLarge ∧ Arena.maxReservation < query.arenaReserve) ∨
    (failure = .fault .arenaExhausted ∧ 2 ^ 34 < table.rowCount)

theorem workersOn_pos : 0 < query.workersOn table :=
  Nat.lt_of_lt_of_le Nat.one_pos (Nat.le_max_right _ _)

theorem workerCount_eq (first : Partial Twap) :
    query.workerCount table first = query.workersOn table :=
  if_pos (List.all_eq_true.2 fun _ _ => rfl)

theorem frameCount_le (query : Query Twap) (table : Table) :
    table.frameCount query.frameSize ≤ table.rowCount := by
  have hpos := query.frameSize_pos
  rw [Table.frameCount, Nat.div_le_iff_le_mul_add_pred hpos]
  have hmul := Nat.le_mul_of_pos_left table.rowCount hpos
  omega

/-- Whatever frames the workers are dealt, a run reads the averages of what all of them have
gathered, merged along some tree.  Only too little room can keep it from that. -/
theorem runWith_yields (haggregates : query.aggregates = twapsOf sources)
    (hcolumn : query.checkGroupColumn table = .ok ()) {schedule : ℕ → Schedule}
    (complete : (schedule (query.workersOn table)).Complete (query.workersOn table)
      (table.frameCount query.frameSize))
    (supply : IdSupply) :
    match query.runWith table schedule supply with
    | .ok (report, _) => ∃ tree, query.Gathered sources table
          (schedule (query.workersOn table)).frames (MergeTree.leaves tree) ∧
        report.rows = (table.groupKeys query.groupBy).map fun key =>
          ⟨key, averagesOf sources.length tree key⟩
    | .error failure => query.LacksRoom table failure := by
  rcases Nat.lt_or_ge Arena.maxReservation query.arenaReserve with hreserve | hreserve
  · rw [runWith_of_lt hcolumn hreserve]
    exact .inl ⟨rfl, hreserve⟩
  · obtain ⟨workers, supply', created, ⟨first, hfirst, hlength⟩, hanswer, hfails⟩ :=
      runWith_of_le hcolumn hreserve schedule supply
    rw [workerCount_eq] at hlength
    have hyields := fun d => execute_yields (d := d) haggregates created
      (List.ne_nil_of_mem hfirst) (hlength ▸ complete)
    rw [hlength] at hyields hanswer hfails
    cases hresult : query.execute table (schedule (query.workersOn table)) workers with
    | error fault =>
      rw [hfails fault hresult]
      simp only [hresult, Yields] at hyields
      refine .inr ⟨congrArg Failure.fault (hyields _ Nat.lt_two_pow_self.le).1, ?_⟩
      by_contra hsmall
      have hframes := query.frameCount_le table
      have hneed := (hyields 34 (by unfold workersOn; omega)).2
      have hlt := bytes_lt_offsetSpan (n := table.rowCount) (by omega)
      omega
    | ok report =>
      rw [hanswer report hresult]
      have hpost := hyields _ Nat.lt_two_pow_self.le
      rw [hresult] at hpost
      obtain ⟨ps, tree, hps, rfl, hrows, -⟩ := hpost
      exact ⟨tree, hps, hrows⟩

theorem runWith_rows (haggregates : query.aggregates = twapsOf sources)
    (hcolumn : query.checkGroupColumn table = .ok ()) {schedule : ℕ → Schedule}
    (complete : (schedule (query.workersOn table)).Complete (query.workersOn table)
      (table.frameCount query.frameSize))
    (orderly : query.Orderly sources table (schedule (query.workersOn table)))
    (supply : IdSupply) :
    match query.runWith table schedule supply with
    | .ok (report, _) => report.rows = table.sequential query.groupBy sources
    | .error failure => query.LacksRoom table failure := by
  have hyields := runWith_yields haggregates hcolumn complete supply
  split at hyields
  · next report _ _ =>
    obtain ⟨tree, hps, hrows⟩ := hyields
    refine hrows.trans (List.map_congr_left fun key _ => congrArg _ ?_)
    refine List.ext_getElem (by simp [averagesOf]) fun k hk hk' => ?_
    simp only [averagesOf, List.length_map, List.length_range] at hk
    simp only [averagesOf, List.getElem_map, List.getElem_range, hps.fold_eq complete.toDeals
      orderly hk, observing_of_lt hk]
  · exact hyields

/-- With one worker it is enough that the observations of every group are in order of time. -/
theorem Orderly.of_single {single : Query Twap} {schedule schedule' : Schedule}
    (h : query.Orderly sources table schedule) (hgroup : single.groupBy = query.groupBy)
    (deals : schedule'.Deals 1 (table.frameCount single.frameSize)) :
    single.Orderly sources table schedule' where
  inOrder := by
    rw [hgroup]
    exact h.inOrder
  together source _ key i _ j hj _ frames hframes _ := by
    obtain ⟨only, honly⟩ := List.length_eq_one_iff.1 deals.workers_eq
    have hperm := flatten_rowsOf_perm deals.frames_perm
    rw [honly, List.mem_singleton] at hframes
    rw [honly, ← hframes, List.map_singleton, List.flatten_singleton] at hperm
    exact hperm.mem_iff.2 (List.mem_of_mem_filter hj)

/-- **A parallel run gives the sequential answer**, bit for bit, if the valid observations of every
group are in order of time in the table and those of one instant are gathered by one worker.  The
answer does not mention workers, frames or their order; it is also that of a run with one worker.
Only a reservation that is not granted or more than `2 ^ 34` rows can keep a run from it. -/
theorem runWith_eq_sequential (haggregates : query.aggregates = twapsOf sources)
    (hcolumn : query.checkGroupColumn table = .ok ()) {schedule : ℕ → Schedule}
    (complete : (schedule (query.workersOn table)).Complete (query.workersOn table)
      (table.frameCount query.frameSize))
    (orderly : query.Orderly sources table (schedule (query.workersOn table)))
    (supply : IdSupply) :
    match query.runWith table schedule supply with
    | .ok (report, _) =>
      report.rows = table.sequential query.groupBy sources ∧
        ∀ single : Query Twap, single.groupBy = query.groupBy →
          single.aggregates = query.aggregates → single.workers = 1 →
          ∀ supply₁ report₁ supply₂, single.run table supply₁ = .ok (report₁, supply₂) →
            report.rows = report₁.rows
    | .error failure => query.LacksRoom table failure := by
  have hrows := runWith_rows haggregates hcolumn complete orderly supply
  cases hrun : query.runWith table schedule supply with
  | error failure =>
    rw [hrun] at hrows
    exact hrows
  | ok result =>
    obtain ⟨report, supply'⟩ := result
    rw [hrun] at hrows
    refine ⟨hrows, fun single hgroup hsame hone supply₁ report₁ supply₂ hsingle => ?_⟩
    have hworkers : single.workersOn table = 1 := by
      rw [workersOn, hone]
      omega
    have hround := Schedule.complete_roundRobin (table.frameCount single.frameSize) Nat.one_pos
    rw [← hworkers] at hround
    have hcolumn' : single.checkGroupColumn table = .ok () := by
      rwa [checkGroupColumn, hgroup]
    have hrows₁ := runWith_rows (hsame.trans haggregates) hcolumn' hround
      (orderly.of_single hgroup (hworkers ▸ hround.toDeals)) supply₁
    rw [← run, hsingle, hgroup] at hrows₁
    exact hrows.trans hrows₁.symm

/-- Two workers that take turns gather three rows of two groups. -/
theorem runWith_eq_sequential_two :
    let table : Table := ⟨#[.symbols #["A", "B", "A"], .floats #[1.5, 2.5, 3.5],
      .timestamps #[1, 2, 3]], 3, by simp [Column.size]⟩
    let sources : List (Source × Source) := [(.column 1, .column 2)]
    let query : Query Twap := ⟨⟨2, 1, some 0, 0, twapsOf sources⟩, by decide, by decide, by
      simp [sources, twapsOf]⟩
    let schedule := Schedule.roundRobin (table.frameCount query.frameSize)
    ∃ report supply', query.runWith table schedule {} = .ok (report, supply') ∧
      report.rows = table.sequential query.groupBy sources := by
  intro table sources query schedule
  have hts : ∀ source ∈ sources, ∀ i < 3, ∀ j < 3, i < j →
      (reading source (table.row i)).ts < (reading source (table.row j)).ts := by
    simp only [sources, List.mem_singleton, forall_eq]
    decide +kernel
  have hmem : ∀ {source key i}, i ∈ table.validRows query.groupBy (reading source) key → i < 3 :=
    fun hi => List.mem_range.1 (List.mem_of_mem_filter hi)
  have haggregates : query.aggregates = twapsOf sources := rfl
  have hcolumn : query.checkGroupColumn table = .ok () := rfl
  have hworkers : 0 < query.workersOn table := workersOn_pos
  have complete : (schedule (query.workersOn table)).Complete (query.workersOn table)
      (table.frameCount query.frameSize) := Schedule.complete_roundRobin _ hworkers
  have orderly : query.Orderly sources table (schedule (query.workersOn table)) := by
    refine ⟨?_, ?_⟩
    · intro source hsource key
      rw [InOrder, List.pairwise_map]
      have hpairwise : (table.validRows query.groupBy (reading source) key).Pairwise (· < ·) :=
        List.pairwise_lt_range.filter _
      exact hpairwise.imp_of_mem fun hi hj hij =>
        Int64.le_of_lt (hts source hsource _ (hmem hi) _ (hmem hj) hij)
    · intro source hsource key i hi j hj heq frames _ hframes
      rcases Nat.lt_trichotomy i j with hij | rfl | hij
      · exact absurd (hts source hsource i (hmem hi) j (hmem hj) hij) (heq ▸ Int64.lt_irrefl)
      · exact hframes
      · exact absurd (hts source hsource j (hmem hj) i (hmem hi) hij) (heq ▸ Int64.lt_irrefl)
  have hrun := runWith_eq_sequential haggregates hcolumn complete orderly {}
  cases hresult : query.runWith table schedule {} with
  | error failure =>
    rw [hresult] at hrun
    exact absurd hrun (by simp [LacksRoom, query, table])
  | ok result =>
    rw [hresult] at hrun
    exact ⟨result.1, result.2, rfl, hrun.1⟩

end

end Query

end TimeWeighted
