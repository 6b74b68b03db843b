import Mathlib
import TimeWeighted.Proofs.Engine.Calls
import TimeWeighted.Proofs.Engine.Handout

/-!
# Handing over rows

In whatever order the workers have their turns, every row of the table is handed to exactly one
instance of every aggregate, and every instance is handed the rows of a group in ascending order.
An aggregate that cannot merge has one instance, which is handed all rows in the order of the table.

* `Query.gatherAll_handed` : the calls made to the instances of all workers.
* `Query.execute_after` : merging and reading hand over no rows.
* `Report.HandsOut`, `Report.IsSerial` : what a run has handed out.
* `Query.runWith_handsOut` : **every row is handed out once, in order, in any run.**
-/

namespace TimeWeighted

variable {φ : Type}

/-! ### Calls to one instance -/

namespace Recorder

/-- The calls made to the instance of the aggregate `k`. -/
def callsTo (fs : List (Recorder φ)) (k : ℕ) : List Call :=
  (fs[k]?.map (·.calls.toList)).getD []

/-- The rows handed to the instance of the aggregate `k`. -/
def handedTo (fs : List (Recorder φ)) (k : ℕ) : List ℕ :=
  (callsTo fs k).filterMap Call.row?

theorem callsTo_of_lt {fs : List (Recorder φ)} {k : ℕ} (hk : k < fs.length) :
    callsTo fs k = fs[k].calls.toList := by
  simp [callsTo, List.getElem?_eq_getElem hk]

theorem callsTo_of_after {P : Call → Prop} {fs gs : List (Recorder φ)}
    (h : List.Forall₂ (After P) fs gs) (k : ℕ) :
    ∃ calls, (∀ call ∈ calls, P call) ∧ callsTo gs k = callsTo fs k ++ calls := by
  rcases Nat.lt_or_ge k fs.length with hk | hk
  · have hk' : k < gs.length := h.length_eq ▸ hk
    obtain ⟨calls, hcalls, hadds⟩ := h.get hk hk'
    exact ⟨calls, hcalls, by rw [callsTo_of_lt hk, callsTo_of_lt hk']; exact hadds⟩
  · have hk' : gs.length ≤ k := h.length_eq ▸ hk
    exact ⟨[], by simp, by simp [callsTo, List.getElem?_eq_none hk, List.getElem?_eq_none hk']⟩

theorem handedTo_of_after {P : Call → Prop} {fs gs : List (Recorder φ)}
    (h : List.Forall₂ (After P) fs gs) (hrow : ∀ call, P call → call.row? = none) (k : ℕ) :
    handedTo gs k = handedTo fs k := by
  obtain ⟨calls, hcalls, happend⟩ := callsTo_of_after h k
  have hnone : calls.filterMap Call.row? = [] :=
    List.filterMap_eq_nil_iff.2 fun call hcall => hrow call (hcalls call hcall)
  rw [handedTo, happend, List.filterMap_append, hnone, List.append_nil, handedTo]

end Recorder

/-! ### Calls to the instances of a worker -/

namespace Partial

variable {table : Table} {groupBy : Option ℕ} {m k : ℕ} {rows : List ℕ}
  {p : Partial (Recorder φ)}

/-- All `m` instances have taken over an arena and were then handed the rows. -/
def Handed (table : Table) (groupBy : Option ℕ) (m : ℕ) (rows : List ℕ)
    (p : Partial (Recorder φ)) : Prop :=
  p.aggregates.length = m ∧
    ∀ f ∈ p.aggregates, f.calls.toList = .adopt :: table.callsFrom groupBy ∅ rows

theorem Handed.callsTo_eq (h : p.Handed table groupBy m rows) (hk : k < m) :
    Recorder.callsTo p.aggregates k = .adopt :: table.callsFrom groupBy ∅ rows := by
  have hk' : k < p.aggregates.length := h.1 ▸ hk
  rw [Recorder.callsTo_of_lt hk', h.2 _ (List.getElem_mem hk')]

theorem Handed.handedTo_eq (h : p.Handed table groupBy m rows) (hk : k < m) :
    Recorder.handedTo p.aggregates k = rows := by
  rw [Recorder.handedTo, h.callsTo_eq hk]
  exact Table.filterMap_callsFrom ∅ rows

theorem Handed.merge_notMem (h : p.Handed table groupBy m rows) (hk : k < m) :
    Call.merge ∉ Recorder.callsTo p.aggregates k := by
  rw [h.callsTo_eq hk, List.mem_cons, not_or]
  exact ⟨by simp, fun hmem => absurd (Table.isSome_row?_of_mem_callsFrom hmem) (by decide)⟩

theorem Handed.filter_callsTo (h : p.Handed table groupBy m rows) (hk : k < m) (key : GroupKey) :
    (Recorder.callsTo p.aggregates k).filter (Call.concerns table groupBy key) =
      Call.ofGroup (rows.filter fun i => table.keyOf groupBy i = key) := by
  rw [h.callsTo_eq hk, List.filter_cons_of_neg (by simp [Call.concerns, Call.row?]),
    Table.filter_callsFrom, if_neg (Finset.notMem_empty key)]

theorem flatMap_handedTo {dealt : List (List ℕ)} {ps : List (Partial (Recorder φ))}
    {rowsOf : List ℕ → List ℕ}
    (h : List.Forall₂ (fun frames => Handed table groupBy m (rowsOf frames)) dealt ps)
    (hk : k < m) :
    (ps.flatMap fun p => Recorder.handedTo p.aggregates k) = (dealt.map rowsOf).flatten := by
  induction h with
  | nil => rfl
  | cons hhanded _ ih =>
    rw [List.flatMap_cons, ih, hhanded.handedTo_eq hk, List.map_cons, List.flatten_cons]

end Partial

namespace Query

variable [Aggregate φ] {query : Query (Recorder φ)} {table : Table} {schedule : Schedule}
  {workers ps : List (Partial (Recorder φ))} {dealt : List (List ℕ)}

theorem Created.handed {p : Partial (Recorder φ)} (h : query.Created p) (table : Table)
    (hnew : ∀ factory ∈ query.aggregates, ∀ supply, (factory.run supply).1.calls = #[]) :
    p.Handed table query.groupBy query.aggregates.length [] ∧ p.groups.keys = [] := by
  obtain ⟨supply, supply', hcreate⟩ := h
  obtain ⟨hmakes, hkeys⟩ := Partial.create_makes hcreate
  refine ⟨⟨hmakes.length_eq.symm, fun f hf => ?_⟩, hkeys⟩
  obtain ⟨i, hi, rfl⟩ := List.getElem_of_mem hf
  have hi' : i < query.aggregates.length := hmakes.length_eq ▸ hi
  exact Recorder.calls_of_makes (hmakes.get hi' hi) (hnew _ (List.getElem_mem hi'))

/-- The instances of every worker are handed the rows of its frames. -/
theorem gatherAll_handed (created : ∀ p ∈ workers, query.Created p)
    (hnew : ∀ factory ∈ query.aggregates, ∀ supply, (factory.run supply).1.calls = #[])
    (hlength : dealt.length = workers.length)
    (hrun : query.gatherAll table workers dealt = .ok ps) :
    List.Forall₂ (fun frames => Partial.Handed table query.groupBy query.aggregates.length
      (query.rowsOf table frames)) dealt ps := by
  induction workers generalizing dealt ps with
  | nil =>
    rw [List.length_nil, List.length_eq_zero_iff] at hlength
    subst hlength
    cases hrun
    exact .nil
  | cons p workers ih =>
    cases dealt with
    | nil => simp at hlength
    | cons frames dealt =>
      obtain ⟨hp, hworkers⟩ := List.forall_mem_cons.1 created
      obtain ⟨q, hgather, hrun⟩ := exists_of_bind_ok hrun
      obtain ⟨qs, hrest, hrun⟩ := exists_of_bind_ok hrun
      cases hrun
      obtain ⟨⟨hcount, hcalls⟩, hkeys⟩ := hp.handed table hnew
      have hseen : ∀ key, key ∈ (∅ : Finset GroupKey) ↔ key ∈ p.groups.keys := by simp [hkeys]
      have hadds := Partial.gather_adds hseen hgather
      refine .cons ⟨hadds.length_eq.symm.trans hcount, fun f hf => ?_⟩
        (ih hworkers (Nat.succ_injective hlength) hrest)
      obtain ⟨i, hi, rfl⟩ := List.getElem_of_mem hf
      have hi' : i < p.aggregates.length := hadds.length_eq ▸ hi
      have hf : (q.aggregates[i]).calls.toList = (p.aggregates[i]).calls.toList ++ _ :=
        hadds.get hi' hi
      rw [hf, hcalls _ (List.getElem_mem hi')]
      rfl

/-! ### Merging and reading -/

/-- Merging hands over no rows to the instances that are left, and a single partial result is left
as it is. -/
theorem reduce_after {order : List Branch → GroupOrder} {last : Option (Partial (Recorder φ))}
    (hne : ps ≠ []) (hrun : reduce order ps = .ok last) :
    ∃ first rest q, ps = first :: rest ∧ last = some q ∧
      List.Forall₂ (Recorder.After Call.IsMerging)
        first.aggregates q.aggregates ∧ (rest = [] → q = first) := by
  obtain ⟨tree, htree⟩ := MergeTree.exists_balanced hne
  have hleaves := MergeTree.leaves_of_balanced htree
  simp only [reduce, htree] at hrun
  obtain ⟨q, hfold, hrun⟩ := exists_of_bind_ok hrun
  cases hrun
  have hafter := Partial.foldM_relates Recorder.After.refl Recorder.After.trans
    (Recorder.passOn_after (P := Call.IsMerging) (.inl rfl) _)
    (fun _ _ => Recorder.passOn_after (.inr rfl) _) hfold
  obtain ⟨rest, hcons, hleaf⟩ := tree.leaves_eq_cons
  refine ⟨tree.first, rest, q, hleaves.symm.trans hcons, rfl, hafter, fun hrest => ?_⟩
  rw [hleaf hrest] at hfold
  cases hfold
  rfl

theorem gatherAll_ne_nil (hne : workers ≠ [])
    (hrun : query.gatherAll table workers dealt = .ok ps) : ps ≠ [] := by
  cases workers with
  | nil => exact absurd rfl hne
  | cons p workers =>
    obtain ⟨q, -, hrun⟩ := exists_of_bind_ok hrun
    obtain ⟨qs, -, hrun⟩ := exists_of_bind_ok hrun
    cases hrun
    simp

theorem finish_after {order : GroupOrder} {p : Partial (Recorder φ)} {gs : List (Recorder φ)}
    {rows : List GroupRow} (hrun : p.finish order = .ok (gs, rows)) :
    List.Forall₂ (Recorder.After Call.IsReading) p.aggregates gs :=
  Partial.finish_relates Recorder.After.refl Recorder.After.trans
    (fun _ _ _ _ h => (Recorder.value_adds h).after (.inr rfl)) hrun

/-- What a run that comes to an end has gathered, merged and read. -/
theorem execute_after {report : Report (Recorder φ)} (hne : workers ≠ [])
    (hrun : query.execute table schedule workers = .ok report) :
    query.gatherAll table workers schedule.frames = .ok report.gathered ∧
      ∃ first rest q, report.gathered = first :: rest ∧
        List.Forall₂ (Recorder.After Call.IsMerging)
          first.aggregates q.aggregates ∧ (rest = [] → q = first) ∧
        List.Forall₂ (Recorder.After Call.IsReading)
          q.aggregates report.aggregates := by
  rw [execute] at hrun
  obtain ⟨gathered, hgather, hrun⟩ := exists_of_bind_ok hrun
  obtain ⟨last, hreduce, hrun⟩ := exists_of_bind_ok hrun
  obtain ⟨first, rest, q, hcons, rfl, hafter, hsingle⟩ :=
    reduce_after (gatherAll_ne_nil hne hgather) hreduce
  simp only at hrun
  split at hrun
  · obtain ⟨total, htotal, hrun⟩ := exists_of_bind_ok hrun
    obtain ⟨⟨gs, rows⟩, hfinish, hrun⟩ := exists_of_bind_ok hrun
    cases hrun
    have htotal := Partial.ensureTotal_relates Recorder.After.refl
      (Recorder.passOn_after (P := Call.IsReading) (.inl rfl) _) htotal
    exact ⟨hgather, first, rest, q, hcons, hafter, hsingle,
      forall₂_trans Recorder.After.trans htotal (finish_after hfinish)⟩
  · obtain ⟨total, htotal, htail⟩ := exists_of_bind_ok hrun
    obtain ⟨⟨gs, rows⟩, hfinish, hreport⟩ := exists_of_bind_ok htail
    obtain rfl : q = total := Except.ok.inj htotal
    cases hreport
    exact ⟨hgather, first, rest, q, hcons, hafter, hsingle, finish_after hfinish⟩

/-! ### Whole runs -/

theorem runWith_eq_ok {schedule : ℕ → Schedule} {report : Report φ} {query : Query φ}
    {supply supply' : IdSupply}
    (hrun : query.runWith table schedule supply = .ok (report, supply')) :
    ∃ workers, query.prepare table supply = .ok workers supply' ∧
      query.execute table (schedule workers.length) workers = .ok report := by
  rw [runWith] at hrun
  split at hrun
  · exact absurd hrun (by simp)
  · split at hrun
    · exact absurd hrun (by simp)
    · next workers supply'' hprepare =>
      split at hrun
      · exact absurd hrun (by simp)
      · next report' hexecute =>
        cases hrun
        exact ⟨workers, hprepare, hexecute⟩

end Query

/-- What a run hands out to the instances of aggregates that write down their calls. -/
structure Report.HandsOut (report : Report (Recorder φ)) (query : Query (Recorder φ))
    (table : Table) : Prop where
  /-- Every row is handed to one instance of every aggregate, and to that one once. -/
  rows_perm : ∀ k < query.aggregates.length,
    (report.gathered.flatMap fun p => Recorder.handedTo p.aggregates k).Perm
      (List.range table.rowCount)
  /-- An instance is handed the rows of a group in ascending order, and only the first of them
  starts the record. -/
  ofGroup : ∀ p ∈ report.gathered, ∀ k < query.aggregates.length, ∀ key,
    ∃ rows, rows.Pairwise (· < ·) ∧
      (Recorder.callsTo p.aggregates k).filter (Call.concerns table query.groupBy key) =
        Call.ofGroup rows
  /-- Merging and reading hand over no rows to the instances that are left, which are those of the
  first worker. -/
  handedTo_eq : ∃ first, report.gathered.head? = some first ∧
    ∀ k, Recorder.handedTo report.aggregates k = Recorder.handedTo first.aggregates k

/-- A run without merges: there is one instance of every aggregate, which is handed all rows in the
order of the table. -/
structure Report.IsSerial (report : Report (Recorder φ)) (query : Query (Recorder φ))
    (table : Table) : Prop where
  /-- There is one partial result, and every aggregate has one instance in it. -/
  gathered_eq : ∃ p, report.gathered = [p] ∧ p.aggregates.length = query.aggregates.length
  /-- That instance is handed all rows. -/
  handedTo_eq : ∀ k < query.aggregates.length,
    Recorder.handedTo report.aggregates k = List.range table.rowCount
  /-- It is not asked to merge. -/
  merge_notMem : ∀ k < query.aggregates.length, Call.merge ∉ Recorder.callsTo report.aggregates k

theorem Report.isSerial_of_deals {query : Query (Recorder φ)} {table : Table}
    {schedule : Schedule} {report : Report (Recorder φ)} {p : Partial (Recorder φ)}
    (deals : schedule.Deals 1 (table.frameCount query.frameSize))
    (hhanded : List.Forall₂ (fun frames => Partial.Handed table query.groupBy
      query.aggregates.length (query.rowsOf table frames)) schedule.frames report.gathered)
    (hcons : report.gathered = [p])
    (hread : List.Forall₂ (Recorder.After Call.IsReading) p.aggregates report.aggregates) :
    report.IsSerial query table := by
  obtain ⟨only, honly⟩ := List.length_eq_one_iff.1 deals.workers_eq
  have hperm := Query.flatten_rowsOf_perm deals.frames_perm
  rw [honly, List.map_singleton, List.flatten_singleton] at hperm
  have hascending := deals.ascending only (honly ▸ List.mem_singleton_self only)
  have hrows : query.rowsOf table only = List.range table.rowCount :=
    hperm.eq_of_pairwise (fun _ _ _ _ => by omega) (Query.pairwise_rowsOf hascending)
      List.pairwise_lt_range
  rw [honly, hcons, List.forall₂_cons] at hhanded
  obtain ⟨hp, -⟩ := hhanded
  refine ⟨⟨p, hcons, hp.1⟩, fun k hk => ?_, fun k hk hmem => ?_⟩
  · rw [Recorder.handedTo_of_after hread (fun _ => Call.IsReading.row?_eq), hp.handedTo_eq hk,
      hrows]
  · obtain ⟨calls, hcalls, happend⟩ := Recorder.callsTo_of_after hread k
    rw [happend, List.mem_append] at hmem
    rcases hmem with hmem | hmem
    · exact hp.merge_notMem hk hmem
    · exact absurd (hcalls _ hmem) (by simp [Call.IsReading])

namespace Query

variable [Aggregate φ] {query : Query (Recorder φ)} {table : Table}

theorem workerCount_of_serial {first : Partial (Recorder φ)} (hfirst : query.Created first)
    (hserial : ∃ factory ∈ query.aggregates, ∀ supply,
      (factory.run supply).1.capabilities.parallel = false) :
    query.workerCount table first = 1 := by
  obtain ⟨factory, hfactory, hserial⟩ := hserial
  obtain ⟨supply, supply', hcreate⟩ := hfirst
  have hmakes := (Partial.create_makes hcreate).1
  obtain ⟨i, hi, rfl⟩ := List.getElem_of_mem hfactory
  have hi' : i < first.aggregates.length := hmakes.length_eq ▸ hi
  obtain ⟨supply, layout, arena, hf⟩ := hmakes.get hi hi'
  refine if_neg fun hall => ?_
  have hparallel := List.all_eq_true.1 hall _ (List.getElem_mem hi')
  simp only [List.get_eq_getElem] at hf
  rw [hf] at hparallel
  have hcapabilities := hserial supply
  change (query.aggregates[i].run supply).1.capabilities.parallel = true at hparallel
  rw [hcapabilities] at hparallel
  exact absurd hparallel (by decide)

/-- **Every row is handed out once, in order, in any run.**  In whatever order the workers have
their turns, they come to an end and have taken every frame once.  So every row is handed to one
instance of every aggregate, every instance is handed the rows of a group in ascending order, and
an aggregate that cannot merge has one instance that is handed all rows. -/
theorem runWith_handsOut {schedule : ℕ → Schedule} {report : Report (Recorder φ)}
    {supply supply' : IdSupply}
    (hnew : ∀ factory ∈ query.aggregates, ∀ supply, (factory.run supply).1.calls = #[])
    (arises : ∀ n, 0 < n → (schedule n).Arises n (table.frameCount query.frameSize))
    (hrun : query.runWith table schedule supply = .ok (report, supply')) :
    (∀ n, 0 < n → ∀ turns, Dispatch.HandsOut (table.frameCount query.frameSize) n turns) ∧
      report.HandsOut query table ∧
      ((∃ factory ∈ query.aggregates, ∀ supply,
        (factory.run supply).1.capabilities.parallel = false) → report.IsSerial query table) := by
  refine ⟨fun n hn turns => Dispatch.handsOut _ hn turns, ?_⟩
  obtain ⟨workers, hprepare, hexecute⟩ := runWith_eq_ok hrun
  obtain ⟨created, some, hsome, hcount⟩ := prepare_of_ok hprepare
  have hne : workers ≠ [] := List.ne_nil_of_mem hsome
  have deals := (arises _ (List.length_pos_iff.2 hne)).deals (List.length_pos_iff.2 hne)
  obtain ⟨hgather, first, rest, q, hcons, hmerged, hsingle, hread⟩ := execute_after hne hexecute
  have hhanded := gatherAll_handed created hnew deals.workers_eq hgather
  refine ⟨⟨fun k hk => ?_, fun p hp k hk key => ?_, ?_⟩, fun hserial => ?_⟩
  · rw [Partial.flatMap_handedTo hhanded hk]
    exact flatten_rowsOf_perm deals.frames_perm
  · obtain ⟨i, hi, rfl⟩ := List.getElem_of_mem hp
    have hi' := hhanded.length_eq ▸ hi
    have hframes := deals.ascending _ (List.getElem_mem hi')
    exact ⟨_, (pairwise_rowsOf hframes).filter _, (hhanded.get hi' hi).filter_callsTo hk key⟩
  · refine ⟨first, by rw [hcons]; rfl, fun k => ?_⟩
    rw [Recorder.handedTo_of_after hread (fun _ => Call.IsReading.row?_eq),
      Recorder.handedTo_of_after hmerged (fun _ => Call.IsMerging.row?_eq)]
  · -- with one worker there is nothing to merge, so its partial result is the one that is read
    have hone : workers.length = 1 :=
      hcount.trans (workerCount_of_serial (created some hsome) hserial)
    have hlength := hhanded.length_eq
    rw [hcons, deals.workers_eq, hone, List.length_cons] at hlength
    obtain rfl : rest = [] := List.length_eq_zero_iff.1 (by omega)
    rw [hsingle rfl] at hread
    rw [hone] at deals hhanded
    exact Report.isSerial_of_deals deals hhanded hcons hread

/-- Two workers gather one row each, and an aggregate that cannot merge has one worker for both; no
row has a time. -/
theorem runWith_handsOut_two :
    let table : Table := ⟨#[.floats #[1.5, 2.5],
      .timestamps #[Timestamp.null, Timestamp.null]], 2, by simp [Column.size]⟩
    let twap : Factory Twap := Twap.ofColumns 0 1
    let query : Query (Recorder Twap) := ⟨⟨2, 1, none, 0, [Recorder.observing twap]⟩, by decide,
      by decide, by simp⟩
    let serial : Query (Recorder Twap) := ⟨⟨2, 1, none, 0, [Recorder.restricting twap]⟩, by decide,
      by decide, by simp⟩
    let schedule := Schedule.roundRobin (table.frameCount 1)
    (∃ report supply', query.runWith table schedule {} = .ok (report, supply') ∧
      report.HandsOut query table) ∧
    ∃ report supply', serial.runWith table schedule {} = .ok (report, supply') ∧
      report.IsSerial serial table := by
  intro table twap query serial schedule
  have hend : ∀ {x : Except Failure (Report (Recorder Twap) × IdSupply)}, x.isOk = true →
      ∃ report supply', x = .ok (report, supply') := by
    intro x hx
    cases x with
    | error failure => simp [Except.isOk, Except.toBool] at hx
    | ok result => exact ⟨result.1, result.2, rfl⟩
  constructor
  · obtain ⟨report, supply', hrun⟩ := hend
      (by decide +kernel : (query.runWith table schedule {}).isOk = true)
    have hnew : ∀ factory ∈ query.aggregates, ∀ supply, (factory.run supply).1.calls = #[] := by
      simp only [query, List.mem_singleton, forall_eq]
      exact fun _ => rfl
    have arises : ∀ n, 0 < n → (schedule n).Arises n (table.frameCount query.frameSize) :=
      fun n hn => ⟨_, Dispatch.isOver_roundRobin hn, rfl⟩
    exact ⟨report, supply', hrun, (runWith_handsOut hnew arises hrun).2.1⟩
  · obtain ⟨report, supply', hrun⟩ := hend
      (by decide +kernel : (serial.runWith table schedule {}).isOk = true)
    have hnew : ∀ factory ∈ serial.aggregates, ∀ supply, (factory.run supply).1.calls = #[] := by
      simp only [serial, List.mem_singleton, forall_eq]
      exact fun _ => rfl
    have arises : ∀ n, 0 < n → (schedule n).Arises n (table.frameCount serial.frameSize) :=
      fun n hn => ⟨_, Dispatch.isOver_roundRobin hn, rfl⟩
    exact ⟨report, supply', hrun, (runWith_handsOut hnew arises hrun).2.2
      ⟨_, List.mem_singleton_self _, fun _ => rfl⟩⟩

end Query

end TimeWeighted
