import Mathlib
import TimeWeighted.Proofs.Engine.Creation
import TimeWeighted.Proofs.Engine.Frames

/-!
# The operations of a run

Whatever the aggregates are, all that the engine does is ask their instances about records of
groups: one record at a time goes from instance to instance, and what one of them does to it the
next one finds.  The record of a group starts out with the zeros of the layout and after that only
changes by such requests, and what is merged is a record that a counterpart has come to in the same
way.

* `Request`, `Operation` : what an instance is asked, and its being asked about a record.
* `Demand` : requests to all instances of a partial result about one group, and the operations that
  they lead to.
* `Partial.gatherRow_eq`, `Partial.mergeGroup_eq`, `Partial.ensureTotal_eq` : **each step of the
  engine meets one demand.**
* `Query.Demands`, `Query.Performs` : the demands and the operations of a run.
-/

namespace TimeWeighted

/-! ### Operations -/

/-- What an instance is asked about the record of a group. -/
inductive Request (φ : Type) where
  /-- To start it with the first row of the group. -/
  | first (row : Row)
  /-- To take a further row. -/
  | next (row : Row)
  /-- To empty it. -/
  | clear
  /-- To merge the record that a counterpart keeps of the group, with the arena of that. -/
  | merge (other : SlotRecord) (counterpart : φ)
  /-- To compute its value. -/
  | value

/-- A request to an instance about a record, both as they are when it is made. -/
structure Operation (φ : Type) where
  /-- The instance. -/
  aggregate : φ
  /-- What it is asked. -/
  request : Request φ
  /-- The record. -/
  record : SlotRecord

variable {φ : Type} [Aggregate φ]

/-- What a request does; a value that is computed is forgotten. -/
def Request.update : Request φ → UpdateM φ Unit
  | first row => Aggregate.first row
  | next row => Aggregate.next row
  | clear => Aggregate.clear
  | merge other counterpart => Aggregate.merge other (Aggregate.arena counterpart)
  | value => fun (f, record) =>
    match Aggregate.value record f with
    | .ok _ g => .ok () (g, record)
    | .error fault g => .error fault (g, record)

/-- The instance and the record after the operation. -/
def Operation.run (op : Operation φ) : Except Fault (φ × SlotRecord) :=
  op.request.update.apply op.aggregate op.record

theorem Operation.run_value {f g : φ} {record : SlotRecord} {x : Float}
    (h : Aggregate.value record f = .ok x g) :
    Operation.run ⟨f, .value, record⟩ = .ok (g, record) := by
  simp only [run, UpdateM.apply, Request.update, h]

theorem Operation.run_value_error {f g : φ} {record : SlotRecord} {fault : Fault}
    (h : Aggregate.value record f = .error fault g) :
    Operation.run ⟨f, .value, record⟩ = .error fault := by
  simp only [run, UpdateM.apply, Request.update, h]

/-- Requests to one instance about one record. -/
def Request.runAll : List (Request φ) → φ → SlotRecord → Except Fault (φ × SlotRecord)
  | [], f, record => return (f, record)
  | request :: more, f, record => do
    let (f, record) ← Operation.run ⟨f, request, record⟩
    runAll more f record

/-! ### Demands -/

/-- What all instances of a partial result are asked about one of its groups. -/
structure Demand (φ : Type) where
  /-- The key of the group. -/
  key : GroupKey
  /-- The instances. -/
  aggregates : List φ
  /-- The requests to each of them. -/
  requests : List (List (Request φ))
  /-- The record that they share. -/
  record : SlotRecord

/-- Each instance is asked in turn; one that there are no requests to is not asked at all. -/
def runInTurn : List φ → List (List (Request φ)) → SlotRecord → Except Fault (List φ × SlotRecord)
  | f :: fs, requests :: rest, record => do
    let (f, record) ← Request.runAll requests f record
    let (fs, record) ← runInTurn fs rest record
    return (f :: fs, record)
  | fs, _, record => return (fs, record)

/-- The operations of instances that are asked in turn, up to the first fault. -/
inductive InTurn : List φ → List (List (Request φ)) → SlotRecord → Operation φ → Prop
  /-- The next request of the instance whose turn it is. -/
  | now {f : φ} {fs : List φ} {request : Request φ} {more : List (Request φ)}
      {rest : List (List (Request φ))} {record : SlotRecord} :
      InTurn (f :: fs) ((request :: more) :: rest) record ⟨f, request, record⟩
  /-- It remains its turn as long as there are requests. -/
  | later {f g : φ} {fs : List φ} {request : Request φ} {more : List (Request φ)}
      {rest : List (List (Request φ))} {record mid : SlotRecord} {op : Operation φ}
      (hrun : Operation.run ⟨f, request, record⟩ = .ok (g, mid))
      (h : InTurn (g :: fs) (more :: rest) mid op) :
      InTurn (f :: fs) ((request :: more) :: rest) record op
  /-- Then it is the turn of the one after it. -/
  | next {f : φ} {fs : List φ} {rest : List (List (Request φ))} {record : SlotRecord}
      {op : Operation φ} (h : InTurn fs rest record op) : InTurn (f :: fs) ([] :: rest) record op

/-- Meeting a demand. -/
def Demand.run (d : Demand φ) : Except Fault (List φ × SlotRecord) :=
  runInTurn d.aggregates d.requests d.record

/-- The operations that a demand leads to. -/
def Demand.Performs (d : Demand φ) (op : Operation φ) : Prop :=
  InTurn d.aggregates d.requests d.record op

theorem InTurn.run_eq_error {fs : List φ} {requests : List (List (Request φ))}
    {record : SlotRecord} {op : Operation φ} {fault : Fault} (h : InTurn fs requests record op)
    (hfault : op.run = .error fault) : runInTurn fs requests record = .error fault := by
  induction h with
  | now => simp only [runInTurn, Request.runAll, hfault, error_bind]
  | later hrun _ ih =>
    rw [← ih hfault]
    simp only [runInTurn, Request.runAll, hrun, ok_bind]
  | next _ ih =>
    simp only [runInTurn, Request.runAll, pure_bind, ih hfault, error_bind]

namespace Partial

variable {p : Partial φ} {fs others : List φ} {record : SlotRecord}

/-- The demand of a row: the first one of a group starts a record, further ones go to the record
that is there. -/
def rowDemand (p : Partial φ) (groupBy : Option ℕ) (row : Row) : Demand φ where
  key := groupBy.bind row.symbol
  aggregates := p.aggregates
  requests := p.aggregates.map fun _ =>
    [if groupBy.bind row.symbol ∈ p.groups.keys then .next row else .first row]
  record := recordOf p.layout p.groups (groupBy.bind row.symbol)

/-- The demand of a group that the instances `others` have gathered.  One that is not here yet
starts out empty. -/
def mergeDemand (p : Partial φ) (others : List φ) (group : GroupKey × SlotRecord) : Demand φ where
  key := group.1
  aggregates := p.aggregates
  requests := others.map fun f =>
    if group.1 ∈ p.groups.keys then [.merge group.2 f] else [.clear, .merge group.2 f]
  record := recordOf p.layout p.groups group.1

/-- The demand of the group of all rows when there are none. -/
def totalDemand (p : Partial φ) : Demand φ where
  key := none
  aggregates := p.aggregates
  requests := p.aggregates.map fun _ => [.clear]
  record := p.layout.newRecord

/-- The demand of a group that is read. -/
def readDemand (fs : List φ) (group : GroupKey × SlotRecord) : Demand φ where
  key := group.1
  aggregates := fs
  requests := fs.map fun _ => [.value]
  record := group.2

/-! ### Steps of the engine -/

theorem updateAll_eq_runInTurn (request : Request φ) (fs : List φ) (record : SlotRecord) :
    updateAll request.update fs record = runInTurn fs (fs.map fun _ => [request]) record := by
  induction fs generalizing record with
  | nil => rfl
  | cons f fs ih =>
    have hone : Request.runAll [request] f record = request.update.apply f record := bind_pure _
    simp only [updateAll, List.map_cons, runInTurn, hone, ih]

theorem updateBeside_eq_runInTurn {update : φ → UpdateM φ Unit} {requests : φ → List (Request φ)}
    (h : ∀ other f record, (update other).apply f record =
      Request.runAll (requests other) f record)
    (others fs : List φ) (record : SlotRecord) :
    updateBeside update others fs record = runInTurn fs (others.map requests) record := by
  induction fs generalizing others record with
  | nil => simp only [updateBeside, runInTurn]
  | cons f fs ih =>
    cases others with
    | nil => rfl
    | cons other others => simp only [updateBeside, List.map_cons, runInTurn, h, ih]

theorem gatherRow_eq (p : Partial φ) (groupBy : Option ℕ) (row : Row) :
    gatherRow groupBy p row = (do
      let x ← (p.rowDemand groupBy row).run
      return ⟨x.1, p.layout, p.groups.insert (groupBy.bind row.symbol) x.2⟩) := by
  unfold Demand.run rowDemand
  cases hfind : p.groups.find? (groupBy.bind row.symbol) with
  | some record =>
    simp only [if_pos (Groups.mem_keys_of_find? hfind), recordOf, hfind, Option.getD_some,
      ← updateAll_eq_runInTurn, gatherRow_of_some hfind]
    rfl
  | none =>
    simp only [if_neg ((Groups.find?_eq_none_iff _ _).1 hfind), recordOf, hfind, Option.getD_none,
      ← updateAll_eq_runInTurn, gatherRow_of_none hfind]
    rfl

theorem mergeGroup_eq (p : Partial φ) (others : List φ) (group : GroupKey × SlotRecord) :
    mergeGroup others p group = (do
      let x ← (p.mergeDemand others group).run
      return ⟨x.1, p.layout, p.groups.insert group.1 x.2⟩) := by
  obtain ⟨key, other⟩ := group
  unfold Demand.run mergeDemand
  cases hfind : p.groups.find? key with
  | some record =>
    simp only [if_pos (Groups.mem_keys_of_find? hfind), recordOf, hfind, Option.getD_some,
      mergeGroup_of_some hfind]
    rw [updateBeside_eq_runInTurn fun f g r => ?_]
    exact (bind_pure _).symm
  | none =>
    simp only [if_neg ((Groups.find?_eq_none_iff _ _).1 hfind), recordOf, hfind, Option.getD_none,
      mergeGroup_of_none hfind]
    rw [updateBeside_eq_runInTurn fun f g r => ?_]
    rw [UpdateM.apply_bind]
    exact congrArg _ (funext fun _ => (bind_pure _).symm)

theorem ensureTotal_eq (h : p.groups.find? none = none) :
    p.ensureTotal = (do
      let x ← p.totalDemand.run
      return ⟨x.1, p.layout, p.groups.insert none x.2⟩) := by
  have hall := updateAll_eq_runInTurn .clear p.aggregates p.layout.newRecord
  simp only [ensureTotal, h, Demand.run, totalDemand, ← hall]
  rfl

theorem run_readDemand (fs : List φ) (group : GroupKey × SlotRecord) :
    (readDemand fs group).run = (do
      let x ← readRecord group.2 fs
      return (x.1, group.2)) := by
  unfold Demand.run readDemand
  simp only
  induction fs with
  | nil => rfl
  | cons f fs ih =>
    cases hvalue : Aggregate.value group.2 f with
    | error fault g =>
      simp only [readRecord, List.map_cons, runInTurn, Request.runAll, hvalue,
        Operation.run_value_error hvalue]
      rfl
    | ok x g =>
      simp only [readRecord, List.map_cons, runInTurn, Request.runAll, hvalue,
        Operation.run_value hvalue, ok_bind, pure_bind, ih, bind_assoc]

end Partial

/-! ### The operations of a run -/

/-- What is demanded when partial results are merged along a tree, of which the part that is
reached by `way` is left to be merged. -/
inductive MergeTree.Merges (order : List Branch → GroupOrder) :
    MergeTree (Partial φ) → List Branch → Demand φ → Prop
  /-- A group of what `src` has come to goes to what `dest` has come to, after the groups `done`. -/
  | node {dest src : MergeTree (Partial φ)} {way : List Branch} {p q p' : Partial φ}
      {done rest : List (GroupKey × SlotRecord)} {group : GroupKey × SlotRecord}
      (hdest : dest.foldM (fun way => Partial.merge (order way)) (way ++ [.left]) = .ok p)
      (hsrc : src.foldM (fun way => Partial.merge (order way)) (way ++ [.right]) = .ok q)
      (hgroups : order way q.groups.entries = done ++ group :: rest)
      (hdone : done.foldlM (Partial.mergeGroup q.aggregates) p = .ok p') :
      Merges order (.node dest src) way (p'.mergeDemand q.aggregates group)
  /-- A demand of the left branch. -/
  | left {dest src : MergeTree (Partial φ)} {way : List Branch} {d : Demand φ}
      (h : Merges order dest (way ++ [.left]) d) : Merges order (.node dest src) way d
  /-- A demand of the right branch. -/
  | right {dest src : MergeTree (Partial φ)} {way : List Branch} {d : Demand φ}
      (h : Merges order src (way ++ [.right]) d) : Merges order (.node dest src) way d

namespace Query

/-- What a run demands of the partial results that it has made for the workers. -/
inductive Demands (query : Query φ) (table : Table) (schedule : Schedule)
    (workers : List (Partial φ)) : Demand φ → Prop
  /-- A worker gathers a row of its frames, after the rows `done`. -/
  | gather {start p : Partial φ} {frames done rest : List ℕ} {i : ℕ}
      (hworker : (start, frames) ∈ workers.zip schedule.frames)
      (hrows : query.rowsOf table frames = done ++ i :: rest)
      (hdone : start.gather query.groupBy table done = .ok p) :
      Demands query table schedule workers (p.rowDemand query.groupBy (table.row i))
  /-- What all workers have gathered is merged along the balanced tree. -/
  | merge {gathered : List (Partial φ)} {tree : MergeTree (Partial φ)} {d : Demand φ}
      (hgather : query.gatherAll table workers schedule.frames = .ok gathered)
      (htree : MergeTree.balanced? gathered = some tree)
      (h : tree.Merges schedule.mergeOrder [] d) : Demands query table schedule workers d
  /-- There has been no row, and all rows are one group. -/
  | total {gathered : List (Partial φ)} {last : Partial φ}
      (hgather : query.gatherAll table workers schedule.frames = .ok gathered)
      (hreduce : reduce schedule.mergeOrder gathered = .ok (some last))
      (hgroup : query.groupBy = none) (hnone : last.groups.find? none = none) :
      Demands query table schedule workers last.totalDemand
  /-- A group is read, after the groups `done`. -/
  | read {gathered : List (Partial φ)} {q last : Partial φ} {fs : List φ} {rows : List GroupRow}
      {done rest : List (GroupKey × SlotRecord)} {group : GroupKey × SlotRecord}
      (hgather : query.gatherAll table workers schedule.frames = .ok gathered)
      (hreduce : reduce schedule.mergeOrder gathered = .ok (some q))
      (htotal : (if query.groupBy.isNone then q.ensureTotal else pure q) = .ok last)
      (hgroups : schedule.readOrder last.groups.entries = done ++ group :: rest)
      (hdone : Partial.readGroups last.aggregates done = .ok (fs, rows)) :
      Demands query table schedule workers (Partial.readDemand fs group)

/-- An operation of a run about the record of the group `key`. -/
def Performs (query : Query φ) (table : Table) (schedule : ℕ → Schedule) (supply : IdSupply)
    (key : GroupKey) (op : Operation φ) : Prop :=
  ∃ workers supply' d, query.prepare table supply = .ok workers supply' ∧
    query.Demands table (schedule workers.length) workers d ∧ d.key = key ∧ d.Performs op

end Query

/-! ### Faults of operations -/

/-- The computation comes to a fault. -/
def Breaks {α : Type} (x : Except Fault α) : Prop :=
  ∃ fault, x = .error fault

section

variable {α β : Type} {x : Except Fault α} {f : α → Except Fault β}

theorem Breaks.bind (h : Breaks x) (f : α → Except Fault β) : Breaks (x >>= f) := by
  obtain ⟨fault, rfl⟩ := h
  exact ⟨fault, rfl⟩

theorem Breaks.after {a : α} (hx : x = .ok a) (h : Breaks (f a)) : Breaks (x >>= f) := by
  rwa [hx, ok_bind]

theorem Breaks.foldlM {f : β → α → Except Fault β} {items done rest : List α} {a : α} {b c : β}
    (hitems : items = done ++ a :: rest) (hdone : done.foldlM f b = .ok c) (h : Breaks (f c a)) :
    Breaks (items.foldlM f b) := by
  rw [hitems, List.foldlM_append, hdone, ok_bind, List.foldlM_cons]
  exact h.bind _

end

theorem Demand.Performs.breaks {d : Demand φ} {op : Operation φ} (h : d.Performs op)
    (hop : Breaks op.run) : Breaks d.run := by
  obtain ⟨fault, hop⟩ := hop
  exact ⟨fault, InTurn.run_eq_error h hop⟩

theorem Partial.readGroups_breaks {fs gs : List φ} {done rest : List (GroupKey × SlotRecord)}
    {group : GroupKey × SlotRecord} {rows : List GroupRow}
    (hdone : readGroups fs done = .ok (gs, rows)) (h : Breaks (readDemand gs group).run) :
    Breaks (readGroups fs (done ++ group :: rest)) := by
  induction done generalizing fs rows with
  | nil =>
    cases hdone
    refine Breaks.bind ?_ _
    rw [run_readDemand] at h
    obtain ⟨fault, h⟩ := h
    cases hread : readRecord group.2 gs with
    | error fault => exact ⟨fault, rfl⟩
    | ok x =>
      rw [hread] at h
      cases h
  | cons entry done ih =>
    obtain ⟨x, hentry, hdone⟩ := exists_of_bind_ok hdone
    obtain ⟨y, hrest, hdone⟩ := exists_of_bind_ok hdone
    cases hdone
    exact Breaks.after hentry ((ih hrest).bind _)

theorem MergeTree.Merges.breaks {order : List Branch → GroupOrder} {tree : MergeTree (Partial φ)}
    {way : List Branch} {d : Demand φ} (h : tree.Merges order way d) (hd : Breaks d.run) :
    Breaks (tree.foldM (fun way => Partial.merge (order way)) way) := by
  induction h with
  | node hdest hsrc hgroups hdone =>
    refine Breaks.after hdest (Breaks.after hsrc (Breaks.foldlM hgroups hdone ?_))
    rw [Partial.mergeGroup_eq]
    exact hd.bind _
  | left _ ih => exact (ih hd).bind _
  | @right dest src way d _ ih =>
    cases hdest : dest.foldM (fun way => Partial.merge (order way)) (way ++ [.left]) with
    | error fault => exact Breaks.bind ⟨fault, hdest⟩ _
    | ok p => exact Breaks.after hdest ((ih hd).bind _)

namespace Query

variable {query : Query φ} {table : Table} {schedule : Schedule} {workers : List (Partial φ)}

theorem gatherAll_breaks {dealt : List (List ℕ)} {start : Partial φ} {frames : List ℕ}
    (hworker : (start, frames) ∈ workers.zip dealt)
    (h : Breaks (start.gather query.groupBy table (query.rowsOf table frames))) :
    Breaks (query.gatherAll table workers dealt) := by
  induction workers generalizing dealt with
  | nil => simp at hworker
  | cons p workers ih =>
    cases dealt with
    | nil => simp at hworker
    | cons _ dealt =>
      rcases List.mem_cons.1 hworker with heq | hworker
      · cases heq
        exact h.bind _
      · rw [gatherAll]
        cases hgather : p.gather query.groupBy table _ with
        | error fault => exact ⟨fault, rfl⟩
        | ok q => exact (ih hworker).bind _

/-- **A run whose operation faults does not come to its end.** -/
theorem Demands.breaks {d : Demand φ} (h : query.Demands table schedule workers d)
    (hd : Breaks d.run) : Breaks (query.execute table schedule workers) := by
  cases h with
  | gather hworker hrows hdone =>
    refine (gatherAll_breaks hworker (Breaks.foldlM hrows hdone ?_)).bind _
    rw [Partial.gatherRow_eq]
    exact hd.bind _
  | merge hgather htree h =>
    refine Breaks.after hgather (Breaks.bind ?_ _)
    simp only [reduce, htree]
    exact (h.breaks hd).bind _
  | total hgather hreduce hgroup hnone =>
    refine Breaks.after hgather (Breaks.after hreduce ?_)
    simp only [hgroup, Option.isNone_none, if_true, Partial.ensureTotal_eq hnone]
    exact (hd.bind _).bind _
  | read hgather hreduce htotal hgroups hdone =>
    refine Breaks.after hgather (Breaks.after hreduce ?_)
    simp only
    rw [ite_bind]
    refine Breaks.after htotal (Breaks.bind (Breaks.bind ?_ _) _)
    rw [hgroups]
    exact Partial.readGroups_breaks hdone hd

end Query

end TimeWeighted
