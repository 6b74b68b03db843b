import Mathlib
import TimeWeighted.Proofs.Engine.Operations
import TimeWeighted.Proofs.Engine.Reading

/-!
# The instances of a run

The engine makes one instance of each factory for a worker, and after that only operations of the
run change it.  All the while the groups of a partial result are those of the rows that went into
it, and if the engine does not come to an end, then an operation of the run has faulted.

* `Ends` : a result with some property, or a fault with another one.
* `Factory.Reaches`, `Factory.Reads`, `Faulted` : the instances of a run, the values they read and
  the faults of their operations.
* `Partial.Lists` : instances of all factories, and groups for just some keys.
* `Partial.Lists.gather_ends`, `Partial.foldM_ends`, `Partial.Lists.finish_ends` : gathering,
  merging and reading.
-/

namespace TimeWeighted

/-- The computation has a result with the property `post`, or a fault with the property `bad`. -/
def Ends {α : Type} (bad : Fault → Prop) (post : α → Prop) : Except Fault α → Prop
  | .ok a => post a
  | .error fault => bad fault

section

variable {α β : Type} {bad : Fault → Prop} {post post' : α → Prop} {x : Except Fault α}

theorem Ends.mono (h : Ends bad post x) (hpost : ∀ a, post a → post' a) : Ends bad post' x := by
  cases x with
  | ok a => exact hpost a h
  | error fault => exact h

theorem Ends.bind {post' : β → Prop} {f : α → Except Fault β} (h : Ends bad post x)
    (hf : ∀ a, x = .ok a → post a → Ends bad post' (f a)) : Ends bad post' (x >>= f) := by
  cases x with
  | ok a => exact hf a rfl h
  | error fault => exact h

end

/-! ### Instances -/

variable {φ : Type} [Aggregate φ] {performs : GroupKey → Operation φ → Prop}

/-- An operation faults. -/
def Faulted (performs : GroupKey → Operation φ → Prop) (fault : Fault) : Prop :=
  ∃ key op, performs key op ∧ op.run = .error fault

/-- The instances of a factory: those it makes, and what operations make of them. -/
inductive Factory.Reaches (performs : GroupKey → Operation φ → Prop) (factory : Factory φ) :
    φ → Prop
  /-- The factory made it. -/
  | made {f : φ} (h : factory.Makes f) : Reaches performs factory f
  /-- An operation led to it. -/
  | led {key : GroupKey} {op : Operation φ} {g : φ} {record : SlotRecord}
      (h : Reaches performs factory op.aggregate) (hop : performs key op)
      (hrun : op.run = .ok (g, record)) : Reaches performs factory g

/-- An instance of the factory is asked for the value of a record of the group, and this is it. -/
def Factory.Reads (performs : GroupKey → Operation φ → Prop) (factory : Factory φ)
    (key : GroupKey) (x : Float) : Prop :=
  ∃ f record g, factory.Reaches performs f ∧ performs key ⟨f, .value, record⟩ ∧
    Aggregate.value record f = .ok x g

/-- Every instance is one of the factory in its place. -/
abbrev Descend (performs : GroupKey → Operation φ → Prop) (factories : List (Factory φ))
    (fs : List φ) : Prop :=
  List.Forall₂ (Factory.Reaches performs) factories fs

variable {factory : Factory φ} {factories : List (Factory φ)} {key : GroupKey}

theorem runAll_ends {f : φ} {fs : List φ} {requests : List (Request φ)}
    {rest : List (List (Request φ))} {record : SlotRecord} (hf : factory.Reaches performs f)
    (hops : ∀ op, InTurn (f :: fs) (requests :: rest) record op → performs key op) :
    Ends (Faulted performs)
      (fun x => factory.Reaches performs x.1 ∧
        ∀ op, InTurn fs rest x.2 op → performs key op)
      (Request.runAll requests f record) := by
  induction requests generalizing f record with
  | nil => exact ⟨hf, fun op hop => hops op hop.next⟩
  | cons request more ih =>
    rw [Request.runAll]
    cases hrun : Operation.run ⟨f, request, record⟩ with
    | error fault => exact ⟨key, _, hops _ .now, hrun⟩
    | ok x => exact ih (hf.led (hops _ .now) hrun) fun op hop => hops op (hop.later hrun)

theorem runInTurn_ends {fs : List φ} {requests : List (List (Request φ))} {record : SlotRecord}
    (hfs : Descend performs factories fs)
    (hops : ∀ op, InTurn fs requests record op → performs key op) :
    Ends (Faulted performs) (fun x => Descend performs factories x.1)
      (runInTurn fs requests record) := by
  induction hfs generalizing requests record with
  | nil =>
    simp only [runInTurn]
    exact List.Forall₂.nil
  | cons hf hfs ih =>
    cases requests with
    -- instances that there are no requests to are left as they are
    | nil => exact List.Forall₂.cons hf hfs
    | cons requests rest =>
      rw [runInTurn]
      refine (runAll_ends hf hops).bind fun x _ hx => (ih hx.2).bind fun y _ hy => ?_
      exact List.Forall₂.cons hx.1 hy

/-- **Meeting a demand** keeps the instances of the run, unless one of its operations faults. -/
theorem Demand.ends {d : Demand φ} (hfs : Descend performs factories d.aggregates)
    (hops : ∀ op, d.Performs op → performs d.key op) :
    Ends (Faulted performs) (fun x => Descend performs factories x.1) d.run :=
  runInTurn_ends hfs hops

namespace Partial

variable {fs : List φ}

/-! ### Groups -/

/-- The partial result has an instance of every factory, and groups for just these keys. -/
structure Lists (p : Partial φ) (performs : GroupKey → Operation φ → Prop)
    (factories : List (Factory φ)) (keys : Set GroupKey) : Prop where
  /-- The instances, in the order of the factories. -/
  descend : Descend performs factories p.aggregates
  /-- The groups. -/
  mem_keys : ∀ key, key ∈ p.groups.keys ↔ key ∈ keys

variable {p : Partial φ} {keys : Set GroupKey}

theorem Lists.congr {keys' : Set GroupKey} (h : p.Lists performs factories keys)
    (hkeys : ∀ key, key ∈ keys ↔ key ∈ keys') : p.Lists performs factories keys' :=
  ⟨h.descend, fun key => (h.mem_keys key).trans (hkeys key)⟩

theorem Lists.insert (h : p.Lists performs factories keys)
    (hfs : Descend performs factories fs) (key : GroupKey) (record : SlotRecord) :
    (⟨fs, p.layout, p.groups.insert key record⟩ : Partial φ).Lists performs factories
      (Insert.insert key keys) := by
  refine ⟨hfs, fun k => ?_⟩
  rw [Groups.mem_keys_insert, Set.mem_insert_iff, h.mem_keys]

theorem Lists.gatherRow_ends (h : p.Lists performs factories keys) (groupBy : Option ℕ) (row : Row)
    (hops : ∀ op, (p.rowDemand groupBy row).Performs op → performs (groupBy.bind row.symbol) op) :
    Ends (Faulted performs)
      (fun q => q.Lists performs factories (Insert.insert (groupBy.bind row.symbol) keys))
      (gatherRow groupBy p row) := by
  rw [gatherRow_eq]
  exact (Demand.ends h.descend hops).bind fun x _ hx => h.insert hx _ x.2

theorem Lists.mergeGroup_ends (h : p.Lists performs factories keys) (others : List φ)
    (group : GroupKey × SlotRecord)
    (hops : ∀ op, (p.mergeDemand others group).Performs op → performs group.1 op) :
    Ends (Faulted performs)
      (fun q => q.Lists performs factories (Insert.insert group.1 keys))
      (p.mergeGroup others group) := by
  rw [mergeGroup_eq]
  exact (Demand.ends h.descend hops).bind fun x _ hx => h.insert hx _ x.2

theorem Lists.ensureTotal_ends (h : p.Lists performs factories keys)
    (hops : p.groups.find? none = none → ∀ op, p.totalDemand.Performs op → performs none op) :
    Ends (Faulted performs)
      (fun q => q.Lists performs factories (Insert.insert none keys)) p.ensureTotal := by
  cases hfind : p.groups.find? none with
  | some record =>
    have hmem : none ∈ keys := (h.mem_keys none).1 (Groups.mem_keys_of_find? hfind)
    simp only [ensureTotal, hfind]
    exact h.congr fun key => by rw [Set.insert_eq_of_mem hmem]
  | none =>
    rw [ensureTotal_eq hfind]
    exact (Demand.ends h.descend (hops hfind)).bind fun x _ hx => h.insert hx none x.2

theorem Lists.foldlM_ends {α : Type} {f : Partial φ → α → Except Fault (Partial φ)}
    (h : p.Lists performs factories keys) (keyOf : α → GroupKey) {items : List α}
    (step : ∀ done a rest q keys, items = done ++ a :: rest → done.foldlM f p = .ok q →
      q.Lists performs factories keys → Ends (Faulted performs)
        (fun q' => q'.Lists performs factories (Insert.insert (keyOf a) keys)) (f q a)) :
    Ends (Faulted performs)
      (fun q => q.Lists performs factories {key | key ∈ keys ∨ key ∈ items.map keyOf})
      (items.foldlM f p) := by
  induction items generalizing p keys with
  | nil => exact h.congr (by simp)
  | cons a rest ih =>
    rw [List.foldlM_cons]
    refine (step [] a rest p keys rfl rfl h).bind fun q hq hlists => ?_
    refine (ih hlists fun done b rest' q' keys' hsplit hdone => ?_).mono
      fun q' hq' => hq'.congr fun key => ?_
    · refine step (a :: done) b rest' q' keys' (by rw [hsplit, List.cons_append]) ?_
      rw [List.foldlM_cons, hq, ok_bind, hdone]
    · simp only [Set.mem_ofPred_eq, Set.mem_insert_iff, List.map_cons, List.mem_cons]
      rw [← or_assoc, or_comm (a := key ∈ keys)]

/-- Gathering brings the keys of the rows. -/
theorem Lists.gather_ends (h : p.Lists performs factories keys) {groupBy : Option ℕ}
    {table : Table} {rows : List ℕ}
    (hops : ∀ done i rest q, rows = done ++ i :: rest → p.gather groupBy table done = .ok q →
      ∀ op, (q.rowDemand groupBy (table.row i)).Performs op → performs (table.keyOf groupBy i) op) :
    Ends (Faulted performs)
      (fun q => q.Lists performs factories
        {key | key ∈ keys ∨ key ∈ rows.map (table.keyOf groupBy)})
      (p.gather groupBy table rows) :=
  h.foldlM_ends (table.keyOf groupBy) fun done i rest q _ hsplit hdone hq =>
    hq.gatherRow_ends groupBy (table.row i) (hops done i rest q hsplit hdone)

theorem Lists.merge_ends (h : p.Lists performs factories keys) {order : GroupOrder}
    {src : Partial φ} (horder : (order src.groups.entries).Perm src.groups.entries)
    (hops : ∀ done group rest q, order src.groups.entries = done ++ group :: rest →
      done.foldlM (mergeGroup src.aggregates) p = .ok q →
      ∀ op, (q.mergeDemand src.aggregates group).Performs op → performs group.1 op) :
    Ends (Faulted performs)
      (fun q => q.Lists performs factories {key | key ∈ keys ∨ key ∈ src.groups.keys})
      (Partial.merge order p src) := by
  refine (h.foldlM_ends Prod.fst fun done group rest q _ hsplit hdone hq =>
    hq.mergeGroup_ends src.aggregates group (hops done group rest q hsplit hdone)).mono
      fun q hq => hq.congr fun key => ?_
  exact or_congr_right (horder.map (·.1)).mem_iff

/-- Merging along a tree brings the keys of all its leaves. -/
theorem foldM_ends {order : List Branch → GroupOrder}
    (horder : ∀ way groups, (order way groups).Perm groups) {tree : MergeTree (Partial φ)}
    {way : List Branch} (h : ∀ p ∈ tree.leaves, Descend performs factories p.aggregates)
    (hops : ∀ d, tree.Merges order way d → ∀ op, d.Performs op → performs d.key op) :
    Ends (Faulted performs)
      (fun q => q.Lists performs factories {key | ∃ p ∈ tree.leaves, key ∈ p.groups.keys})
      (tree.foldM (fun way => Partial.merge (order way)) way) := by
  induction tree generalizing way with
  | leaf p =>
    simp only [MergeTree.leaves, List.mem_singleton, forall_eq] at h
    have hlists : p.Lists performs factories {key | key ∈ p.groups.keys} := ⟨h, fun _ => Iff.rfl⟩
    exact hlists.congr fun key => by simp [MergeTree.leaves]
  | node dest src ihd ihs =>
    simp only [MergeTree.leaves, List.mem_append] at h ⊢
    refine (ihd (fun p hp => h p (.inl hp)) fun d hd => hops d hd.left).bind fun q hdest hq => ?_
    refine (ihs (fun p hp => h p (.inr hp)) fun d hd => hops d hd.right).bind
      fun q' hsrc hq' => ?_
    refine (hq.merge_ends (horder way _) fun done group rest q'' hsplit hdone =>
      hops _ (.node hdest hsrc hsplit hdone)).mono fun _ hmerged => hmerged.congr fun key => ?_
    rw [Set.mem_ofPred_eq, hq'.mem_keys]
    simp only [Set.mem_ofPred_eq, or_and_right, exists_or]

/-! ### Reading -/

theorem readRecord_ends {record : SlotRecord} (hfs : Descend performs factories fs)
    (hops : ∀ op, (readDemand fs (key, record)).Performs op → performs key op) :
    Ends (Faulted performs)
      (fun x => Descend performs factories x.1 ∧
        List.Forall₂ (fun factory => factory.Reads performs key) factories x.2)
      (readRecord record fs) := by
  induction hfs with
  | nil => exact ⟨.nil, .nil⟩
  | @cons factory f factories fs hf _ ih =>
    rw [readRecord]
    cases hvalue : Aggregate.value record f with
    | error fault g => exact ⟨key, _, hops _ .now, Operation.run_value_error hvalue⟩
    | ok x g =>
      have hrun := Operation.run_value hvalue
      refine (ih fun op hop => hops op (.later hrun (.next hop))).bind fun y _ hy => ?_
      exact ⟨.cons (hf.led (hops _ .now) hrun) hy.1, .cons ⟨f, record, g, hf, hops _ .now, hvalue⟩
        hy.2⟩

theorem readGroups_ends {entries : List (GroupKey × SlotRecord)}
    (hfs : Descend performs factories fs)
    (hops : ∀ done group rest gs rows, entries = done ++ group :: rest →
      readGroups fs done = .ok (gs, rows) →
      ∀ op, (readDemand gs group).Performs op → performs group.1 op) :
    Ends (Faulted performs)
      (fun x => x.2.map (·.key) = entries.map (·.1) ∧
        ∀ row ∈ x.2, List.Forall₂ (fun factory => factory.Reads performs row.key) factories
          row.values)
      (readGroups fs entries) := by
  induction entries generalizing fs with
  | nil => exact ⟨rfl, by simp⟩
  | cons entry rest ih =>
    refine (readRecord_ends hfs (hops [] entry rest fs [] rfl rfl)).bind fun x hread hx => ?_
    refine (ih hx.1 fun done group rest' gs rows hsplit hdone => ?_).bind fun y _ hy => ⟨?_, ?_⟩
    · refine hops (entry :: done) group rest' gs (⟨entry.1, x.2⟩ :: rows) ?_ ?_
      · rw [hsplit, List.cons_append]
      · simp only [readGroups, hread, ok_bind, hdone]
        rfl
    · rw [List.map_cons, List.map_cons, hy.1]
    · exact List.forall_mem_cons.2 ⟨hx.2, hy.2⟩

/-- **The output of a partial result** has one row for each of its groups, sorted by key, and in
each row one value for every factory. -/
theorem Lists.finish_ends (h : p.Lists performs factories keys) {order : GroupOrder}
    (horder : (order p.groups.entries).Perm p.groups.entries)
    (hops : ∀ done group rest gs rows, order p.groups.entries = done ++ group :: rest →
      readGroups p.aggregates done = .ok (gs, rows) →
      ∀ op, (readDemand gs group).Performs op → performs group.1 op) :
    Ends (Faulted performs)
      (fun x => (x.2.map (·.key)).Nodup ∧ (∀ key, key ∈ x.2.map (·.key) ↔ key ∈ keys) ∧
        x.2.Pairwise (fun a b => GroupKey.le a.key b.key) ∧
        ∀ row ∈ x.2, List.Forall₂ (fun factory => factory.Reads performs row.key) factories
          row.values)
      (p.finish order) := by
  refine (readGroups_ends h.descend hops).bind fun x _ hx => ?_
  have hperm : ((x.2.mergeSort fun a b => GroupKey.le a.key b.key).map (·.key)).Perm
      p.groups.keys := by
    refine ((List.mergeSort_perm _ _).map _).trans ?_
    rw [hx.1]
    exact horder.map _
  refine ⟨hperm.nodup_iff.2 p.groups.nodup_keys, fun key => ?_, ?_, fun row hrow => ?_⟩
  · exact hperm.mem_iff.trans (h.mem_keys key)
  · exact List.pairwise_mergeSort (fun a b c => GroupKey.le_trans a.key b.key c.key)
      (fun a b => GroupKey.le_total a.key b.key) _
  · exact hx.2 row ((List.mergeSort_perm _ _).mem_iff.1 hrow)

end Partial

end TimeWeighted
