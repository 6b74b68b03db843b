import TimeWeighted.Aggregate.Basic
import TimeWeighted.Engine.Groups

/-!
# Partial results

A worker gathers the rows it is given into a partial result: its own instances of all aggregates,
each with its own arena, and one record per group.  Partial results are merged group by group, and
the last one left is read.

* `Partial.create` : nothing gathered yet.
* `Partial.gather` : rows, one after the other.
* `Partial.merge` : the groups of another partial result.
* `Partial.finish` : one output row per group, sorted by key.
-/

namespace TimeWeighted

/-- What a worker has gathered. -/
structure Partial (φ : Type) where
  /-- The instances of the aggregates, in the order of the query. -/
  aggregates : List φ
  /-- The slots of all of them. -/
  layout : SlotLayout
  /-- The records of the groups seen. -/
  groups : Groups SlotRecord := {}

/-- An output row. -/
structure GroupRow where
  /-- The key of the group. -/
  key : GroupKey
  /-- One value per aggregate, in the order of the query; `NaN` where there is none. -/
  values : List Float

/-- An order to go through groups in. -/
abbrev GroupOrder := List (GroupKey × SlotRecord) → List (GroupKey × SlotRecord)

namespace Partial

variable {φ : Type} [Aggregate φ]

/-- Makes an instance of every aggregate, registers its slots and hands it a fresh arena. -/
def instances (reserve : Nat) :
    List (Factory φ) → SlotLayout → EStateM Fault IdSupply (List φ × SlotLayout)
  | [], layout => return ([], layout)
  | factory :: rest, layout => do
    let (f, layout) := Aggregate.register layout (← liftM factory)
    let arena ← Arena.create reserve
    let (fs, layout) ← instances reserve rest layout
    return (Aggregate.adopt arena f :: fs, layout)

/-- A partial result without groups. -/
def create (reserve : Nat) (factories : List (Factory φ)) :
    EStateM Fault IdSupply (Partial φ) := do
  let (aggregates, layout) ← instances reserve factories {}
  return { aggregates, layout }

/-- Whether what is gathered here can be merged with what is gathered elsewhere. -/
def isParallel (p : Partial φ) : Bool :=
  p.aggregates.all fun f => (Aggregate.capabilities f).parallel

/-- Carries out an update for every aggregate on the record that they share. -/
def updateAll (update : UpdateM φ Unit) : List φ → SlotRecord → Except Fault (List φ × SlotRecord)
  | [], record => return ([], record)
  | f :: fs, record => do
    let (f, record) ← update.apply f record
    let (fs, record) ← updateAll update fs record
    return (f :: fs, record)

/-- Carries out an update for every aggregate, each beside its counterpart in `others`. -/
def updateBeside (update : φ → UpdateM φ Unit) (others : List φ) :
    List φ → SlotRecord → Except Fault (List φ × SlotRecord)
  | [], record => return ([], record)
  | f :: fs, record =>
    match others with
    | [] => return (f :: fs, record)
    | other :: others => do
      let (f, record) ← (update other).apply f record
      let (fs, record) ← updateBeside update others fs record
      return (f :: fs, record)

/-- Gathers one row: the first row of a group starts a record, further rows go to the record that
is there. -/
def gatherRow (groupBy : Option Nat) : Partial φ → Row → Except Fault (Partial φ)
  | ⟨aggregates, layout, groups⟩, row => do
    let key := groupBy.bind row.symbol
    let (aggregates, record) ←
      match groups.find? key with
      | some record => updateAll (Aggregate.next row) aggregates record
      | none => updateAll (Aggregate.first row) aggregates layout.newRecord
    return ⟨aggregates, layout, groups.insert key record⟩

/-- Gathers rows of a table in the order given. -/
def gather (groupBy : Option Nat) (table : Table) (rows : List Nat) (p : Partial φ) :
    Except Fault (Partial φ) :=
  rows.foldlM (fun p i => gatherRow groupBy p (table.row i)) p

/-- Merges one group of another partial result, whose aggregates are `others`.  A group that is not
here yet starts out empty. -/
def mergeGroup (others : List φ) :
    Partial φ → GroupKey × SlotRecord → Except Fault (Partial φ)
  | ⟨aggregates, layout, groups⟩, (key, other) => do
    let (aggregates, record) ←
      match groups.find? key with
      | some record =>
        updateBeside (fun f => Aggregate.merge other (Aggregate.arena f)) others aggregates record
      | none =>
        updateBeside (fun f => do
            Aggregate.clear
            Aggregate.merge other (Aggregate.arena f))
          others aggregates layout.newRecord
    return ⟨aggregates, layout, groups.insert key record⟩

/-- Merges all groups of another partial result, in some order. -/
def merge (order : GroupOrder) (dest src : Partial φ) : Except Fault (Partial φ) :=
  (order src.groups.entries).foldlM (mergeGroup src.aggregates) dest

/-- Adds the group of all rows, empty, if no row has been seen. -/
def ensureTotal (p : Partial φ) : Except Fault (Partial φ) :=
  match p.groups.find? none with
  | some _ => return p
  | none => do
    let (aggregates, record) ← updateAll Aggregate.clear p.aggregates p.layout.newRecord
    return { p with aggregates, groups := p.groups.insert none record }

/-- The value of a record for every aggregate. -/
def readRecord (record : SlotRecord) : List φ → Except Fault (List φ × List Float)
  | [] => return ([], [])
  | f :: fs =>
    match Aggregate.value record f with
    | .error fault _ => .error fault
    | .ok value f => do
      let (fs, values) ← readRecord record fs
      return (f :: fs, value :: values)

/-- The values of all groups. -/
def readGroups : List φ → List (GroupKey × SlotRecord) → Except Fault (List φ × List GroupRow)
  | fs, [] => return (fs, [])
  | fs, (key, record) :: rest => do
    let (fs, values) ← readRecord record fs
    let (fs, rows) ← readGroups fs rest
    return (fs, ⟨key, values⟩ :: rows)

/-- The output rows, sorted by key, and the aggregates as they are after reading. -/
def finish (order : GroupOrder) (p : Partial φ) : Except Fault (List φ × List GroupRow) := do
  let (aggregates, rows) ← readGroups p.aggregates (order p.groups.entries)
  return (aggregates, rows.mergeSort fun a b => GroupKey.le a.key b.key)

end Partial

end TimeWeighted
