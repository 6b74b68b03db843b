import TimeWeighted.Engine.Dispatch
import TimeWeighted.Engine.MergeTree
import TimeWeighted.Engine.Partial

/-!
# Queries

A query computes aggregates of a table, group by group.  The table is cut into frames, workers
gather the frames they take, their partial results are merged pair by pair, and the last one is
read.  What depends on chance when workers run side by side is a parameter, the `Schedule`; the
answer is meant not to depend on it.

* `Settings.validate` : a query, unless the settings cannot be run.
* `Query.execute` : gathering, merging and reading under a schedule.
* `Query.run` : the whole query, with turns going round.
-/

namespace TimeWeighted

/-- The settings of a query. -/
structure Settings (φ : Type) where
  /-- The most workers to use. -/
  workers : Nat := 4
  /-- The number of rows in a frame. -/
  frameSize : Nat := 1024
  /-- The symbol column to group by; without one all rows are one group. -/
  groupBy : Option Nat := none
  /-- The bytes to set aside in every arena beforehand. -/
  arenaReserve : Nat := 65536
  /-- The aggregates, in the order of their values in the output. -/
  aggregates : List (Factory φ) := []

/-- Settings that can be run. -/
structure Query (φ : Type) extends Settings φ where
  /-- There is a worker. -/
  workers_pos : 0 < workers
  /-- Frames hold rows. -/
  frameSize_pos : 0 < frameSize
  /-- There is something to compute. -/
  aggregates_ne_nil : aggregates ≠ []

/-- The query with the given settings. -/
def Settings.validate {φ : Type} (settings : Settings φ) : Except Error (Query φ) :=
  if hw : settings.workers = 0 then .error (.invalidConfig .noWorkers)
  else if hs : settings.frameSize = 0 then .error (.invalidConfig .emptyFrames)
  else
    match ha : settings.aggregates with
    | [] => .error (.invalidConfig .noFunctions)
    | _ :: _ => .ok {
        settings with
        workers_pos := Nat.pos_of_ne_zero hw
        frameSize_pos := Nat.pos_of_ne_zero hs
        aggregates_ne_nil := by simp [ha] }

/-- What may differ from run to run. -/
structure Schedule where
  /-- The frames of each worker, in the order it gathers them. -/
  frames : List (List Nat)
  /-- The order in which the groups of a partial result are gone through when it is merged, for
  every merge of the tree. -/
  mergeOrder : List Branch → GroupOrder := fun _ groups => groups
  /-- The order in which the groups are read. -/
  readOrder : GroupOrder := fun groups => groups

/-- The schedule of workers that take turns. -/
def Schedule.roundRobin (frameCount workers : Nat) : Schedule where
  frames := (Dispatch.roundRobin frameCount workers).frames

/-- What a run leaves behind. -/
structure Report (φ : Type) where
  /-- The output rows. -/
  rows : List GroupRow
  /-- The partial result of every worker, before merging. -/
  gathered : List (Partial φ)
  /-- The aggregates of the partial result that was read, after reading. -/
  aggregates : List φ

/-- Why a run has no answer. -/
inductive Failure where
  /-- The query does not fit the table. -/
  | error (error : Error)
  /-- An operation faulted. -/
  | fault (fault : Fault)
  deriving DecidableEq, Repr

namespace Query

variable {φ : Type} [Aggregate φ]

/-- Refuses a group column that does not exist or holds no symbols. -/
def checkGroupColumn (query : Query φ) (table : Table) : Except Error Unit :=
  match query.groupBy with
  | none => .ok ()
  | some column =>
    if (table.column? column).any Column.isSymbols then .ok () else .error (.unknownColumn column)

/-- The number of workers: no more than there are frames, and only one if some aggregate cannot
merge what was gathered apart. -/
def workerCount (query : Query φ) (table : Table) (first : Partial φ) : Nat :=
  if first.isParallel then max (min query.workers (table.frameCount query.frameSize)) 1 else 1

/-- A partial result without groups for every worker. -/
def prepare (query : Query φ) (table : Table) : EStateM Fault IdSupply (List (Partial φ)) := do
  let first ← Partial.create query.arenaReserve query.aggregates
  let others ← (List.range (query.workerCount table first - 1)).mapM fun _ =>
    Partial.create query.arenaReserve query.aggregates
  return first :: others

/-- Has every worker gather the frames it was dealt; one that was dealt none gathers nothing. -/
def gatherAll (query : Query φ) (table : Table) :
    List (Partial φ) → List (List Nat) → Except Fault (List (Partial φ))
  | [], _ => return []
  | p :: ps, frames => do
    let rows := (frames.headD []).flatMap fun i => (table.frame query.frameSize i).indices
    let p ← p.gather query.groupBy table rows
    return p :: (← gatherAll query table ps frames.tail)

/-- Merges partial results pair by pair until one is left. -/
def reduce (order : List Branch → GroupOrder) (partials : List (Partial φ)) :
    Except Fault (Option (Partial φ)) :=
  match MergeTree.balanced? partials with
  | none => return none
  | some tree => return some (← tree.foldM (fun way => Partial.merge (order way)) [])

/-- Gathers, merges and reads. -/
def execute (query : Query φ) (table : Table) (schedule : Schedule) (workers : List (Partial φ)) :
    Except Fault (Report φ) := do
  let gathered ← query.gatherAll table workers schedule.frames
  match ← reduce schedule.mergeOrder gathered with
  | none => return { rows := [], gathered, aggregates := [] }
  | some last =>
    let last ← if query.groupBy.isNone then last.ensureTotal else pure last
    let (aggregates, rows) ← last.finish schedule.readOrder
    return { rows, gathered, aggregates }

/-- Runs a query under the schedule chosen for the number of workers. -/
def runWith (query : Query φ) (table : Table) (schedule : Nat → Schedule) :
    StateT IdSupply (Except Failure) (Report φ) := fun supply =>
  match query.checkGroupColumn table with
  | .error error => .error (.error error)
  | .ok () =>
    match query.prepare table supply with
    | .error fault _ => .error (.fault fault)
    | .ok workers supply =>
      match query.execute table (schedule workers.length) workers with
      | .error fault => .error (.fault fault)
      | .ok report => .ok (report, supply)

/-- Runs a query with workers that take turns. -/
def run (query : Query φ) (table : Table) : StateT IdSupply (Except Failure) (Report φ) :=
  query.runWith table (Schedule.roundRobin (table.frameCount query.frameSize))

end Query

end TimeWeighted
