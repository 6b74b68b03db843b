/-!
# Dispatch of frames

Workers share a counter of frames.  At its turn a worker takes the number on the counter and moves
the counter on; a number below the count of frames is the frame it works on next, any other number
tells it to stop.  Taking a number is one step that no other worker can come between, so a run is
described by the order in which the workers have their turns.

* `Dispatch.turn`, `Dispatch.play` : one turn, and a sequence of turns.
* `Dispatch.roundRobin` : the frames of each worker when the turns go round.
-/

namespace TimeWeighted

/-- A worker taking frames. -/
structure Worker where
  /-- The frames it has taken, latest first. -/
  taken : List Nat := []
  /-- Whether it was told to stop. -/
  stopped : Bool := false
  deriving DecidableEq, Repr

/-- The workers and their counter. -/
structure Dispatch where
  /-- The number taken next. -/
  counter : Nat
  /-- The workers. -/
  workers : Array Worker
  deriving DecidableEq, Repr

/-- A worker after it has taken a number. -/
def Worker.take (frameCount number : Nat) (worker : Worker) : Worker :=
  if number < frameCount then { worker with taken := number :: worker.taken }
  else { worker with stopped := true }

namespace Dispatch

/-- No worker has had a turn. -/
def start (workers : Nat) : Dispatch :=
  ⟨0, Array.replicate workers {}⟩

/-- The turn of worker `i`; a worker that has stopped, or is not there, lets it pass. -/
def turn (frameCount : Nat) (d : Dispatch) (i : Nat) : Dispatch :=
  match d.workers[i]? with
  | none => d
  | some worker =>
    if worker.stopped then d
    else ⟨d.counter + 1, d.workers.modify i (Worker.take frameCount d.counter)⟩

/-- The turns of some workers, one after the other. -/
def play (frameCount : Nat) (turns : List Nat) (d : Dispatch) : Dispatch :=
  turns.foldl (turn frameCount) d

/-- Whether every worker has stopped. -/
def isOver (d : Dispatch) : Bool :=
  d.workers.all (·.stopped)

/-- The frames of each worker, in the order it took them. -/
def frames (d : Dispatch) : List (List Nat) :=
  d.workers.toList.map (·.taken.reverse)

/-- The turns go round until every worker has stopped. -/
def roundRobin (frameCount workers : Nat) : Dispatch :=
  (start workers).play frameCount ((List.range (frameCount + workers)).map (· % workers))

end Dispatch

end TimeWeighted
