import TimeWeighted.Arena.Basic

/-!
# Pools of arenas

Several arenas that take their ids from one supply, and the commands that work on them.  A handle
is a value of its own and may be used with any arena of the pool; whether it belongs there is
checked at every access.

* `Pool.step` : one command.  A command that faults leaves every arena as it was; it may have used
  up an id.
* `Pool.run` : a list of commands, each answered on its own.
-/

namespace TimeWeighted

/-- Arenas and the supply their ids come from. -/
structure Pool where
  /-- The supply of ids. -/
  supply : IdSupply
  /-- The arenas, in the order of their creation. -/
  arenas : Array Arena := #[]

namespace Pool

/-- A command to the arenas of a pool, which go by their positions. -/
inductive Command where
  /-- A new arena with some room set aside. -/
  | create (reserve : Nat)
  /-- `size` fresh bytes. -/
  | alloc (arena size : Nat)
  /-- Writes bytes to a place. -/
  | write (arena : Nat) (target : Handle) (chunk : ByteArray)
  /-- Copies `len` bytes inside one arena. -/
  | copyWithin (arena : Nat) (source target : Handle) (len : Nat)
  /-- Copies `len` bytes from the arena `origin` into `arena`. -/
  | copyFrom (arena origin : Nat) (source target : Handle) (len : Nat)
  /-- Empties an arena and gives it a new id. -/
  | reset (arena : Nat)

/-- The answer to a command. -/
inductive Reply where
  /-- The position of the new arena. -/
  | created (arena : Nat)
  /-- The place of the fresh bytes. -/
  | allocated (place : Handle)
  /-- The command was carried out. -/
  | done

/-- Runs an operation on one arena of the pool. -/
def onArena {α : Type} (i : Nat) (operation : ArenaM α) : EStateM Fault Pool α := fun pool =>
  match pool.arenas[i]? with
  | none => .error .outOfBounds pool
  | some arena =>
    match operation arena with
    | .ok a arena => .ok a { pool with arenas := pool.arenas.setIfInBounds i arena }
    | .error fault arena => .error fault { pool with arenas := pool.arenas.setIfInBounds i arena }

/-- The arena at a position. -/
def arena (i : Nat) : EStateM Fault Pool Arena := do
  match (← get).arenas[i]? with
  | none => throw .outOfBounds
  | some arena => return arena

/-- Adds an empty arena and returns its position. -/
def create (reserve : Nat) : EStateM Fault Pool Nat := fun pool =>
  match Arena.create reserve pool.supply with
  | .ok arena supply => .ok pool.arenas.size { supply, arenas := pool.arenas.push arena }
  | .error fault supply => .error fault { pool with supply }

/-- Resets the arena at a position. -/
def reset (i : Nat) : EStateM Fault Pool Unit := do
  let old ← arena i
  modify fun pool =>
    let (fresh, supply) := old.reset.run pool.supply
    { supply, arenas := pool.arenas.setIfInBounds i fresh }

/-- Carries out one command. -/
def step : Command → EStateM Fault Pool Reply
  | .create reserve => return .created (← create reserve)
  | .alloc i size => return .allocated (← onArena i (Arena.alloc size))
  | .write i target chunk => do
    onArena i (Arena.write target chunk)
    return .done
  | .copyWithin i source target len => do
    onArena i (Arena.copyWithin source target len)
    return .done
  | .copyFrom i origin source target len => do
    let other ← arena origin
    onArena i (Arena.copyFrom other source target len)
    return .done
  | .reset i => do
    reset i
    return .done

/-- Carries out commands one after another, going on after a fault, and collects the answers. -/
def run : List Command → Pool → List (Except Fault Reply) × Pool
  | [], pool => ([], pool)
  | command :: rest, pool =>
    match step command pool with
    | .ok reply pool => (run rest pool).map (.ok reply :: ·) id
    | .error fault pool => (run rest pool).map (.error fault :: ·) id

end Pool

end TimeWeighted
