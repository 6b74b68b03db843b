import TimeWeighted.Aggregate.Basic

/-!
# Stores

Aggregates and records side by side, and the commands that let one of the aggregates work on one of
the records.  Which record belongs to which group is the caller's affair.

* `Store.step` : one command; after a fault, what was changed before it stays changed.
* `Store.run` : commands one after another, up to the first fault.
-/

namespace TimeWeighted

/-- Aggregates, and records for them to work on. -/
structure Store (φ : Type) where
  /-- The aggregates. -/
  aggregates : Array φ := #[]
  /-- The records. -/
  records : Array SlotRecord := #[]

namespace Store

/-- A command to the aggregate `f` about the record `v`, both given by their positions. -/
inductive Command where
  /-- The first row of the group. -/
  | first (f v : Nat) (row : Row)
  /-- A further row of the group. -/
  | next (f v : Nat) (row : Row)
  /-- Another record of the group, whose bytes lie in the arena `source`. -/
  | merge (f v : Nat) (other : SlotRecord) (source : Arena)
  /-- To empty the record. -/
  | clear (f v : Nat)
  /-- To compute the value of the record. -/
  | value (f v : Nat)

variable {φ : Type}

/-- The store with the aggregate `f` and the record `v` replaced. -/
def put (store : Store φ) (f v : Nat) (aggregate : φ) (record : SlotRecord) : Store φ where
  aggregates := store.aggregates.setIfInBounds f aggregate
  records := store.records.setIfInBounds v record

/-- Carries out an update of the aggregate `f` and the record `v`. -/
def update (f v : Nat) (change : UpdateM φ Unit) : EStateM Fault (Store φ) Unit := fun store =>
  match store.aggregates[f]?, store.records[v]? with
  | some aggregate, some record =>
    match change (aggregate, record) with
    | .ok _ (aggregate, record) => .ok () (store.put f v aggregate record)
    | .error fault (aggregate, record) => .error fault (store.put f v aggregate record)
  | _, _ => .error .outOfBounds store

/-- Computes the value that the record `v` has for the aggregate `f`. -/
def value [Aggregate φ] (f v : Nat) : EStateM Fault (Store φ) Float := fun store =>
  match store.aggregates[f]?, store.records[v]? with
  | some aggregate, some record =>
    match Aggregate.value record aggregate with
    | .ok x aggregate => .ok x (store.put f v aggregate record)
    | .error fault aggregate => .error fault (store.put f v aggregate record)
  | _, _ => .error .outOfBounds store

/-- Carries out one command; only a request for a value is answered. -/
def step [Aggregate φ] : Command → EStateM Fault (Store φ) (Option Float)
  | .first f v row => do
    update f v (Aggregate.first row)
    return none
  | .next f v row => do
    update f v (Aggregate.next row)
    return none
  | .merge f v other source => do
    update f v (Aggregate.merge other source)
    return none
  | .clear f v => do
    update f v Aggregate.clear
    return none
  | .value f v => return some (← value f v)

/-- Carries out commands up to the first fault and collects the values asked for. -/
def run [Aggregate φ] : List Command → EStateM Fault (Store φ) (List Float)
  | [] => return []
  | command :: rest => do
    let answer ← step command
    let answers ← run rest
    return answer.toList ++ answers

end Store

end TimeWeighted
