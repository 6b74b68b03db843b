import Mathlib
import TimeWeighted.Average
import TimeWeighted.Aggregate.Store
import TimeWeighted.Proofs.Buffer.Shelf

/-!
# Lists and accounts

What commands to a store amount to when memory is left out: every aggregate keeps a list of
observations for every record, `Lists`.  A `Ledger` keeps shelves instead, and beside them the
bytes each arena has handed out, so that it tells beforehand whether a command finds room.

* `Lists.step`, `Lists.answer` : commands to plain lists.
* `Ledger.step` : commands to shelves, with the bytes they allocate.
* `Ledger.lists_step` : the shelves hold the lists.
* `Ledger.used_le_run` : the bytes in use only grow.
-/

namespace TimeWeighted

/-- A command to a store.  With a command to merge comes what the other record holds. -/
structure Task where
  /-- The command. -/
  command : Store.Command
  /-- The observations of the other record. -/
  incoming : List Observation := []

namespace Store.Command

/-- The position of the aggregate. -/
def aggregate : Command → ℕ
  | first f _ _ | next f _ _ | merge f _ _ _ | clear f _ | value f _ => f

/-- The position of the record. -/
def record : Command → ℕ
  | first _ v _ | next _ v _ | merge _ v _ _ | clear _ v | value _ v => v

end Store.Command

/-! ### Plain lists -/

/-- A list of observations for every aggregate and every record. -/
abbrev Lists := ℕ → ℕ → List Observation

namespace Lists

variable (observe : ℕ → Row → Observation)

/-- Replaces one list. -/
def put (lists : Lists) (f v : ℕ) (entries : List Observation) : Lists :=
  Function.update lists f (Function.update (lists f) v entries)

theorem put_apply_self (lists : Lists) (f v : ℕ) (entries : List Observation) :
    lists.put f v entries f v = entries := by
  simp [put]

theorem put_apply_of_ne {lists : Lists} {f v w : ℕ} {entries : List Observation} (h : v ≠ w) :
    lists.put f v entries f w = lists f w := by
  simp [put, h.symm]

/-- One command: the first row starts a list, further rows are appended, both unless the
observation in the row is not valid.  Lists are merged by time, and of equal times the entries that
were there come first. -/
def step (lists : Lists) (task : Task) : Lists :=
  match task.command with
  | .first f v row => lists.put f v ([observe f row].filter Observation.isValid)
  | .next f v row => lists.put f v (lists f v ++ [observe f row].filter Observation.isValid)
  | .merge f v _ _ => lists.put f v ((lists f v).merge task.incoming Shelf.le)
  | .clear f v => lists.put f v []
  | .value _ _ => lists

/-- Commands one after the other. -/
def run (lists : Lists) (tasks : List Task) : Lists :=
  tasks.foldl (step observe) lists

/-- The answer to a request for a value is the average of the list. -/
def answer (lists : Lists) : Store.Command → Option Float
  | .value f v => some (Observation.average (lists f v))
  | .first .. | .next .. | .merge .. | .clear .. => none

/-- The values asked for. -/
def answers (lists : Lists) : List Task → List Float
  | [] => []
  | task :: rest => (lists.answer task.command).toList ++ answers (lists.step observe task) rest

end Lists

/-! ### Shelves and bytes -/

/-- Shelves for every aggregate and every record, and the bytes each aggregate uses. -/
structure Ledger where
  /-- What each aggregate reads from a row. -/
  observe : ℕ → Row → Observation
  /-- The shelf that an aggregate has for a record. -/
  shelf : ℕ → ℕ → Shelf
  /-- The bytes an aggregate has allocated. -/
  used : ℕ → ℕ

namespace Ledger

/-- Replaces one shelf and allocates bytes. -/
def put (ledger : Ledger) (f v : ℕ) (s : Shelf) (bytes : ℕ) : Ledger where
  observe := ledger.observe
  shelf := Function.update ledger.shelf f (Function.update (ledger.shelf f) v s)
  used := Function.update ledger.used f (Arena.grown (ledger.used f) bytes)

/-- One command. -/
def step (ledger : Ledger) (task : Task) : Ledger :=
  match task.command with
  | .first f v row =>
    ledger.put f v (.first (ledger.observe f row)) (Shelf.firstBytes (ledger.observe f row))
  | .next f v row =>
    ledger.put f v ((ledger.shelf f v).push (ledger.observe f row))
      ((ledger.shelf f v).pushBytes (ledger.observe f row))
  | .merge f v _ _ =>
    ledger.put f v ((ledger.shelf f v).merge task.incoming)
      ((ledger.shelf f v).mergeBytes task.incoming)
  | .clear f v => ledger.put f v {} 0
  | .value _ _ => ledger

/-- Commands one after the other. -/
def run (ledger : Ledger) (tasks : List Task) : Ledger :=
  tasks.foldl step ledger

/-- The lists on the shelves. -/
def lists (ledger : Ledger) : Lists :=
  fun f v => (ledger.shelf f v).entries

variable {ledger : Ledger} {f v : ℕ} {s : Shelf} {bytes : ℕ}

@[simp] theorem observe_put : (ledger.put f v s bytes).observe = ledger.observe :=
  rfl

@[simp] theorem shelf_put_self :
    (ledger.put f v s bytes).shelf f = Function.update (ledger.shelf f) v s :=
  Function.update_self ..

@[simp] theorem used_put_self :
    (ledger.put f v s bytes).used f = Arena.grown (ledger.used f) bytes :=
  Function.update_self ..

theorem shelf_put_of_ne {g : ℕ} (h : g ≠ f) : (ledger.put f v s bytes).shelf g = ledger.shelf g :=
  Function.update_of_ne h ..

theorem used_put_of_ne {g : ℕ} (h : g ≠ f) : (ledger.put f v s bytes).used g = ledger.used g :=
  Function.update_of_ne h ..

theorem put_self (ledger : Ledger) (f v : ℕ) : ledger.put f v (ledger.shelf f v) 0 = ledger := by
  simp [put, Function.update_eq_self]

theorem lists_put : (ledger.put f v s bytes).lists = ledger.lists.put f v s.entries := by
  funext g w
  by_cases hg : g = f
  · subst hg
    by_cases hw : w = v
    · subst hw
      simp [lists, Lists.put]
    · simp [lists, Lists.put, hw]
  · simp [lists, Lists.put, shelf_put_of_ne hg, hg]

theorem used_le_put (ledger : Ledger) (f v : ℕ) (s : Shelf) (bytes g : ℕ) :
    ledger.used g ≤ (ledger.put f v s bytes).used g := by
  by_cases hg : g = f
  · subst hg
    rw [used_put_self]
    exact Arena.le_grown _ _
  · rw [used_put_of_ne hg]

@[simp] theorem observe_step (ledger : Ledger) (task : Task) :
    (ledger.step task).observe = ledger.observe := by
  unfold step
  split <;> rfl

/-- A command does to the lists on the shelves what it does to plain lists. -/
theorem lists_step (ledger : Ledger) (task : Task) :
    (ledger.step task).lists = ledger.lists.step ledger.observe task := by
  unfold step Lists.step
  split
  · rw [lists_put, Shelf.first]
    split_ifs with hv <;> simp [hv]
  · rw [lists_put, Shelf.entries_push]
    split_ifs with hv <;> simp [hv, lists]
  · rw [lists_put, Shelf.entries_merge]
    rfl
  · rw [lists_put]
  · rfl

theorem lists_run (ledger : Ledger) (tasks : List Task) :
    (ledger.run tasks).lists = ledger.lists.run ledger.observe tasks := by
  induction tasks generalizing ledger with
  | nil => rfl
  | cons task rest ih =>
    have hrest := ih (ledger.step task)
    rw [lists_step, observe_step] at hrest
    exact hrest

theorem used_le_step (ledger : Ledger) (task : Task) (g : ℕ) :
    ledger.used g ≤ (ledger.step task).used g := by
  unfold step
  split
  case h_5 => exact le_rfl
  all_goals exact used_le_put ..

/-- No command gives bytes back. -/
theorem used_le_run (ledger : Ledger) (tasks : List Task) (g : ℕ) :
    ledger.used g ≤ (ledger.run tasks).used g := by
  induction tasks generalizing ledger with
  | nil => exact le_rfl
  | cons task rest ih => exact (ledger.used_le_step task g).trans (ih (ledger.step task))

end Ledger

end TimeWeighted
