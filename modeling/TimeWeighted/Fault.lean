/-!
# Faults

An operation on an arena, a handle or a group record may be asked for something that cannot be
done: bytes that are not there, a slot past the end of a record, a length that no machine word
holds, more room than a block of memory may have.  Such an operation *faults*.  Operations that
carry state do so in `EStateM`, which keeps the state reached when the fault arose: what was changed
before it stays changed.

* `Fault.message?` : the two faults that have a text of their own.
* `liftM_ok`, `liftM_error` : a pure computation inside a stateful one.
* `liftM_apply` : a stateful computation that cannot fault inside one that may.
* `wordSpan`, `checkedLength` : the lengths and offsets that fit into a 64-bit word.
-/

namespace TimeWeighted

/-- Why an operation on arenas, handles or records cannot be carried out. -/
inductive Fault where
  /-- An allocation would end beyond the offsets a handle can hold. -/
  | arenaExhausted
  /-- A handle would be the zero word, which stands for "no buffer". -/
  | zeroHandle
  /-- A length or an offset in bytes does not fit into 64 bits. -/
  | lengthOverflow
  /-- A handle of another arena, or one beyond the bytes allocated since the last reset. -/
  | foreignHandle
  /-- A byte range or a slot beyond what is there. -/
  | outOfBounds
  /-- More bytes are to be set aside than a block of memory may have. -/
  | reservationTooLarge
  deriving DecidableEq, Repr

/-- The text of a fault, for the faults that have one. -/
def Fault.message? : Fault → Option String
  | arenaExhausted => some "arena exhausted"
  | zeroHandle => some "arena id is never zero"
  | lengthOverflow | foreignHandle | outOfBounds | reservationTooLarge => none

/-- The number of values of a 64-bit word. -/
def wordSpan : Nat := 0x10000000000000000

/-- Passes `n` on if it fits into 64 bits. -/
def checkedLength (n : Nat) : Except Fault Nat :=
  if n < wordSpan then .ok n else .error .lengthOverflow

@[simp] theorem checkedLength_of_lt {n : Nat} (h : n < wordSpan) : checkedLength n = .ok n :=
  if_pos h

/-- A pure computation runs inside a stateful one; if it faults, the state stays as it is. -/
instance {σ : Type} : MonadLift (Except Fault) (EStateM Fault σ) where
  monadLift
    | .ok a => pure a
    | .error fault => throw fault

@[simp] theorem liftM_ok {σ α : Type} (a : α) :
    (liftM (Except.ok a : Except Fault α) : EStateM Fault σ α) = pure a :=
  rfl

@[simp] theorem liftM_error {σ α : Type} (fault : Fault) :
    (liftM (Except.error fault : Except Fault α) : EStateM Fault σ α) = throw fault :=
  rfl

/-- A computation that cannot fault runs inside one that may. -/
instance {σ : Type} : MonadLift (StateM σ) (EStateM Fault σ) where
  monadLift computation := modifyGet computation.run

@[simp] theorem liftM_apply {σ α : Type} (computation : StateM σ α) (s : σ) :
    (liftM computation : EStateM Fault σ α) s =
      .ok (computation.run s).1 (computation.run s).2 :=
  rfl

end TimeWeighted
