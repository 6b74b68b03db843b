/-!
# Merge trees

Many results become one by merging two at a time.  A merge tree says which with which: a node
merges what its right branch yields into what its left branch yields.

* `MergeTree.balanced?` : neighbours are paired round after round, an odd one out waits.
* `MergeTree.foldM` : carrying out the merges of a tree.
* `MergeTree.leaves_balanced?` : the leaves of the balanced tree are the items in their order.
-/

namespace TimeWeighted

/-- Which of the two branches of a node. -/
inductive Branch where
  | left
  | right
  deriving DecidableEq, Repr

/-- A plan to merge items into one. -/
inductive MergeTree (α : Type) where
  /-- Nothing to merge. -/
  | leaf (item : α)
  /-- What `src` yields is merged into what `dest` yields. -/
  | node (dest src : MergeTree α)

namespace MergeTree

variable {α : Type}

/-- The items from left to right. -/
def leaves : MergeTree α → List α
  | leaf item => [item]
  | node dest src => dest.leaves ++ src.leaves

/-- One round: neighbours become nodes, and one left over at the end stays as it is. -/
def pairUp : List (MergeTree α) → List (MergeTree α)
  | [] => []
  | [t] => [t]
  | dest :: src :: rest => node dest src :: pairUp rest

theorem length_pairUp : (ts : List (MergeTree α)) → (pairUp ts).length = (ts.length + 1) / 2
  | [] => by simp [pairUp]
  | [_] => by simp [pairUp]
  | _ :: _ :: rest => by
    simp only [pairUp, List.length_cons, length_pairUp rest]
    omega

theorem leaves_pairUp : (ts : List (MergeTree α)) → (pairUp ts).flatMap leaves = ts.flatMap leaves
  | [] => by simp [pairUp]
  | [_] => by simp [pairUp]
  | _ :: _ :: rest => by
    simp only [pairUp, List.flatMap_cons, leaves, leaves_pairUp rest, List.append_assoc]

/-- Rounds until one tree is left. -/
def collapse : List (MergeTree α) → Option (MergeTree α)
  | [] => none
  | [t] => some t
  | a :: b :: rest => collapse (pairUp (a :: b :: rest))
termination_by ts => ts.length
decreasing_by
  simp only [length_pairUp, List.length_cons]
  omega

/-- The tree that merges items in rounds of pairs. -/
def balanced? (items : List α) : Option (MergeTree α) :=
  collapse (items.map leaf)

theorem leaves_collapse (ts : List (MergeTree α)) :
    ((collapse ts).elim [] leaves) = ts.flatMap leaves := by
  fun_induction collapse ts with
  | case1 => rfl
  | case2 t => simp
  | case3 a b rest ih => rw [ih, leaves_pairUp]

theorem leaves_balanced? (items : List α) : (balanced? items).elim [] leaves = items := by
  rw [balanced?, leaves_collapse]
  induction items with
  | nil => rfl
  | cons item rest ih => simpa [leaves] using ih

/-- Carries out the merges of a tree.  `merge` is told where in the tree it stands, by the way from
the root. -/
def foldM {m : Type → Type} [Monad m] (merge : List Branch → α → α → m α) :
    List Branch → MergeTree α → m α
  | _, leaf item => return item
  | way, node dest src => do
    let dest ← foldM merge (way ++ [.left]) dest
    let src ← foldM merge (way ++ [.right]) src
    merge way dest src

end MergeTree

end TimeWeighted
