import Mathlib
import TimeWeighted.Engine.MergeTree

/-!
# Merging as sorting

Merging sorted lists two at a time sorts all of them together, and sorts them stably: what is alike
stays in the order of the leaves.  A sorted list is determined by its parts of entries that are
alike, and neither merging nor sorting touches the order inside such a part.

* `eq_mergeSort` : a sorted list with the right parts is the stably sorted list.
* `merge_mergeSort` : merging two stably sorted lists.
* `MergeTree.fold_merge` : **a tree of merges is one stable sort of its leaves.**
* `MergeTree.depth_balanced` : the balanced tree of `2 ^ k` leaves is at most `k` deep.
-/

namespace TimeWeighted

/-! ### Parts of a sorted list -/

section

variable {α : Type} (le : α → α → Bool)

/-- Two entries that may stand in either order. -/
def alike (x y : α) : Bool :=
  le x y && le y x

variable {le} (trans : ∀ a b c, le a b → le b c → le a c) (total : ∀ a b, le a b || le b a)

include total in
theorem alike_self (x : α) : alike le x x = true := by
  have h := total x x
  simp only [Bool.or_self] at h
  simp [alike, h]

include total in
theorem le_of_cons_of_mem {a x : α} {l : List α} (h : (a :: l).Pairwise (le · ·))
    (hx : x ∈ a :: l) : le a x := by
  rcases List.mem_cons.1 hx with rfl | hx
  · simpa using total x x
  · exact List.rel_of_pairwise_cons h hx

include total in
theorem eq_of_filter_alike {l m : List α} (hl : l.Pairwise (le · ·)) (hm : m.Pairwise (le · ·))
    (h : ∀ x, l.filter (alike le x) = m.filter (alike le x)) : l = m := by
  induction l generalizing m with
  | nil =>
    cases m with
    | nil => rfl
    | cons b m =>
      have hb := h b
      simp [alike_self total b] at hb
  | cons a l ih =>
    cases m with
    | nil =>
      have ha := h a
      simp [alike_self total a] at ha
    | cons b m =>
      -- the parts of both heads are there on both sides, so the heads are alike
      have hfind : ∀ x, x ∈ a :: l ↔ x ∈ b :: m := by
        intro x
        have hx := congrArg (x ∈ ·) (h x)
        simpa [List.mem_filter, alike_self total x] using hx
      have hab : le a b := le_of_cons_of_mem total hl ((hfind b).2 List.mem_cons_self)
      have hba : le b a := le_of_cons_of_mem total hm ((hfind a).1 List.mem_cons_self)
      have hhead := h a
      rw [List.filter_cons_of_pos (alike_self total a),
        List.filter_cons_of_pos (by simp [alike, hab, hba])] at hhead
      obtain rfl : a = b := (List.cons.inj hhead).1
      congr 1
      refine ih hl.of_cons hm.of_cons fun x => ?_
      have hx := h x
      simp only [List.filter_cons] at hx
      split_ifs at hx
      · exact (List.cons.inj hx).2
      · exact hx

include trans total in
theorem filter_mergeSort (l : List α) (x : α) :
    (l.mergeSort le).filter (alike le x) = l.filter (alike le x) := by
  have hpart : (l.filter (alike le x)).Pairwise (le · ·) := by
    refine List.pairwise_of_forall_mem_list fun a ha b hb => ?_
    simp only [List.mem_filter, alike, Bool.and_eq_true] at ha hb
    exact trans a x b ha.2.2 hb.2.1
  have hsub := (List.sublist_mergeSort trans total hpart List.filter_sublist).filter (alike le x)
  rw [List.filter_filter] at hsub
  simp only [Bool.and_self] at hsub
  refine (hsub.eq_of_length ?_).symm
  exact ((List.mergeSort_perm l le).filter (alike le x)).length_eq.symm

include trans in
theorem filter_merge {l m : List α} (hl : l.Pairwise (le · ·)) (x : α) :
    (l.merge m le).filter (alike le x) = l.filter (alike le x) ++ m.filter (alike le x) := by
  induction l generalizing m with
  | nil => simp
  | cons a l ih =>
    induction m with
    | nil => simp
    | cons b m ihm =>
      rw [List.cons_merge_cons]
      split_ifs with hab
      · rw [List.filter_cons, ih hl.of_cons, List.filter_cons (x := a)]
        split_ifs <;> rfl
      · rw [List.filter_cons, ihm, List.filter_cons (x := b)]
        split_ifs with hb
        · -- an entry of the first list that is alike would stand before `b`
          have hnone : (a :: l).filter (alike le x) = [] := by
            rw [List.filter_eq_nil_iff]
            intro z hz hxz
            simp only [alike, Bool.and_eq_true] at hb hxz
            have hzb := trans z x b hxz.2 hb.1
            rcases List.mem_cons.1 hz with rfl | hz
            · exact hab hzb
            · exact hab (trans a z b (List.rel_of_pairwise_cons hl hz) hzb)
          rw [hnone]
          rfl
        · rfl

include trans total in
/-- A sorted list with the parts of another is that one stably sorted. -/
theorem eq_mergeSort {l m : List α} (hl : l.Pairwise (le · ·))
    (h : ∀ x, l.filter (alike le x) = m.filter (alike le x)) : l = m.mergeSort le := by
  refine eq_of_filter_alike total hl (List.pairwise_mergeSort trans total m) fun x => ?_
  rw [filter_mergeSort trans total, h]

include trans total in
theorem merge_mergeSort (l m : List α) :
    (l.mergeSort le).merge (m.mergeSort le) le = (l ++ m).mergeSort le := by
  have hl := List.pairwise_mergeSort trans total l
  have hm := List.pairwise_mergeSort trans total m
  refine eq_mergeSort trans total (List.pairwise_merge trans total _ _ hl hm) fun x => ?_
  rw [filter_merge trans hl, filter_mergeSort trans total, filter_mergeSort trans total,
    List.filter_append]

end

namespace MergeTree

variable {α β : Type}

/-- Works out a tree from its leaves up. -/
def fold (leaf : α → β) (node : β → β → β) : MergeTree α → β
  | .leaf item => leaf item
  | .node dest src => node (dest.fold leaf node) (src.fold leaf node)

theorem fold_add (f : α → ℕ) (tree : MergeTree α) :
    tree.fold f (· + ·) = (tree.leaves.map f).sum := by
  induction tree with
  | leaf item => simp [fold, leaves]
  | node dest src ihd ihs => simp [fold, leaves, ihd, ihs]

/-- **A tree of merges is one stable sort of its leaves**, if every leaf is sorted. -/
theorem fold_merge {le : β → β → Bool} (trans : ∀ a b c, le a b → le b c → le a c)
    (total : ∀ a b, le a b || le b a) (entries : α → List β) (tree : MergeTree α)
    (sorted : ∀ item ∈ tree.leaves, (entries item).Pairwise (le · ·)) :
    tree.fold entries (fun l m => l.merge m le) = (tree.leaves.flatMap entries).mergeSort le := by
  induction tree with
  | leaf item =>
    have h := sorted item (by simp [leaves])
    simpa [fold, leaves] using (List.mergeSort_of_pairwise h).symm
  | node dest src ihd ihs =>
    have hd := ihd fun item h => sorted item (List.mem_append_left _ h)
    have hs := ihs fun item h => sorted item (List.mem_append_right _ h)
    rw [fold, hd, hs, merge_mergeSort trans total, leaves, List.flatMap_append]

/-! ### Depth -/

/-- The number of merges on the longest way from a leaf to the root. -/
def depth : MergeTree α → ℕ
  | leaf _ => 0
  | node dest src => max dest.depth src.depth + 1

theorem depth_pairUp {d : ℕ} : {ts : List (MergeTree α)} → (∀ t ∈ ts, t.depth ≤ d) →
    ∀ t ∈ pairUp ts, t.depth ≤ d + 1
  | [], _ => by simp [pairUp]
  | [t], h => by
    have := h t List.mem_cons_self
    simp only [pairUp, List.mem_singleton, forall_eq]
    omega
  | dest :: src :: rest, h => by
    have hd := h dest List.mem_cons_self
    have hs := h src (List.mem_cons_of_mem _ List.mem_cons_self)
    have hrest := depth_pairUp fun t ht =>
      h t (List.mem_cons_of_mem _ (List.mem_cons_of_mem _ ht))
    intro t ht
    rcases List.mem_cons.1 ht with rfl | ht
    · simp only [depth]
      omega
    · exact hrest t ht

/-- Every round halves the number of trees and adds at most one to their depth. -/
theorem depth_collapse {d k : ℕ} {ts : List (MergeTree α)} {tree : MergeTree α}
    (h : collapse ts = some tree) (hd : ∀ t ∈ ts, t.depth ≤ d) (hk : ts.length ≤ 2 ^ k) :
    tree.depth ≤ d + k := by
  fun_induction collapse ts generalizing d k with
  | case1 => cases h
  | case2 t =>
    cases h
    have := hd _ List.mem_cons_self
    omega
  | case3 a b rest ih =>
    cases k with
    | zero => simp at hk
    | succ k =>
      have hlen : (pairUp (a :: b :: rest)).length ≤ 2 ^ k := by
        rw [length_pairUp]
        rw [pow_succ] at hk
        omega
      have := ih h (depth_pairUp hd) hlen
      omega

/-- The balanced tree of at most `2 ^ k` items is at most `k` deep. -/
theorem depth_balanced {k : ℕ} {items : List α} {tree : MergeTree α}
    (h : balanced? items = some tree) (hk : items.length ≤ 2 ^ k) : tree.depth ≤ k := by
  have hleaf : ∀ t ∈ items.map (leaf (α := α)), t.depth ≤ 0 := by
    simp [depth]
  have := depth_collapse h hleaf (by rwa [List.length_map])
  omega

theorem leaves_of_balanced {items : List α} {tree : MergeTree α}
    (h : balanced? items = some tree) : tree.leaves = items := by
  have hleaves := leaves_balanced? items
  rwa [h] at hleaves

theorem exists_balanced {items : List α} (h : items ≠ []) :
    ∃ tree, balanced? items = some tree := by
  cases htree : balanced? items with
  | some tree => exact ⟨tree, rfl⟩
  | none =>
    have hleaves := leaves_balanced? items
    rw [htree] at hleaves
    exact absurd hleaves.symm h

end MergeTree

end TimeWeighted
