import Mathlib
import TimeWeighted.Proofs.Engine.Reduction
import TimeWeighted.Proofs.Store.Refinement

/-!
# Merging in any order

Several instances gather one group, each with an arena of its own, and then one is merged into
another until a single one is left.  Which goes into which is up to the caller: the calls that were
made spell a merge tree, and the entries left in the end are those of its leaves from left to right,
stably sorted by time.

* `MergeCall.run` : calls one after the other; `MergeCall.forest` : the trees they spell.
* `MergeCall.forest_perm` : nothing is merged twice and nothing is left out.
* `Portion` : what one instance has of the group.
* `Portion.HoldsTree` : what has been merged so far stands for a tree; one call keeps this so.
* `Portion.run_stableSort` : **any tree of merges sorts its leaves stably**, so that only the order
  of the leaves matters, and not even that one if the instances have no times in common.
-/

namespace TimeWeighted

open Observation

/-! ### Calls -/

/-- A call to merge.  Of what is left, the item at `src` goes into the one at `dest`. -/
structure MergeCall where
  /-- The position of the item that is merged into. -/
  dest : ℕ
  /-- The position of the item that is used up. -/
  src : ℕ
  /-- Nothing is merged into itself. -/
  ne : dest ≠ src

namespace MergeCall

section

variable {α : Type} {m : Type → Type} [Monad m]

/-- Carries out one call.  Where an item is not there nothing is called. -/
def apply (merge : α → α → m α) (items : List α) (call : MergeCall) : m (List α) :=
  match items[call.dest]?, items[call.src]? with
  | some dest, some src => do
    let merged ← merge dest src
    return (items.set call.dest merged).eraseIdx call.src
  | _, _ => return items

/-- Carries out calls one after the other. -/
def run (merge : α → α → m α) (items : List α) (calls : List MergeCall) : m (List α) :=
  calls.foldlM (apply merge) items

end

variable {α : Type}

/-- One call to trees: what is merged becomes a node. -/
def plant (trees : List (MergeTree α)) (call : MergeCall) : List (MergeTree α) :=
  Id.run (apply (fun dest src => pure (.node dest src)) trees call)

/-- The trees that calls spell: each item starts as a leaf. -/
def forest (items : List α) (calls : List MergeCall) : List (MergeTree α) :=
  calls.foldl plant (items.map .leaf)

theorem plant_of_some {trees : List (MergeTree α)} {call : MergeCall} {t u : MergeTree α}
    (ht : trees[call.dest]? = some t) (hu : trees[call.src]? = some u) :
    plant trees call = (trees.set call.dest (.node t u)).eraseIdx call.src := by
  simp [plant, apply, ht, hu]

theorem plant_of_none {trees : List (MergeTree α)} {call : MergeCall}
    (h : trees[call.dest]? = none ∨ trees[call.src]? = none) : plant trees call = trees := by
  unfold plant apply
  rcases h with h | h
  · simp [h]
  · cases ht : trees[call.dest]? <;> simp [h]

open scoped List in
theorem merged_perm {items : List α} {call : MergeCall} {dest src : α}
    (hd : items[call.dest]? = some dest) (hs : items[call.src]? = some src) (merged : α) :
    (dest :: src :: (items.set call.dest merged).eraseIdx call.src).Perm (merged :: items) := by
  -- writing at `dest` leaves the item at `src` as it is, so either position can be split off
  obtain ⟨hdlt, hdest⟩ := List.getElem?_eq_some_iff.1 hd
  obtain ⟨hslt, hsrc⟩ := List.getElem?_eq_some_iff.1 hs
  have hslt' : call.src < (items.set call.dest merged).length := by rwa [List.length_set]
  have hsrc' : (items.set call.dest merged)[call.src] = src := by
    rw [List.getElem_set_ne call.ne, hsrc]
  have hrest := List.getElem_cons_eraseIdx_perm hslt'
  rw [hsrc'] at hrest
  have hset := List.set_perm_cons_eraseIdx hdlt merged
  have hitems := List.getElem_cons_eraseIdx_perm hdlt
  rw [hdest] at hitems
  calc dest :: src :: (items.set call.dest merged).eraseIdx call.src
    _ ~ dest :: items.set call.dest merged := hrest.cons _
    _ ~ dest :: merged :: items.eraseIdx call.dest := hset.cons _
    _ ~ merged :: dest :: items.eraseIdx call.dest := .swap ..
    _ ~ merged :: items := hitems.cons _

theorem plant_perm (trees : List (MergeTree α)) (call : MergeCall) :
    ((plant trees call).flatMap MergeTree.leaves).Perm (trees.flatMap MergeTree.leaves) := by
  cases ht : trees[call.dest]? with
  | none => rw [plant_of_none (.inl ht)]
  | some t =>
    cases hu : trees[call.src]? with
    | none => rw [plant_of_none (.inr hu)]
    | some u =>
      have hperm := (merged_perm ht hu (.node t u)).flatMap_right MergeTree.leaves
      simp only [List.flatMap_cons, MergeTree.leaves, ← List.append_assoc] at hperm
      rw [plant_of_some ht hu]
      exact (List.perm_append_left_iff _).1 hperm

theorem node_mem_plant {trees : List (MergeTree α)} {call : MergeCall} {t u : MergeTree α}
    (ht : trees[call.dest]? = some t) (hu : trees[call.src]? = some u) :
    .node t u ∈ plant trees call := by
  obtain ⟨hlt, -⟩ := List.getElem?_eq_some_iff.1 ht
  rw [plant_of_some ht hu, List.mem_eraseIdx_iff_getElem?]
  exact ⟨call.dest, call.ne, List.getElem?_set_self hlt⟩

theorem flatMap_leaves (items : List α) :
    (items.map MergeTree.leaf).flatMap MergeTree.leaves = items := by
  simp [List.flatMap_map, MergeTree.leaves]

/-- **Every item is a leaf of one of the trees, once.** -/
theorem forest_perm (items : List α) (calls : List MergeCall) :
    ((forest items calls).flatMap MergeTree.leaves).Perm items := by
  suffices h : ∀ trees, ((calls.foldl plant trees).flatMap MergeTree.leaves).Perm
      (trees.flatMap MergeTree.leaves) by
    have hall := h (items.map .leaf)
    rwa [flatMap_leaves] at hall
  induction calls with
  | nil => exact fun trees => .refl _
  | cons call rest ih => exact fun trees => (ih (plant trees call)).trans (plant_perm trees call)

/-! ### Lists related item by item -/

section

variable {β : Type} {R : α → β → Prop} {as : List α} {bs : List β}

theorem getElem?_of_forall₂ (h : List.Forall₂ R as bs) (i : ℕ) :
    (as[i]? = none ∧ bs[i]? = none) ∨ ∃ a b, as[i]? = some a ∧ bs[i]? = some b ∧ R a b := by
  induction h generalizing i with
  | nil => exact .inl ⟨rfl, rfl⟩
  | cons hab hrest ih =>
    cases i with
    | zero => exact .inr ⟨_, _, rfl, rfl, hab⟩
    | succ i => exact ih i

theorem forall₂_set (h : List.Forall₂ R as bs) {a : α} {b : β} (hab : R a b) (i : ℕ) :
    List.Forall₂ R (as.set i a) (bs.set i b) := by
  induction h generalizing i with
  | nil => exact .nil
  | cons hhead hrest ih =>
    cases i with
    | zero => exact .cons hab hrest
    | succ i => exact .cons hhead (ih i)

theorem forall₂_eraseIdx (h : List.Forall₂ R as bs) (i : ℕ) :
    List.Forall₂ R (as.eraseIdx i) (bs.eraseIdx i) := by
  induction h generalizing i with
  | nil => exact .nil
  | cons hhead hrest ih =>
    cases i with
    | zero => exact hrest
    | succ i => exact .cons hhead (ih i)

end

end MergeCall

theorem MergeTree.length_leaves_pos {α : Type} (tree : MergeTree α) : 0 < tree.leaves.length := by
  induction tree with
  | leaf item => exact Nat.one_pos
  | node dest src ihd ihs =>
    rw [leaves, List.length_append]
    omega

theorem MergeTree.leaves_sublist {α : Type} {tree : MergeTree α} {trees : List (MergeTree α)}
    (h : tree ∈ trees) : tree.leaves.Sublist (trees.flatMap leaves) := by
  rw [List.flatMap_def]
  exact List.sublist_flatten_of_mem (List.mem_map_of_mem h)

theorem MergeTree.length_fold_merge {α β : Type} (le : β → β → Bool) (entries : α → List β)
    (tree : MergeTree α) :
    (tree.fold entries fun l m => l.merge m le).length = (tree.leaves.flatMap entries).length := by
  induction tree with
  | leaf item => simp [fold, leaves]
  | node dest src ihd ihs =>
    rw [fold, List.length_merge, ihd, ihs, leaves, List.flatMap_append, List.length_append]

theorem Shelf.grown_mergeBytes_le (s : Shelf) (incoming : List Observation) (used : ℕ) :
    Arena.grown used (s.mergeBytes incoming) ≤
      used + 264 * (s.entries.length + incoming.length) := by
  have hbytes := s.mergeBytes_le incoming
  unfold Arena.grown
  split_ifs with hzero
  · omega
  · simp only [Arena.alignment]
    omega

/-! ### Portions -/

/-- What one instance has of a group. -/
structure Portion where
  /-- The instance, with its arena. -/
  twap : Twap
  /-- The record of the group. -/
  record : SlotRecord

namespace Portion

/-- Merges `src` into `dest`. -/
def merge (dest src : Portion) : Except Fault Portion := do
  let (twap, record) ←
    (Aggregate.merge src.record (Aggregate.arena src.twap)).apply dest.twap dest.record
  return ⟨twap, record⟩

/-- The entries, read from the arena. -/
def entries (p : Portion) : Except Fault (List Observation) := do
  let buffer ← Buffer.load p.record p.twap.slotIndex
  buffer.entries p.twap.arena

/-- The entries. -/
def contents (p : Portion) : List Observation :=
  p.entries.toOption.getD []

/-- The value that the instance answers. -/
def value (p : Portion) : Except Fault Float :=
  match Aggregate.value p.record p.twap with
  | .ok x _ => .ok x
  | .error fault _ => .error fault

/-- The slots from `i` on spell a buffer that stands for the shelf, and what the instance remembers
is right. -/
def Holds (p : Portion) (i : ℕ) (s : Shelf) : Prop :=
  p.twap.slotIndex = i ∧ ∃ b : Buffer,
    p.twap.Keeps (fun _ : Unit => b) (fun _ => s) ∧ b.InSlots p.record i

/-- The record is one that the instance can have made. -/
def WellFormed (p : Portion) (i : ℕ) : Prop :=
  ∃ s, p.Holds i s

/-- Two portions have no times in common. -/
def ApartInTime (p q : Portion) : Prop :=
  ∀ x ∈ p.contents, ∀ y ∈ q.contents, x.ts ≠ y.ts

variable {p q : Portion} {i : ℕ} {s t : Shelf}

theorem ApartInTime.symm (h : p.ApartInTime q) : q.ApartInTime p :=
  fun x hx y hy => (h y hy x hx).symm

theorem Holds.entries_eq (h : p.Holds i s) : p.entries = .ok s.entries := by
  obtain ⟨rfl, b, hkeeps, hslots⟩ := h
  have hholds := hkeeps.holds ()
  rw [entries, hslots.load hholds.storable, ok_bind, Buffer.entries_of_holds hholds]

theorem Holds.contents_eq (h : p.Holds i s) : p.contents = s.entries := by
  rw [contents, h.entries_eq]
  rfl

/-- Every record of a store that was assembled and carried out commands is well formed, beside
whatever others there are, and has the entries of its list. -/
theorem wellFormed_of_family {f v : ℕ} {store : Store Twap} {ledger : Ledger} {twap : Twap}
    {record : SlotRecord} (h : Store.Family store ledger) (hf : store.aggregates[f]? = some twap)
    (hv : store.records[v]? = some record) :
    WellFormed ⟨twap, record⟩ twap.slotIndex ∧
      contents ⟨twap, record⟩ = ledger.lists f v := by
  obtain ⟨_, _, _, hrep⟩ := h.represents
  obtain ⟨buffer, hkeeps, hslots⟩ := hrep.keeps f twap hf
  have hholds : Holds ⟨twap, record⟩ twap.slotIndex (ledger.shelf f v) := by
    refine ⟨rfl, buffer v, ⟨fun _ => hkeeps.holds v, fun _ _ hne => absurd rfl hne, ?_⟩,
      hslots v record hv⟩
    intro m hm
    exact ⟨(hkeeps.memo m hm).1, fun _ => (hkeeps.memo m hm).2 v⟩
  exact ⟨⟨_, hholds⟩, hholds.contents_eq⟩

theorem Holds.value_eq (h : p.Holds i s) : p.value = .ok (average s.entries) := by
  obtain ⟨rfl, b, hkeeps, hslots⟩ := h
  obtain ⟨memo, hvalue, -⟩ := hkeeps.value_apply (v := ()) hslots
  simp only [value, Aggregate.value, hvalue]

theorem update_unit {γ : Type} (x y : γ) :
    Function.update (fun _ : Unit => x) () y = fun _ => y := by
  funext u
  rw [Function.update_self]

theorem Holds.merge_yields (hp : p.Holds i s) (hq : q.Holds i t) {need : ℕ}
    (hneed : Arena.grown p.twap.arena.size (s.mergeBytes t.entries) ≤ need) :
    Yields need (fun r => r.Holds i (s.merge t.entries) ∧
      r.twap.arena.size = Arena.grown p.twap.arena.size (s.mergeBytes t.entries))
      (p.merge q) := by
  obtain ⟨rfl, b, hkeeps, hslots⟩ := hp
  obtain ⟨-, c, hsource, hin⟩ := hq
  have hholds := hsource.holds ()
  cases (Twap.change_absorb (hkeeps.holds ()) hslots hin hholds).attempt (v := ()) hkeeps with
  | @done twap' b' hrun hup =>
    have hkeeps' := hup.keeps
    rw [update_unit, update_unit] at hkeeps'
    refine Yields.of_ok (a := ⟨twap', p.record.withBuffer p.twap.slotIndex b'⟩) ?_
      ⟨⟨hup.slotIndex_eq, b', hkeeps', Buffer.inSlots_withBuffer b' hslots.size_le⟩, hup.size_eq⟩
    have happly : (Aggregate.merge q.record (Aggregate.arena q.twap)).apply p.twap p.record =
        .ok (twap', p.record.withBuffer p.twap.slotIndex b') := UpdateM.apply_of_ok hrun
    rw [merge, happly]
    rfl
  | full hrun hfull =>
    have happly : (Aggregate.merge q.record (Aggregate.arena q.twap)).apply p.twap p.record =
        .error .arenaExhausted := UpdateM.apply_of_error hrun
    rw [merge, happly]
    exact ⟨rfl, hfull.trans hneed⟩

theorem exists_of_valid {o : Observation} (hv : o.isValid = true) (id : ArenaId) (i : ℕ) :
    ∃ p : Portion, p.WellFormed i ∧ p.contents = [o] ∧ p.twap.arena.size = 256 := by
  let twap : Twap := ⟨.column 0, .column 1, .empty id 0, none, i⟩
  let layout : SlotLayout := ⟨Array.replicate (i + Buffer.slotCount) .long⟩
  have hwide : i + Buffer.slotCount ≤ layout.newRecord.size := by
    simp [layout, SlotRecord.size, SlotLayout.newRecord, SlotLayout.size]
  have hkeeps : twap.Keeps (fun _ : Unit => .empty) (fun _ => {}) := Twap.keeps_empty rfl
  have hfit : Arena.grown twap.arena.size (Shelf.firstBytes o) < Handle.offsetSpan := by
    rw [Shelf.firstBytes, if_pos hv]
    change Arena.grown 0 (width * Buffer.initialCapacity) < Handle.offsetSpan
    decide
  obtain ⟨twap', b, hup⟩ : ∃ twap' b, twap.Updated (fun _ : Unit => .empty) (fun _ => {}) () b
      (.first o) (Shelf.firstBytes o) twap' := by
    cases (Twap.change_start .empty hwide o).attempt (v := ()) hkeeps with
    | done _ hup => exact ⟨_, _, hup⟩
    | full _ hfull => exact absurd hfit (Nat.not_lt.2 hfull)
  have hholds : Holds ⟨twap', layout.newRecord.withBuffer i b⟩ i (.first o) := by
    refine ⟨hup.slotIndex_eq, b, ?_, Buffer.inSlots_withBuffer b hwide⟩
    simpa [update_unit] using hup.keeps
  refine ⟨_, ⟨_, hholds⟩, ?_, ?_⟩
  · rw [hholds.contents_eq, Shelf.first, if_pos hv]
  · rw [hup.size_eq, Shelf.firstBytes, if_pos hv]
    change Arena.grown 0 (width * Buffer.initialCapacity) = 256
    decide

/-! ### Trees of calls -/

/-- What has been merged so far stands for a tree.  Its entries are those of the leaves, merged
along the tree, and every merge has allocated at most 264 bytes for each of the `n` entries there
are. -/
def HoldsTree (i used n : ℕ) (tree : MergeTree Portion) (p : Portion) : Prop :=
  ∃ s, p.Holds i s ∧ s.entries = tree.fold contents (fun l m => l.merge m Shelf.le) ∧
    p.twap.arena.size ≤ used + 264 * (n * (tree.leaves.length - 1))

variable {used n need : ℕ} {tree other : MergeTree Portion} {trees : List (MergeTree Portion)}
  {portions items : List Portion} {calls : List MergeCall}

theorem HoldsTree.leaf (h : p.WellFormed i) (hused : p.twap.arena.size ≤ used) :
    HoldsTree i used n (.leaf p) p := by
  obtain ⟨s, hs⟩ := h
  exact ⟨s, hs, hs.contents_eq.symm, by omega⟩

theorem HoldsTree.merge_yields (hp : HoldsTree i used n tree p) (hq : HoldsTree i used n other q)
    (hlength : ((tree.leaves ++ other.leaves).flatMap contents).length ≤ n)
    (hneed : used + 264 * (n * (tree.leaves.length + other.leaves.length)) ≤ need) :
    Yields need (HoldsTree i used n (.node tree other)) (p.merge q) := by
  obtain ⟨s, hs, hsentries, hsize⟩ := hp
  obtain ⟨t, ht, htentries, -⟩ := hq
  have hentries : s.entries.length + t.entries.length ≤ n := by
    rw [hsentries, htentries, MergeTree.length_fold_merge, MergeTree.length_fold_merge]
    rwa [List.flatMap_append, List.length_append] at hlength
  have hgrown := s.grown_mergeBytes_le t.entries p.twap.arena.size
  have hpos := tree.length_leaves_pos
  have hpos' := other.length_leaves_pos
  -- one merge more than in the tree of `p`, and no more than in the tree of both
  have hnode : Arena.grown p.twap.arena.size (s.mergeBytes t.entries) ≤
      used + 264 * (n * (tree.leaves.length + other.leaves.length - 1)) :=
    calc Arena.grown p.twap.arena.size (s.mergeBytes t.entries)
      _ ≤ used + 264 * (n * (tree.leaves.length - 1)) + 264 * n := by omega
      _ = used + 264 * (n * (tree.leaves.length - 1 + 1)) := by ring
      _ ≤ _ := by
        have := Nat.mul_le_mul_left n (show tree.leaves.length - 1 + 1 ≤
          tree.leaves.length + other.leaves.length - 1 by omega)
        omega
  have hall : Arena.grown p.twap.arena.size (s.mergeBytes t.entries) ≤ need := by
    have := Nat.mul_le_mul_left n
      (Nat.sub_le (tree.leaves.length + other.leaves.length) 1)
    omega
  refine (hs.merge_yields ht hall).mono le_rfl ?_
  rintro r ⟨hr, hrsize⟩
  refine ⟨_, hr, ?_, ?_⟩
  · rw [Shelf.entries_merge, hsentries, htentries, MergeTree.fold]
  · rwa [hrsize, MergeTree.leaves, List.length_append]

/-- **One call** merges two of the portions as it makes a node of their trees. -/
theorem apply_yields (h : List.Forall₂ (HoldsTree i used n) trees portions) (call : MergeCall)
    (hlength : ((trees.flatMap MergeTree.leaves).flatMap contents).length ≤ n)
    (hneed : used + 264 * (n * (trees.flatMap MergeTree.leaves).length) ≤ need) :
    Yields need (List.Forall₂ (HoldsTree i used n) (MergeCall.plant trees call))
      (call.apply merge portions) := by
  rcases MergeCall.getElem?_of_forall₂ h call.dest with ⟨ht, hp⟩ | ⟨tree, p, ht, hp, hdest⟩
  · rw [MergeCall.plant_of_none (.inl ht)]
    exact Yields.of_ok (by simp only [MergeCall.apply, hp]; rfl) h
  rcases MergeCall.getElem?_of_forall₂ h call.src with ⟨hu, hq⟩ | ⟨other, q, hu, hq, hsrc⟩
  · rw [MergeCall.plant_of_none (.inr hu)]
    exact Yields.of_ok (by simp only [MergeCall.apply, hp, hq]; rfl) h
  -- the new node is one of the trees after the call, which have the leaves of those before it
  have hsub := MergeTree.leaves_sublist (MergeCall.node_mem_plant ht hu)
  have hperm := MergeCall.plant_perm trees call
  have hentries := (hsub.flatMap contents).length_le
  rw [(hperm.flatMap_right contents).length_eq] at hentries
  have hleaves := hsub.length_le
  rw [hperm.length_eq, MergeTree.leaves, List.length_append] at hleaves
  have hroom : used + 264 * (n * (tree.leaves.length + other.leaves.length)) ≤ need := by
    have := Nat.mul_le_mul_left n hleaves
    omega
  have hmerge := hdest.merge_yields hsrc (hentries.trans hlength) hroom
  simp only [MergeCall.apply, hp, hq, MergeCall.plant_of_some ht hu]
  refine hmerge.bind fun merged hmerged => Yields.of_ok rfl ?_
  exact MergeCall.forall₂_eraseIdx (MergeCall.forall₂_set h hmerged call.dest) call.src

/-- **Calls one after the other** leave portions that stand for the trees they spell. -/
theorem run_yields (h : List.Forall₂ (HoldsTree i used n) trees portions)
    (hlength : ((trees.flatMap MergeTree.leaves).flatMap contents).length ≤ n)
    (hneed : used + 264 * (n * (trees.flatMap MergeTree.leaves).length) ≤ need) :
    Yields need (List.Forall₂ (HoldsTree i used n) (calls.foldl MergeCall.plant trees))
      (MergeCall.run merge portions calls) := by
  induction calls generalizing trees portions with
  | nil => exact Yields.of_ok rfl h
  | cons call rest ih =>
    have hperm := MergeCall.plant_perm trees call
    rw [MergeCall.run, List.foldlM_cons]
    refine (apply_yields h call hlength hneed).bind fun portions' h' => ih h' ?_ ?_
    · rwa [(hperm.flatMap_right contents).length_eq]
    · rwa [hperm.length_eq]

theorem forall₂_leaves (wellFormed : ∀ p ∈ items, p.WellFormed i)
    (hused : ∀ p ∈ items, p.twap.arena.size ≤ used) :
    List.Forall₂ (HoldsTree i used n) (items.map .leaf) items := by
  induction items with
  | nil => exact .nil
  | cons p rest ih =>
    rw [List.forall_mem_cons] at wellFormed hused
    exact .cons (.leaf wellFormed.1 hused.1) (ih wellFormed.2 hused.2)

/-- Calls that leave a single portion leave one that stands for the tree they spell. -/
theorem run_single (wellFormed : ∀ p ∈ items, p.WellFormed i)
    (hused : ∀ p ∈ items, p.twap.arena.size ≤ used)
    (single : MergeCall.forest items calls = [tree]) :
    Yields (used + 264 * ((items.flatMap contents).length * items.length))
      (fun left => ∃ last s, left = [last] ∧ last.Holds i s ∧
        s.entries = tree.fold contents fun l m => l.merge m Shelf.le)
      (MergeCall.run merge items calls) := by
  refine (run_yields (forall₂_leaves wellFormed hused) (by rw [MergeCall.flatMap_leaves])
    (by rw [MergeCall.flatMap_leaves])).mono le_rfl fun left hleft => ?_
  rw [← MergeCall.forest, single, List.forall₂_cons_left_iff] at hleft
  obtain ⟨last, rest, ⟨s, hs, hentries, -⟩, hrest, rfl⟩ := hleft
  rw [List.forall₂_nil_left_iff] at hrest
  exact ⟨last, s, by rw [hrest], hs, hentries⟩

/-! ### One stable sort -/

/-- Where no two items have a time in common, it does not matter which comes first. -/
theorem mergeSort_of_apart {leaves leaves' : List Portion} (hperm : leaves.Perm leaves')
    (hapart : leaves.Pairwise ApartInTime) :
    (leaves.flatMap contents).mergeSort Shelf.le =
      (leaves'.flatMap contents).mergeSort Shelf.le := by
  -- sorted lists are equal if at every time they have the same entries in the same order
  refine eq_mergeSort Shelf.le_trans Shelf.le_total
    (List.pairwise_mergeSort Shelf.le_trans Shelf.le_total _) fun x => ?_
  rw [filter_mergeSort Shelf.le_trans Shelf.le_total]
  induction hperm with
  | nil => rfl
  | cons p _ ih =>
    rw [List.flatMap_cons, List.flatMap_cons, List.filter_append, List.filter_append,
      ih hapart.of_cons]
  | swap p q rest =>
    have hqp : q.ApartInTime p := List.rel_of_pairwise_cons hapart List.mem_cons_self
    -- only one of the two has entries at the time of `x`
    have hnone : q.contents.filter (alike Shelf.le x) = [] ∨
        p.contents.filter (alike Shelf.le x) = [] := by
      by_contra hsome
      obtain ⟨⟨y, hy⟩, ⟨z, hz⟩⟩ : (∃ y, y ∈ q.contents.filter (alike Shelf.le x)) ∧
          ∃ z, z ∈ p.contents.filter (alike Shelf.le x) := by
        simpa only [not_or, List.eq_nil_iff_forall_not_mem, not_forall, not_not] using hsome
      simp only [List.mem_filter, alike, Shelf.le, Bool.and_eq_true, decide_eq_true_eq] at hy hz
      exact hqp y hy.1 z hz.1 (Int64.le_antisymm (Int64.le_trans hy.2.2 hz.2.1)
        (Int64.le_trans hz.2.2 hy.2.1))
    simp only [List.flatMap_cons, List.filter_append]
    rcases hnone with hnone | hnone <;> simp [hnone]
  | trans h₁ _ ih₁ ih₂ =>
    exact (ih₁ hapart).trans (ih₂ ((h₁.pairwise_iff ApartInTime.symm).1 hapart))

theorem perm_of_single (single : MergeCall.forest items calls = [tree]) :
    tree.leaves.Perm items := by
  have hperm := MergeCall.forest_perm items calls
  rwa [single, List.flatMap_singleton] at hperm

theorem sorted_of_single (wellFormed : ∀ p ∈ items, p.WellFormed i)
    (sorted : ∀ p ∈ items, InOrder p.contents)
    (single : MergeCall.forest items calls = [tree]) {left : List Portion}
    (hrun : MergeCall.run merge items calls = .ok left) :
    ∃ last, left = [last] ∧
      last.entries = .ok ((tree.leaves.flatMap contents).mergeSort Shelf.le) ∧
      last.value = .ok (average ((tree.leaves.flatMap contents).mergeSort Shelf.le)) := by
  have hyields := run_single wellFormed
    (fun p _ => p.twap.arena.size_lt_offsetSpan.le) single
  rw [hrun] at hyields
  obtain ⟨last, s, rfl, hs, hentries⟩ := hyields
  have htree := MergeTree.fold_merge Shelf.le_trans Shelf.le_total contents tree
    fun p hp => (sorted p ((perm_of_single single).mem_iff.1 hp)).pairwise
  rw [htree] at hentries
  refine ⟨last, rfl, ?_, ?_⟩
  · rw [hs.entries_eq, hentries]
  · rw [hs.value_eq, hentries]

/-- **Any tree of merges sorts its leaves stably.**  Calls that merge portions in order of time
until a single one is left leave the entries of the leaves of their tree, from left to right, stably
sorted by time, and the instance left answers their average.  Other calls that spell a tree with the
same leaves leave the same entries and the same value; so do all calls, if no two portions have a
time in common.  Only an arena that is too small for 264 bytes an entry and a portion, beside what
it has allocated already, can be exhausted. -/
theorem run_stableSort (wellFormed : ∀ p ∈ items, p.WellFormed i)
    (sorted : ∀ p ∈ items, InOrder p.contents)
    (single : MergeCall.forest items calls = [tree]) :
    tree.leaves.Perm items ∧
      match MergeCall.run merge items calls with
      | .ok left => ∃ last, left = [last] ∧
          last.entries = .ok ((tree.leaves.flatMap contents).mergeSort Shelf.le) ∧
          last.value = .ok (average ((tree.leaves.flatMap contents).mergeSort Shelf.le)) ∧
          ∀ calls' tree' left', MergeCall.forest items calls' = [tree'] →
            tree'.leaves = tree.leaves ∨ items.Pairwise ApartInTime →
            MergeCall.run merge items calls' = .ok left' →
            ∃ last', left' = [last'] ∧ last'.entries = last.entries ∧ last'.value = last.value
      | .error fault => fault = .arenaExhausted ∧ ∃ p ∈ items, Handle.offsetSpan ≤
          p.twap.arena.size + 264 * ((items.flatMap contents).length * items.length) := by
  refine ⟨perm_of_single single, ?_⟩
  cases hrun : MergeCall.run merge items calls with
  | ok left =>
    obtain ⟨last, rfl, hentries, hvalue⟩ := sorted_of_single wellFormed sorted single hrun
    refine ⟨last, rfl, hentries, hvalue, ?_⟩
    intro calls' tree' left' single' hleaves hrun'
    obtain ⟨last', rfl, hentries', hvalue'⟩ := sorted_of_single wellFormed sorted single' hrun'
    have hsort : (tree'.leaves.flatMap contents).mergeSort Shelf.le =
        (tree.leaves.flatMap contents).mergeSort Shelf.le := by
      rcases hleaves with hleaves | hapart
      · rw [hleaves]
      · have hperm := perm_of_single single'
        refine mergeSort_of_apart (hperm.trans (perm_of_single single).symm) ?_
        exact (hperm.pairwise_iff ApartInTime.symm).2 hapart
    refine ⟨last', rfl, ?_, ?_⟩
    · rw [hentries', hentries, hsort]
    · rw [hvalue', hvalue, hsort]
  | error fault =>
    have hfault := run_single wellFormed (fun p _ => p.twap.arena.size_lt_offsetSpan.le) single
    rw [hrun] at hfault
    refine ⟨hfault.1, ?_⟩
    -- were there room beside every arena, there would be an `n` that bounds all of them
    by_contra hroom
    push Not at hroom
    obtain ⟨p, hp⟩ := List.exists_mem_of_length_pos tree.length_leaves_pos
    have hpos := hroom p ((perm_of_single single).mem_iff.1 hp)
    obtain ⟨n, hn⟩ := Nat.exists_eq_add_of_lt
      ((Nat.le_add_left _ p.twap.arena.size).trans_lt hpos)
    have hused : ∀ q ∈ items, q.twap.arena.size ≤ n := by
      intro q hq
      have := hroom q hq
      omega
    have hyields := run_single wellFormed hused single
    rw [hrun] at hyields
    have := hyields.2
    omega

/-- Three portions, two of which have a time in common: the first two go into the third, the second
one before the first. -/
theorem run_stableSort_three :
    let calls : List MergeCall := [⟨2, 1, by decide⟩, ⟨1, 0, by decide⟩]
    ∃ a b c : Portion, (∀ p ∈ [a, b, c], p.WellFormed 0) ∧
      a.contents = [⟨7, 1.5⟩] ∧ b.contents = [⟨7, 2.5⟩] ∧ c.contents = [⟨5, 0.5⟩] ∧
      ∃ last, MergeCall.run merge [a, b, c] calls = .ok [last] ∧
        last.entries = .ok [⟨5, 0.5⟩, ⟨7, 2.5⟩, ⟨7, 1.5⟩] ∧
        last.value = .ok (average [⟨5, 0.5⟩, ⟨7, 2.5⟩, ⟨7, 1.5⟩]) ∧
        ∀ calls' tree' left', MergeCall.forest [a, b, c] calls' = [tree'] →
          tree'.leaves = [c, b, a] → MergeCall.run merge [a, b, c] calls' = .ok left' →
          ∃ last', left' = [last'] ∧ last'.entries = last.entries ∧ last'.value = last.value := by
  intro calls
  obtain ⟨a, ha, hacontents, hasize⟩ :=
    exists_of_valid (o := ⟨7, 1.5⟩) (by decide +kernel) ⟨1, by decide⟩ 0
  obtain ⟨b, hb, hbcontents, hbsize⟩ :=
    exists_of_valid (o := ⟨7, 2.5⟩) (by decide +kernel) ⟨2, by decide⟩ 0
  obtain ⟨c, hc, hccontents, hcsize⟩ :=
    exists_of_valid (o := ⟨5, 0.5⟩) (by decide +kernel) ⟨3, by decide⟩ 0
  have hwellFormed : ∀ p ∈ [a, b, c], p.WellFormed 0 := by simp [ha, hb, hc]
  refine ⟨a, b, c, hwellFormed, hacontents, hbcontents, hccontents, ?_⟩
  have hsorted : ∀ p ∈ [a, b, c], InOrder p.contents := by
    simp [hacontents, hbcontents, hccontents, InOrder]
  have hsingle : MergeCall.forest [a, b, c] calls =
      [.node (.node (.leaf c) (.leaf b)) (.leaf a)] := rfl
  obtain ⟨-, hrun⟩ := run_stableSort hwellFormed hsorted hsingle
  have hleaves : ([c, b, a].flatMap contents).mergeSort Shelf.le =
      [⟨5, 0.5⟩, ⟨7, 2.5⟩, ⟨7, 1.5⟩] := by
    simp only [List.flatMap_cons, List.flatMap_nil, hacontents, hbcontents, hccontents,
      List.cons_append, List.nil_append]
    exact List.mergeSort_of_pairwise (by decide +kernel)
  cases hleft : MergeCall.run merge [a, b, c] calls with
  | ok left =>
    rw [hleft] at hrun
    obtain ⟨last, rfl, hentries, hvalue, hother⟩ := hrun
    simp only [MergeTree.leaves, List.cons_append, List.nil_append, hleaves] at hentries hvalue
    exact ⟨last, rfl, hentries, hvalue, fun calls' tree' left' single same =>
      hother calls' tree' left' single (.inl same)⟩
  | error fault =>
    rw [hleft] at hrun
    obtain ⟨-, p, hp, hfull⟩ := hrun
    have hsize : p.twap.arena.size = 256 := by
      simp only [List.mem_cons, List.not_mem_nil, or_false] at hp
      rcases hp with rfl | rfl | rfl <;> assumption
    simp [hsize, hacontents, hbcontents, hccontents, Handle.offsetSpan] at hfull

end Portion

end TimeWeighted
