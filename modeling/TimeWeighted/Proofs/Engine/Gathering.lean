import Mathlib
import TimeWeighted.Proofs.Engine.Evolution
import TimeWeighted.Proofs.Engine.MergeTree
import TimeWeighted.Proofs.Engine.Updates

/-!
# Gathering and merging partial results

A partial result of time-weighted averages stands for one account for every aggregate.  Gathering
rows and merging the groups of another partial result do to it what they do to the accounts, or
fault because an arena is too small.

* `Partial.contents` : the entries that were gathered of a group for one aggregate.
* `Partial.Represents` : a partial result stands for accounts.
* `Partial.gather_yields` : after gathering, the accounts are those of the rows.
* `Partial.foldM_yields` : **after all merges of a tree, the contents are those of its leaves,
  merged alike**, in whatever order the groups were gone through.
-/

namespace TimeWeighted

/-! ### Groups -/

namespace Groups

variable {α : Type}

theorem find?_insert (groups : Groups α) (key : GroupKey) (a : α) :
    (groups.insert key a).find? = Function.update groups.find? key (some a) := by
  funext other
  by_cases h : other = key
  · subst h
    simp
  · rw [Function.update_of_ne h, find?_insert_of_ne _ h]

theorem find?_eq_none_iff (groups : Groups α) (key : GroupKey) :
    groups.find? key = none ↔ key ∉ groups.keys := by
  rw [find?, List.lookup_eq_none_iff, keys, List.mem_map]
  constructor
  · rintro h ⟨entry, hentry, rfl⟩
    simpa using h entry hentry
  · intro h entry hentry
    rw [bne_iff_ne]
    rintro rfl
    exact h ⟨entry, hentry, rfl⟩

theorem mem_keys_of_find? {groups : Groups α} {key : GroupKey} {a : α}
    (h : groups.find? key = some a) : key ∈ groups.keys := by
  by_contra hnot
  rw [(find?_eq_none_iff _ _).2 hnot] at h
  cases h

theorem mem_keys_insert {groups : Groups α} {key other : GroupKey} {a : α} :
    other ∈ (groups.insert key a).keys ↔ other = key ∨ other ∈ groups.keys := by
  rw [keys_insert]
  split_ifs with hmem
  · exact ⟨.inr, fun h => h.elim (fun heq => heq ▸ hmem) id⟩
  · rw [List.mem_append, List.mem_singleton, or_comm]

theorem lookup_of_mem {entries : List (GroupKey × α)} (h : (entries.map (·.1)).Nodup)
    {key : GroupKey} {a : α} (hmem : (key, a) ∈ entries) : entries.lookup key = some a := by
  induction entries with
  | nil => simp at hmem
  | cons entry rest ih =>
    obtain ⟨k, b⟩ := entry
    rw [List.map_cons, List.nodup_cons] at h
    rcases List.mem_cons.1 hmem with heq | hrest
    · cases heq
      simp
    · have hne : key ≠ k := by
        rintro rfl
        exact h.1 (List.mem_map.2 ⟨_, hrest, rfl⟩)
      rw [List.lookup_cons, beq_eq_false_iff_ne.2 hne]
      exact ih h.2 hrest

theorem find?_of_mem (groups : Groups α) {key : GroupKey} {a : α}
    (h : (key, a) ∈ groups.entries) : groups.find? key = some a :=
  lookup_of_mem groups.nodup_keys h

end Groups

/-! ### What was gathered -/

namespace Partial

/-- The entries of a group for the aggregate `k`, read from its arena; none if the group or the
aggregate is not there. -/
def entriesOf (p : Partial Twap) (k : ℕ) (key : GroupKey) : Except Fault (List Observation) :=
  match p.aggregates[k]?, p.groups.find? key with
  | some f, some record => do
    let buffer ← Buffer.load record f.slotIndex
    buffer.entries f.arena
  | _, _ => return []

/-- The entries of a group for the aggregate `k`. -/
def contents (p : Partial Twap) (k : ℕ) (key : GroupKey) : List Observation :=
  (p.entriesOf k key).toOption.getD []

/-- A partial result of `m` aggregates stands for one account for each of them. -/
structure Represents (m : ℕ) (observe : ℕ → Row → Observation) (p : Partial Twap)
    (account : ℕ → Account) : Prop where
  /-- The number of aggregates. -/
  length_eq : p.aggregates.length = m
  /-- Records have slots for all of them. -/
  size_layout : p.layout.size = Buffer.slotCount * m
  /-- Every aggregate stands for its account. -/
  serve : AllServe 0 observe account p.groups.find? p.aggregates
  /-- Nothing was gathered of groups that are not there. -/
  absent : ∀ key, p.groups.find? key = none → ∀ k, (account k).shelf key = {}

variable {m need : ℕ} {observe : ℕ → Row → Observation} {p src : Partial Twap}
  {account d s : ℕ → Account} {K : Finset GroupKey} {key : GroupKey}

theorem Represents.entriesOf_eq (h : p.Represents m observe account) {k : ℕ} (hk : k < m)
    (key : GroupKey) : p.entriesOf k key = .ok ((account k).shelf key).entries := by
  obtain ⟨f, hf⟩ : ∃ f, p.aggregates[k]? = some f :=
    ⟨_, List.getElem?_eq_getElem (by rwa [h.length_eq])⟩
  cases hr : p.groups.find? key with
  | none =>
    rw [h.absent key hr k]
    simp only [entriesOf, hf, hr]
    rfl
  | some record =>
    have hserves := h.serve k f hf
    obtain ⟨buffer, hkeeps, hslots⟩ := hserves.keeps
    have hin := hslots key record hr
    rw [← hserves.slotIndex_eq] at hin
    simp only [entriesOf, hf, hr, hin.load (hkeeps.holds key).storable, ok_bind,
      Buffer.entries_of_holds (hkeeps.holds key)]

theorem Represents.contents_eq (h : p.Represents m observe account) {k : ℕ} (hk : k < m)
    (key : GroupKey) : p.contents k key = ((account k).shelf key).entries := by
  rw [contents, h.entriesOf_eq hk]
  rfl

theorem Represents.inserted (h : p.Represents m observe account) {account' : ℕ → Account}
    {fs : List Twap} {r : SlotRecord} (hlength : fs.length = p.aggregates.length)
    (hserve : AllServe 0 observe account' (Function.update p.groups.find? key (some r)) fs)
    (hothers : ∀ k other, other ≠ key → (account' k).shelf other = (account k).shelf other) :
    Represents m observe ⟨fs, p.layout, p.groups.insert key r⟩ account' := by
  refine ⟨hlength.trans h.length_eq, h.size_layout, ?_, ?_⟩
  · rwa [Groups.find?_insert]
  · intro other hother k
    rw [Groups.find?_insert] at hother
    have hne : other ≠ key := by
      rintro rfl
      simp at hother
    rw [Function.update_of_ne hne] at hother
    rw [hothers k other hne, h.absent other hother k]

theorem Represents.serve_newRecord (h : p.Represents m observe account)
    (hnone : p.groups.find? key = none) :
    AllServe 0 observe account
      (Function.update p.groups.find? key (some p.layout.newRecord)) p.aggregates := by
  intro k f hf
  refine (h.serve k f hf).of_absent (h.absent key hnone k) (Buffer.empty_inSlots_newRecord ?_)
  obtain ⟨hlt, -⟩ := List.getElem?_eq_some_iff.1 hf
  rw [h.length_eq] at hlt
  rw [h.size_layout]
  simp only [Buffer.slotCount]
  omega

theorem Represents.serve_record (h : p.Represents m observe account) {r : SlotRecord}
    (hsome : p.groups.find? key = some r) :
    AllServe 0 observe account (Function.update p.groups.find? key (some r)) p.aggregates :=
  fun k f hf => (h.serve k f hf).of_present hsome

/-- An update of all aggregates on the record of one group takes the partial result from some
accounts to others, if the update of each aggregate does. -/
theorem Represents.insert_yields (h : p.Represents m observe account) (account' : ℕ → Account)
    {update : Twap → UpdateM Twap Unit} {others : List Twap} {r : SlotRecord}
    (hlength : others.length = m)
    (hserve : AllServe 0 observe account (Function.update p.groups.find? key (some r))
      p.aggregates)
    (hothers : ∀ k other, other ≠ key → (account' k).shelf other = (account k).shelf other)
    (step : ∀ k < m, ∀ (f other : Twap) r, others[k]? = some other →
      f.Serves (0 + Buffer.slotCount * k) (observe k) (account k)
        (Function.update p.groups.find? key (some r)) →
      Yields need (Twap.Serves.Becomes (0 + Buffer.slotCount * k) (observe k) (account' k)
        p.groups.find? key r) ((update other).apply f r)) :
    Yields need (fun q : Partial Twap => q.Represents m observe account' ∧
        ∀ other, other ∈ q.groups.keys ↔ other = key ∨ other ∈ p.groups.keys)
      (do
        let x ← updateBeside update others p.aggregates r
        return (⟨x.1, p.layout, p.groups.insert key x.2⟩ : Partial Twap)) := by
  have hle : p.aggregates.length ≤ others.length := by rw [h.length_eq, hlength]
  have hlt : ∀ {k} {other : Twap}, others[k]? = some other → k < m := by
    intro k other hother
    obtain ⟨hk, -⟩ := List.getElem?_eq_some_iff.1 hother
    rwa [hlength] at hk
  have hupdate := updateBeside_yields hle hserve fun k f other r hother hserves =>
    step k (hlt hother) f other r hother hserves
  refine hupdate.bind ?_
  rintro ⟨fs, r⟩ ⟨hfs, hserve', -⟩
  exact Yields.of_ok rfl ⟨h.inserted hfs hserve' hothers, fun _ => Groups.mem_keys_insert⟩

/-! ### Gathering -/

theorem Represents.gatherRow_yields (h : p.Represents m observe account) (groupBy : Option ℕ)
    (row : Row)
    (hneed : ∀ k < m,
      ((account k).push (groupBy.bind row.symbol) (observe k row)).used ≤ need) :
    Yields need (fun q => q.Represents m observe
          (fun k => (account k).push (groupBy.bind row.symbol) (observe k row)) ∧
        ∀ key, key ∈ q.groups.keys ↔ key = groupBy.bind row.symbol ∨ key ∈ p.groups.keys)
      (gatherRow groupBy p row) := by
  set key := groupBy.bind row.symbol with hkey
  have hothers : ∀ k other, other ≠ key →
      ((account k).push key (observe k row)).shelf other = (account k).shelf other :=
    fun k other hne => Function.update_of_ne hne ..
  cases hfind : p.groups.find? key with
  | some r =>
    rw [gatherRow_of_some hfind]
    simp only [updateAll_eq_updateBeside]
    refine h.insert_yields _ h.length_eq (h.serve_record hfind) hothers ?_
    intro k hk f other r hother hserves
    exact hserves.push_yields row (hneed k hk)
  | none =>
    rw [gatherRow_of_none hfind]
    simp only [updateAll_eq_updateBeside]
    refine h.insert_yields _ h.length_eq (h.serve_newRecord hfind) hothers ?_
    intro k hk f other r hother hserves
    exact hserves.first_yields (h.absent key hfind k) row (hneed k hk)

end Partial

/-- The key of the group that a row belongs to. -/
def Table.keyOf (table : Table) (groupBy : Option ℕ) (i : ℕ) : GroupKey :=
  groupBy.bind (table.row i).symbol

/-- What is read from rows, each with the key of its group. -/
def Table.readings (table : Table) (groupBy : Option ℕ) (observe : Row → Observation)
    (rows : List ℕ) : List (GroupKey × Observation) :=
  rows.map fun i => (table.keyOf groupBy i, observe (table.row i))

@[simp] theorem Table.length_readings (table : Table) (groupBy : Option ℕ)
    (observe : Row → Observation) (rows : List ℕ) :
    (table.readings groupBy observe rows).length = rows.length := by
  simp [readings]

namespace Partial

variable {m need : ℕ} {observe : ℕ → Row → Observation} {p src : Partial Twap}
  {account d s : ℕ → Account} {K : Finset GroupKey} {key : GroupKey}

/-- **After gathering, the accounts are those of the rows**, and there is a group for every key. -/
theorem Represents.gather_yields (h : p.Represents m observe fun _ => {})
    (hnil : p.groups.keys = []) (groupBy : Option ℕ) (table : Table) (rows : List ℕ)
    (hneed : 256 * rows.length ≤ need) :
    Yields need (fun q => q.Represents m observe
          (fun k => Account.ofRows (table.readings groupBy (observe k) rows)) ∧
        ∀ key, key ∈ q.groups.keys ↔ key ∈ rows.map (table.keyOf groupBy))
      (p.gather groupBy table rows) := by
  refine Yields.foldlM (fun done (q : Partial Twap) => q.Represents m observe
      (fun k => Account.ofRows (table.readings groupBy (observe k) done)) ∧
    ∀ key, key ∈ q.groups.keys ↔ key ∈ done.map (table.keyOf groupBy)) ⟨h, by simp [hnil]⟩ ?_
  rintro done i rest q hrows ⟨hq, hkeys⟩
  have hreadings : ∀ k, table.readings groupBy (observe k) (done ++ [i]) =
      table.readings groupBy (observe k) done ++
        [(table.keyOf groupBy i, observe k (table.row i))] := by
    intro k
    simp [Table.readings]
  have hpush : ∀ k, Account.ofRows (table.readings groupBy (observe k) (done ++ [i])) =
      (Account.ofRows (table.readings groupBy (observe k) done)).push (table.keyOf groupBy i)
        (observe k (table.row i)) := by
    intro k
    rw [hreadings, Account.ofRows_append]
  refine (hq.gatherRow_yields groupBy (table.row i) fun k _ => ?_).mono le_rfl ?_
  · have hused := Account.used_ofRows_le (table.readings groupBy (observe k) (done ++ [i]))
    rw [hpush, Table.length_readings] at hused
    refine hused.trans (le_trans (Nat.mul_le_mul_left _ ?_) hneed)
    rw [hrows]
    simp
  · rintro q' ⟨hq', hkeys'⟩
    refine ⟨?_, ?_⟩
    · simp only [hpush]
      exact hq'
    · intro key
      rw [hkeys', List.map_append, List.mem_append, ← hkeys, or_comm]
      simp [Table.keyOf]

/-! ### Merging -/

theorem Represents.mergeGroup_yields (hp : p.Represents m observe d)
    (hsrc : src.Represents m observe s) {other : SlotRecord}
    (hother : src.groups.find? key = some other)
    (hneed : ∀ k < m, ((d k).absorb key ((s k).shelf key).entries).used ≤ need) :
    Yields need (fun q => q.Represents m observe
          (fun k => (d k).absorb key ((s k).shelf key).entries) ∧
        ∀ other, other ∈ q.groups.keys ↔ other = key ∨ other ∈ p.groups.keys)
      (mergeGroup src.aggregates p (key, other)) := by
  have hothers : ∀ k other, other ≠ key →
      ((d k).absorb key ((s k).shelf key).entries).shelf other = (d k).shelf other :=
    fun k other hne => Function.update_of_ne hne ..
  cases hfind : p.groups.find? key with
  | some r =>
    rw [mergeGroup_of_some hfind]
    refine hp.insert_yields _ hsrc.length_eq (hp.serve_record hfind) hothers ?_
    intro k hk f g r hg hserves
    obtain ⟨buffer, hkeeps, hslots⟩ := (hsrc.serve k g hg).keeps
    exact hserves.absorb_yields (hslots key other hother) (hkeeps.holds key) (hneed k hk)
  | none =>
    rw [mergeGroup_of_none hfind]
    refine hp.insert_yields _ hsrc.length_eq (hp.serve_newRecord hfind) hothers ?_
    intro k hk f g r hg hserves
    obtain ⟨buffer, hkeeps, hslots⟩ := (hsrc.serve k g hg).keeps
    exact hserves.clear_absorb_yields (hp.absent key hfind k) (hslots key other hother)
      (hkeeps.holds key) (hneed k hk)

theorem Represents.merge_yields (hp : p.Represents m observe d)
    (hsrc : src.Represents m observe s) {order : GroupOrder}
    (horder : (order src.groups.entries).Perm src.groups.entries)
    (hneed : ∀ k < m,
      ((d k).merge (s k) ((order src.groups.entries).map (·.1))).used ≤ need) :
    Yields need (fun q => q.Represents m observe
          (fun k => (d k).merge (s k) ((order src.groups.entries).map (·.1))) ∧
        ∀ key, key ∈ q.groups.keys ↔ key ∈ p.groups.keys ∨ key ∈ src.groups.keys)
      (p.merge order src) := by
  have hkeys : ∀ key, key ∈ src.groups.keys ↔ key ∈ (order src.groups.entries).map (·.1) :=
    fun key => ((horder.map _).mem_iff).symm
  simp only [hkeys]
  refine Yields.foldlM (fun (done : List (GroupKey × SlotRecord)) (q : Partial Twap) =>
      q.Represents m observe (fun k => (d k).merge (s k) (done.map (·.1))) ∧
        ∀ key, key ∈ q.groups.keys ↔ key ∈ p.groups.keys ∨ key ∈ done.map (·.1))
    ⟨hp, by simp⟩ ?_
  rintro done ⟨key, other⟩ rest q hentries ⟨hq, hqkeys⟩
  have hother : src.groups.find? key = some other := by
    refine Groups.find?_of_mem _ (horder.mem_iff.1 ?_)
    rw [hentries]
    simp
  have hstep : ∀ k, (d k).merge (s k) ((done ++ [(key, other)]).map (·.1)) =
      ((d k).merge (s k) (done.map (·.1))).absorb key ((s k).shelf key).entries := by
    intro k
    rw [List.map_append, Account.merge_append]
    exact Account.merge_singleton _ _ _
  refine (hq.mergeGroup_yields hsrc hother fun k hk => ?_).mono le_rfl ?_
  · -- going on with the rest takes no byte back
    refine le_trans ?_ (hneed k hk)
    have hsplit : (done ++ (key, other) :: rest).map (·.1) =
        (done ++ [(key, other)]).map (·.1) ++ rest.map (·.1) := by simp
    rw [← hstep, hentries, hsplit, Account.merge_append]
    exact Account.used_le_merge _ _ _
  · rintro q' ⟨hq', hkeys'⟩
    refine ⟨?_, ?_⟩
    · simp only [hstep]
      exact hq'
    · intro k
      rw [hkeys', List.map_append, List.mem_append, ← or_assoc, ← hqkeys, or_comm]
      simp

/-! ### All merges of a tree -/

/-- A partial result stands for accounts that came together in at most `depth` rounds of merges,
with no groups but those of `K`. -/
def Holding (K : Finset GroupKey) (m : ℕ) (observe : ℕ → Row → Observation) (p : Partial Twap)
    (depth : ℕ) : Prop :=
  (∀ key ∈ p.groups.keys, key ∈ K) ∧
    ∃ account, p.Represents m observe account ∧ ∀ k, (account k).Within K depth

/-- The number of entries gathered for the aggregate `k`. -/
def load (K : Finset GroupKey) (p : Partial Twap) (k : ℕ) : ℕ :=
  ∑ key ∈ K, (p.contents k key).length

theorem Represents.load_eq (h : p.Represents m observe account) {k : ℕ} (hk : k < m) :
    p.load K k = Account.total K (account k) :=
  Finset.sum_congr rfl fun key _ => by rw [h.contents_eq hk]

theorem Holding.merge_yields {i j : ℕ} (hp : p.Holding K m observe i)
    (hsrc : src.Holding K m observe j) {order : GroupOrder}
    (horder : (order src.groups.entries).Perm src.groups.entries)
    (hneed : ∀ k < m, 256 * ((max i j + 2) * (p.load K k + src.load K k)) ≤ need) :
    Yields need (fun q => q.Holding K m observe (max i j + 1) ∧
        (∀ key, key ∈ q.groups.keys ↔ key ∈ p.groups.keys ∨ key ∈ src.groups.keys) ∧
        ∀ k < m, ∀ key,
          q.contents k key = (p.contents k key).merge (src.contents k key) Shelf.le)
      (p.merge order src) := by
  obtain ⟨hpK, d, hd, hdw⟩ := hp
  obtain ⟨hsK, s, hs, hsw⟩ := hsrc
  have hperm := horder.map (·.1)
  have hnodup : ((order src.groups.entries).map (·.1)).Nodup :=
    hperm.nodup_iff.2 src.groups.nodup_keys
  have hK : ∀ key ∈ (order src.groups.entries).map (·.1), key ∈ K :=
    fun key hkey => hsK key (hperm.mem_iff.1 hkey)
  have hall : ∀ k, ∀ key ∉ (order src.groups.entries).map (·.1), (s k).shelf key = {} := by
    intro k key hkey
    refine hs.absent key ((Groups.find?_eq_none_iff _ _).2 fun hmem => hkey ?_) k
    exact hperm.mem_iff.2 hmem
  have hwithin : ∀ k, ((d k).merge (s k) ((order src.groups.entries).map (·.1))).Within K
      (max i j + 1) := fun k => (hdw k).merge hnodup hK (hall k)
  refine (hd.merge_yields hs horder fun k hk => ?_).mono le_rfl ?_
  · refine (hwithin k).used_le.trans (le_trans (le_of_eq ?_) (hneed k hk))
    rw [Account.total_merge hnodup (hall k), hd.load_eq hk, hs.load_eq hk]
  · rintro q ⟨hq, hkeys⟩
    refine ⟨⟨?_, _, hq, hwithin⟩, hkeys, ?_⟩
    · intro key hkey
      rcases (hkeys key).1 hkey with h | h
      · exact hpK key h
      · exact hsK key h
    · intro k hk key
      rw [hq.contents_eq hk, hd.contents_eq hk, hs.contents_eq hk,
        Account.entries_merge hnodup (hall k)]

theorem sum_length_fold (K : Finset GroupKey) (c : Partial Twap → GroupKey → List Observation)
    (tree : MergeTree (Partial Twap)) :
    ∑ key ∈ K, (tree.fold (fun p => c p key) fun l m => l.merge m Shelf.le).length =
      tree.fold (fun p => ∑ key ∈ K, (c p key).length) (· + ·) := by
  induction tree with
  | leaf p => rfl
  | node dest src ihd ihs =>
    simp only [MergeTree.fold, List.length_merge, Finset.sum_add_distrib, ihd, ihs]

theorem load_eq_fold {q : Partial Twap} {tree : MergeTree (Partial Twap)} {k : ℕ}
    (h : ∀ key, q.contents k key =
      tree.fold (fun p => p.contents k key) fun l m => l.merge m Shelf.le) :
    q.load K k = tree.fold (fun p => p.load K k) (· + ·) := by
  simp only [load, h]
  exact sum_length_fold K (fun p key => p.contents k key) tree

/-- **After all merges of a tree the contents are those of its leaves, merged alike**, and there is
a group for every key that a leaf has. -/
theorem foldM_yields {order : List Branch → GroupOrder}
    (horder : ∀ way groups, (order way groups).Perm groups) (tree : MergeTree (Partial Twap))
    (way : List Branch) (hleaves : ∀ p ∈ tree.leaves, p.Holding K m observe 0)
    (hneed : ∀ k < m,
      256 * ((tree.depth + 1) * tree.fold (fun p => p.load K k) (· + ·)) ≤ need) :
    Yields need (fun q => q.Holding K m observe tree.depth ∧
        (∀ key, key ∈ q.groups.keys ↔ ∃ p ∈ tree.leaves, key ∈ p.groups.keys) ∧
        ∀ k < m, ∀ key, q.contents k key =
          tree.fold (fun p => p.contents k key) fun l m => l.merge m Shelf.le)
      (tree.foldM (fun way => Partial.merge (order way)) way) := by
  induction tree generalizing way with
  | leaf p =>
    refine Yields.of_ok (a := p) rfl ⟨hleaves p (by simp [MergeTree.leaves]), ?_, ?_⟩
    · simp [MergeTree.leaves]
    · exact fun k _ key => rfl
  | node dest src ihd ihs =>
    have hle : ∀ k < m, ∀ t ∈ [dest, src],
        256 * ((t.depth + 1) * t.fold (fun p => p.load K k) (· + ·)) ≤ need := by
      intro k hk t ht
      refine le_trans (Nat.mul_le_mul_left _ (Nat.mul_le_mul ?_ ?_)) (hneed k hk)
      · simp only [List.mem_cons, List.not_mem_nil, or_false] at ht
        simp only [MergeTree.depth]
        rcases ht with rfl | rfl <;> omega
      · simp only [List.mem_cons, List.not_mem_nil, or_false] at ht
        simp only [MergeTree.fold]
        rcases ht with rfl | rfl <;> omega
    rw [MergeTree.foldM]
    refine (ihd _ (fun p hp => hleaves p (List.mem_append_left _ hp))
      fun k hk => hle k hk dest (by simp)).bind ?_
    rintro q ⟨hq, hqkeys, hqc⟩
    refine (ihs _ (fun p hp => hleaves p (List.mem_append_right _ hp))
      fun k hk => hle k hk src (by simp)).bind ?_
    rintro q' ⟨hq', hqkeys', hqc'⟩
    refine (hq.merge_yields hq' (horder way _) fun k hk => ?_).mono le_rfl ?_
    · rw [load_eq_fold (hqc k hk), load_eq_fold (hqc' k hk)]
      exact hneed k hk
    · rintro last ⟨hlast, hkeys, hcontents⟩
      refine ⟨hlast, ?_, ?_⟩
      · intro key
        rw [hkeys, hqkeys, hqkeys', MergeTree.leaves]
        simp only [List.mem_append, or_and_right, exists_or]
      · intro k hk key
        rw [hcontents k hk, hqc k hk, hqc' k hk, MergeTree.fold]

end Partial

end TimeWeighted
