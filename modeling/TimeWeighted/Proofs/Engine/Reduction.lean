import Mathlib
import TimeWeighted.Proofs.Engine.Creation

/-!
# Reducing partial results to one

Partial results are merged in rounds of pairs until one is left.  Whatever the order in which the
groups are gone through, nothing is lost, doubled or taken for another group: the entries of every
group are those of all partial results, one after the other, stably sorted by time.

* `Gathering.Makes` : how a partial result comes about.
* `Query.reduce_yields` : the last partial result, as a tree of merges.
* `Query.reduce_contents` : **the last partial result has the entries of all, stably sorted.**
-/

namespace TimeWeighted

theorem Shelf.le_trans (x y z : Observation) (hxy : le x y) (hyz : le y z) : le x z := by
  simp only [le, decide_eq_true_eq] at *
  exact Int64.le_trans hxy hyz

theorem Shelf.le_total (x y : Observation) : le x y || le y x := by
  simp only [le, Bool.or_eq_true, decide_eq_true_eq]
  exact Int64.le_total _ _

/-- Entries are in order of time. -/
def InOrder (entries : List Observation) : Prop :=
  entries.Pairwise fun x y => x.ts ≤ y.ts

theorem InOrder.pairwise {entries : List Observation} (h : InOrder entries) :
    entries.Pairwise (Shelf.le · ·) :=
  h.imp fun hxy => by simpa [Shelf.le] using hxy

theorem Partial.exists_keys {φ : Type} (ps : List (Partial φ)) :
    ∃ K : Finset GroupKey, ∀ p ∈ ps, ∀ key ∈ p.groups.keys, key ∈ K :=
  ⟨(ps.flatMap (·.groups.keys)).toFinset, fun p hp _ hkey =>
    List.mem_toFinset.2 (List.mem_flatMap.2 ⟨p, hp, hkey⟩)⟩

/-! ### Gatherings -/

/-- What goes into a partial result. -/
structure Gathering where
  /-- The bytes to set aside in every arena. -/
  reserve : ℕ
  /-- The supply of ids for its arenas. -/
  supply : IdSupply
  /-- The column to group by. -/
  groupBy : Option ℕ
  /-- The table. -/
  table : Table
  /-- The rows of the table, in the order they are gathered. -/
  rows : List ℕ

/-- The partial result was newly made and then gathered the rows. -/
def Gathering.Makes (g : Gathering) (sources : List (Source × Source)) (p : Partial Twap) : Prop :=
  ∃ p₀ supply', Partial.create g.reserve (twapsOf sources) g.supply = .ok p₀ supply' ∧
    p₀.gather g.groupBy g.table g.rows = .ok p

section

variable {sources : List (Source × Source)} {g : Gathering} {p : Partial Twap}
  {K : Finset GroupKey}

theorem Gathering.Makes.represents (h : g.Makes sources p) :
    p.Represents sources.length (observing sources)
        (fun k => Account.ofRows (g.table.readings g.groupBy (observing sources k) g.rows)) ∧
      ∀ key, key ∈ p.groups.keys ↔ key ∈ g.rows.map (g.table.keyOf g.groupBy) := by
  obtain ⟨p₀, supply', hcreate, hgather⟩ := h
  obtain ⟨hrep, hnil⟩ := Partial.Represents.of_create hcreate
  have hyields := hrep.gather_yields hnil g.groupBy g.table g.rows le_rfl
  rwa [hgather] at hyields

theorem Gathering.Makes.contents_eq (h : g.Makes sources p) {k : ℕ} (hk : k < sources.length)
    (key : GroupKey) :
    p.contents k key = (g.rows.filter fun i => g.table.keyOf g.groupBy i = key ∧
      (observing sources k (g.table.row i)).isValid).map
        fun i => observing sources k (g.table.row i) := by
  rw [h.represents.1.contents_eq hk, Account.entries_ofRows, Table.readings, List.filter_map,
    List.map_map]
  rfl

theorem Gathering.exists_makes (g : Gathering) (sources : List (Source × Source))
    (hreserve : g.reserve ≤ Arena.maxReservation)
    (hrows : 256 * g.rows.length < Handle.offsetSpan) : ∃ p, g.Makes sources p := by
  obtain ⟨p₀, supply', hcreate⟩ := Partial.create_of_le (twapsOf sources) hreserve g.supply
  obtain ⟨hrep, hnil⟩ := Partial.Represents.of_create hcreate
  obtain ⟨p, hgather, -⟩ :=
    (hrep.gather_yields hnil g.groupBy g.table g.rows le_rfl).exists_ok hrows
  exact ⟨p, p₀, supply', hcreate, hgather⟩

theorem Gathering.Makes.readings_mem (h : g.Makes sources p)
    (hK : ∀ key ∈ p.groups.keys, key ∈ K) (k : ℕ) :
    ∀ row ∈ g.table.readings g.groupBy (observing sources k) g.rows, row.1 ∈ K := by
  intro row hrow
  simp only [Table.readings, List.mem_map] at hrow
  obtain ⟨i, hi, rfl⟩ := hrow
  exact hK _ ((h.represents.2 _).2 (List.mem_map_of_mem hi))

theorem Gathering.Makes.holding (h : g.Makes sources p) (hK : ∀ key ∈ p.groups.keys, key ∈ K) :
    p.Holding K sources.length (observing sources) 0 :=
  ⟨hK, _, h.represents.1, fun k => Account.within_ofRows (h.readings_mem hK k)⟩

theorem Gathering.Makes.load_le (h : g.Makes sources p) (hK : ∀ key ∈ p.groups.keys, key ∈ K)
    {k : ℕ} (hk : k < sources.length) : p.load K k ≤ g.rows.length := by
  rw [h.represents.1.load_eq hk]
  refine (Account.total_ofRows_le (h.readings_mem hK k)).trans ?_
  rw [Table.length_readings]

end

/-! ### Reducing -/

namespace Query

variable {m n d : ℕ} {observe : ℕ → Row → Observation} {K : Finset GroupKey}
  {ps : List (Partial Twap)} {order : List Branch → GroupOrder}

/-- No more bytes are in use after reducing than every entry may take in every round. -/
theorem used_le_of_contents {q : Partial Twap} {tree : MergeTree (Partial Twap)}
    {account : ℕ → Account} (htree : MergeTree.balanced? ps = some tree)
    (hq : q.Represents m observe account) (within : ∀ k, (account k).Within K tree.depth)
    (hcontents : ∀ k < m, ∀ key, q.contents k key =
      tree.fold (fun p => p.contents k key) fun l m => l.merge m Shelf.le)
    (hload : ∀ k < m, (ps.map (·.load K k)).sum ≤ n) (hlength : ps.length ≤ 2 ^ d) {k : ℕ}
    (hk : k < m) : (account k).used ≤ 256 * ((d + 1) * n) := by
  have hdepth := MergeTree.depth_balanced htree hlength
  have htotal : Account.total K (account k) ≤ n := by
    rw [← hq.load_eq hk, Partial.load_eq_fold (hcontents k hk), MergeTree.fold_add,
      MergeTree.leaves_of_balanced htree]
    exact hload k hk
  exact (within k).used_le.trans
    (Nat.mul_le_mul_left _ (Nat.mul_le_mul (by omega) htotal))

/-- **Reducing leaves one partial result**, which has the groups of all and for every group the
contents of all, merged along one tree.  No more bytes of an arena are needed on the way or in use
in the end than every entry may take in every round of merges. -/
theorem reduce_yields (hne : ps ≠ []) (horder : ∀ way groups, (order way groups).Perm groups)
    (holding : ∀ p ∈ ps, p.Holding K m observe 0)
    (hload : ∀ k < m, (ps.map (·.load K k)).sum ≤ n) (hlength : ps.length ≤ 2 ^ d) :
    Yields (256 * ((d + 1) * n)) (fun last => ∃ q tree account, last = some q ∧
        MergeTree.leaves tree = ps ∧ q.Represents m observe account ∧
        (∀ k < m, (account k).used ≤ 256 * ((d + 1) * n)) ∧
        (∀ key, key ∈ q.groups.keys ↔ ∃ p ∈ ps, key ∈ p.groups.keys) ∧
        ∀ k < m, ∀ key, q.contents k key =
          tree.fold (fun p => p.contents k key) fun l m => l.merge m Shelf.le)
      (reduce order ps) := by
  obtain ⟨tree, htree⟩ := MergeTree.exists_balanced hne
  have hleaves := MergeTree.leaves_of_balanced htree
  have hdepth := MergeTree.depth_balanced htree hlength
  simp only [reduce, htree]
  refine Yields.bind (Partial.foldM_yields horder tree [] (hleaves ▸ holding) fun k hk => ?_) ?_
  · rw [MergeTree.fold_add, hleaves]
    exact Nat.mul_le_mul_left _ (Nat.mul_le_mul (by omega) (hload k hk))
  · rintro q ⟨⟨-, account, hq, hwithin⟩, hkeys, hcontents⟩
    rw [hleaves] at hkeys
    exact Yields.of_ok rfl ⟨q, tree, account, rfl, hleaves, hq, fun k hk =>
      used_le_of_contents htree hq hwithin hcontents hload hlength hk, hkeys, hcontents⟩

theorem bytes_lt_offsetSpan (h : n ≤ 2 ^ 34) : 256 * ((34 + 1) * n) < Handle.offsetSpan := by
  simp only [Handle.offsetSpan]
  omega

theorem sum_load_le {sources : List (Source × Source)} {gs : List Gathering}
    (made : List.Forall₂ (fun g p => g.Makes sources p) gs ps)
    (hK : ∀ p ∈ ps, ∀ key ∈ p.groups.keys, key ∈ K) {k : ℕ} (hk : k < sources.length) :
    (ps.map (·.load K k)).sum ≤ (gs.map (·.rows.length)).sum := by
  induction made with
  | nil => exact le_rfl
  | cons hmakes hrest ih =>
    rw [List.forall_mem_cons] at hK
    simp only [List.map_cons, List.sum_cons]
    exact Nat.add_le_add (hmakes.load_le hK.1 hk) (ih hK.2)

/-- **The last partial result has the entries of all, stably sorted by time**, if those of every
partial result were in order of time: entries of equal times stay in the order of the partial
results and of their rows.  Its groups are those of all partial results.  Only more than `2 ^ 34`
rows can exhaust an arena. -/
theorem reduce_contents {sources : List (Source × Source)} {gs : List Gathering}
    (made : List.Forall₂ (fun g p => g.Makes sources p) gs ps) (hne : ps ≠ [])
    (sorted : ∀ p ∈ ps, ∀ k < sources.length, ∀ key, InOrder (p.contents k key))
    (horder : ∀ way groups, (order way groups).Perm groups) :
    match reduce order ps with
    | .ok last => ∃ q, last = some q ∧
        (∀ key, key ∈ q.groups.keys ↔ ∃ p ∈ ps, key ∈ p.groups.keys) ∧
        ∀ k < sources.length, ∀ key, (∀ p ∈ ps, p.entriesOf k key = .ok (p.contents k key)) ∧
          q.entriesOf k key = .ok ((ps.flatMap (·.contents k key)).mergeSort Shelf.le)
    | .error fault => fault = .arenaExhausted ∧
        2 ^ 34 < ps.length + (gs.map (·.rows.length)).sum := by
  obtain ⟨K, hK⟩ := Partial.exists_keys ps
  have hmakes : ∀ p ∈ ps, ∃ g : Gathering, g.Makes sources p := by
    intro p hp
    obtain ⟨i, hi, rfl⟩ := List.getElem_of_mem hp
    exact ⟨_, made.get (made.length_eq ▸ hi) hi⟩
  have holding : ∀ p ∈ ps, p.Holding K sources.length (observing sources) 0 := by
    intro p hp
    obtain ⟨g, hg⟩ := hmakes p hp
    exact hg.holding (hK p hp)
  have hyields := fun d hlength => reduce_yields (d := d) hne horder holding
    (fun k hk => sum_load_le made hK hk) hlength
  cases hresult : reduce order ps with
  | error fault =>
    simp only [hresult, Yields] at hyields
    refine ⟨(hyields ps.length Nat.lt_two_pow_self.le).1, ?_⟩
    by_contra hsmall
    have hneed := (hyields 34 (by omega)).2
    have hlt := bytes_lt_offsetSpan (n := (gs.map (·.rows.length)).sum) (by omega)
    omega
  | ok last =>
    have hpost := hyields ps.length Nat.lt_two_pow_self.le
    rw [hresult] at hpost
    obtain ⟨q, tree, account, rfl, hleaves, hq, -, hkeys, hcontents⟩ := hpost
    refine ⟨q, rfl, hkeys, fun k hk key => ⟨?_, ?_⟩⟩
    · intro p hp
      obtain ⟨g, hg⟩ := hmakes p hp
      rw [hg.represents.1.entriesOf_eq hk, hg.represents.1.contents_eq hk]
    · have htree := MergeTree.fold_merge Shelf.le_trans Shelf.le_total (·.contents k key) tree
        fun p hp => (sorted p (hleaves ▸ hp) k hk key).pairwise
      rw [hq.entriesOf_eq hk, ← hq.contents_eq hk, hcontents k hk key, htree, hleaves]

/-- Two partial results of one row each, at the same time, become one with both entries. -/
theorem reduce_contents_two :
    let table : Table := ⟨#[.floats #[1.5, 2.5], .timestamps #[1, 1]], 2, by simp [Column.size]⟩
    let sources : List (Source × Source) := [(.column 0, .column 1)]
    let gs : List Gathering := [⟨0, {}, none, table, [0]⟩, ⟨0, {}, none, table, [1]⟩]
    let order : List Branch → GroupOrder := fun _ groups => groups.reverse
    ∃ ps q, List.Forall₂ (fun g p => g.Makes sources p) gs ps ∧ reduce order ps = .ok (some q) ∧
      (∀ key, key ∈ q.groups.keys ↔ ∃ p ∈ ps, key ∈ p.groups.keys) ∧
      q.entriesOf 0 none = .ok [⟨1, 1.5⟩, ⟨1, 2.5⟩] := by
  intro table sources gs order
  obtain ⟨p, hp⟩ := Gathering.exists_makes ⟨0, {}, none, table, [0]⟩ sources (Nat.zero_le _)
    (by decide)
  obtain ⟨p', hp'⟩ := Gathering.exists_makes ⟨0, {}, none, table, [1]⟩ sources (Nat.zero_le _)
    (by decide)
  have hmade : List.Forall₂ (fun (g : Gathering) p => g.Makes sources p) gs [p, p'] :=
    .cons hp (.cons hp' .nil)
  have hsorted : ∀ r ∈ [p, p'], ∀ k < sources.length, ∀ key, InOrder (r.contents k key) := by
    have hshort : ∀ {entries : List Observation}, entries.length ≤ 1 → InOrder entries := by
      intro entries hlength
      match entries, hlength with
      | [], _ => exact List.Pairwise.nil
      | [_], _ => exact List.pairwise_singleton _ _
    intro r hr k hk key
    simp only [List.mem_cons, List.not_mem_nil, or_false] at hr
    rcases hr with rfl | rfl
    · rw [hp.contents_eq hk]
      exact hshort ((List.length_map _).trans_le (List.length_filter_le _ _))
    · rw [hp'.contents_eq hk]
      exact hshort ((List.length_map _).trans_le (List.length_filter_le _ _))
  have horder : ∀ way groups, (order way groups).Perm groups := fun _ _ => List.reverse_perm _
  have hreduce := reduce_contents hmade (by simp) hsorted horder
  cases hresult : reduce order [p, p'] with
  | error fault =>
    rw [hresult] at hreduce
    exact absurd hreduce.2 (by simp [gs])
  | ok last =>
    rw [hresult] at hreduce
    obtain ⟨q, rfl, hkeys, hentries⟩ := hreduce
    have hone {i : ℕ} {r : Partial Twap} (hr : Gathering.Makes ⟨0, {}, none, table, [i]⟩ sources r)
        (hvalid : (observing sources 0 (table.row i)).isValid = true) :
        r.contents 0 none = [observing sources 0 (table.row i)] := by
      rw [hr.contents_eq Nat.one_pos, List.filter_cons_of_pos (by simp [Table.keyOf, hvalid])]
      rfl
    have hq := (hentries 0 Nat.one_pos none).2
    simp only [List.flatMap_cons, List.flatMap_nil, hone hp (by decide +kernel),
      hone hp' (by decide +kernel)] at hq
    rw [List.mergeSort_of_pairwise (by decide +kernel)] at hq
    exact ⟨[p, p'], q, hmade, hresult, hkeys, hq⟩

end Query

end TimeWeighted
