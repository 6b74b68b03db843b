import Mathlib
import TimeWeighted.Engine.Query
import TimeWeighted.Proofs.Outcome

/-!
# What instances of aggregates go through

The engine never touches an aggregate but through the operations that every aggregate has.  So what
each of these operations keeps, whatever the record, is kept by whole phases of a run: by gathering,
by the merges of a tree and by reading.

* `UpdateM.Relates` : the aggregate before an update and the one after it stand in a relation.
* `Partial.updateAll_relates`, `Partial.updateBeside_relates` : updates of all aggregates.
* `Partial.foldM_relates` : merging along a tree, for the instances of its first leaf.
* `Partial.finish_relates` : reading.
-/

namespace TimeWeighted

variable {φ : Type}

/-- Whatever the record, the aggregate before the update and the one after it stand in the
relation. -/
def UpdateM.Relates (update : UpdateM φ Unit) (R : φ → φ → Prop) : Prop :=
  ∀ f record g record', update.apply f record = .ok (g, record') → R f g

theorem UpdateM.apply_eq_ok {update : UpdateM φ Unit} {f g : φ} {record record' : SlotRecord} :
    update.apply f record = .ok (g, record') ↔ update (f, record) = .ok () (g, record') := by
  unfold apply
  cases update (f, record) <;> simp

theorem UpdateM.apply_bind (update update' : UpdateM φ Unit) (f : φ) (record : SlotRecord) :
    UpdateM.apply (do update; update') f record =
      update.apply f record >>= fun x => update'.apply x.1 x.2 := by
  unfold apply
  simp only [bind, EStateM.bind, Except.bind]
  cases update (f, record) <;> rfl

theorem UpdateM.Relates.bind {update update' : UpdateM φ Unit} {R : φ → φ → Prop}
    (h : update.Relates R) (h' : update'.Relates R) (trans : ∀ f g k, R f g → R g k → R f k) :
    UpdateM.Relates (do update; update') R := by
  intro f record k record' hrun
  rw [apply_eq_ok] at hrun
  obtain ⟨_, ⟨g, mid⟩, hfirst, hrest⟩ := exists_of_run_bind_ok hrun
  exact trans f g k (h f record g mid (apply_eq_ok.2 hfirst))
    (h' g mid k record' (apply_eq_ok.2 hrest))

theorem forall₂_trans {R S T : φ → φ → Prop} (trans : ∀ f g k, R f g → S g k → T f k)
    {fs gs ks : List φ} (h : List.Forall₂ R fs gs) (h' : List.Forall₂ S gs ks) :
    List.Forall₂ T fs ks := by
  induction h generalizing ks with
  | nil =>
    cases h'
    exact .nil
  | cons hfg _ ih =>
    cases h' with
    | cons hgk h' => exact .cons (trans _ _ _ hfg hgk) (ih h')

/-- The factory made the instance, which was then given its slots and an arena. -/
def Factory.Makes [Aggregate φ] (factory : Factory φ) (f : φ) : Prop :=
  ∃ supply layout arena,
    f = Aggregate.adopt arena (Aggregate.register layout (factory.run supply).1).1

namespace MergeTree

/-- The leftmost leaf: the item that all others are merged into. -/
def first {α : Type} : MergeTree α → α
  | leaf item => item
  | node dest _ => dest.first

theorem leaves_eq_cons {α : Type} (tree : MergeTree α) :
    ∃ rest, tree.leaves = tree.first :: rest ∧ (rest = [] → tree = .leaf tree.first) := by
  induction tree with
  | leaf item => exact ⟨[], rfl, fun _ => rfl⟩
  | node dest src ihd ihs =>
    obtain ⟨rest, hdest, -⟩ := ihd
    obtain ⟨rest', hsrc, -⟩ := ihs
    refine ⟨rest ++ src.leaves, by rw [leaves, hdest]; rfl, fun hnil => ?_⟩
    rw [hsrc] at hnil
    simp at hnil

end MergeTree

namespace Partial

/-- The record of a group.  A group that is not there has a new one. -/
def recordOf (layout : SlotLayout) (groups : Groups SlotRecord) (key : GroupKey) : SlotRecord :=
  (groups.find? key).getD layout.newRecord

/-! ### Making instances -/

section

variable [Aggregate φ] {reserve : ℕ} {factories : List (Factory φ)} {supply supply' : IdSupply}

theorem instances_makes {layout layout' : SlotLayout} {fs : List φ}
    (h : instances reserve factories layout supply = .ok (fs, layout') supply') :
    List.Forall₂ Factory.Makes factories fs := by
  induction factories generalizing layout supply fs with
  | nil =>
    cases h
    exact .nil
  | cons factory rest ih =>
    rcases hregister : Aggregate.register layout (factory.run supply).1 with ⟨f, layout₁⟩
    rw [instances, bind_of_ok (liftM_apply _ _)] at h
    simp only [hregister] at h
    obtain ⟨arena, s, harena, h⟩ := exists_of_run_bind_ok h
    obtain ⟨x, s', hrest, h⟩ := exists_of_run_bind_ok h
    cases h
    exact .cons ⟨supply, layout, arena, by rw [hregister]⟩ (ih hrest)

theorem create_makes {p : Partial φ} (h : create reserve factories supply = .ok p supply') :
    List.Forall₂ Factory.Makes factories p.aggregates ∧ p.groups.keys = [] := by
  rw [create] at h
  obtain ⟨x, s, hall, h⟩ := exists_of_run_bind_ok h
  cases h
  exact ⟨instances_makes hall, rfl⟩

end

/-! ### One row and one group -/

section

variable [Aggregate φ] {p : Partial φ} {groupBy : Option ℕ} {row : Row} {key : GroupKey}
  {record other : SlotRecord} {others : List φ}

theorem gatherRow_of_some (h : p.groups.find? (groupBy.bind row.symbol) = some record) :
    gatherRow groupBy p row = (do
      let x ← updateAll (Aggregate.next row) p.aggregates record
      return ⟨x.1, p.layout, p.groups.insert (groupBy.bind row.symbol) x.2⟩) := by
  obtain ⟨aggregates, layout, groups⟩ := p
  simp only at h
  simp only [gatherRow, h]

theorem gatherRow_of_none (h : p.groups.find? (groupBy.bind row.symbol) = none) :
    gatherRow groupBy p row = (do
      let x ← updateAll (Aggregate.first row) p.aggregates p.layout.newRecord
      return ⟨x.1, p.layout, p.groups.insert (groupBy.bind row.symbol) x.2⟩) := by
  obtain ⟨aggregates, layout, groups⟩ := p
  simp only at h
  simp only [gatherRow, h]

theorem mergeGroup_of_some (h : p.groups.find? key = some record) :
    mergeGroup others p (key, other) = (do
      let x ← updateBeside (fun f => Aggregate.merge other (Aggregate.arena f)) others
        p.aggregates record
      return ⟨x.1, p.layout, p.groups.insert key x.2⟩) := by
  obtain ⟨aggregates, layout, groups⟩ := p
  simp only at h
  simp only [mergeGroup, h]

theorem mergeGroup_of_none (h : p.groups.find? key = none) :
    mergeGroup others p (key, other) = (do
      let x ← updateBeside (fun f => do
          Aggregate.clear
          Aggregate.merge other (Aggregate.arena f))
        others p.aggregates p.layout.newRecord
      return ⟨x.1, p.layout, p.groups.insert key x.2⟩) := by
  obtain ⟨aggregates, layout, groups⟩ := p
  simp only at h
  simp only [mergeGroup, h]

end

variable {R : φ → φ → Prop}

/-! ### Updates of all aggregates -/

theorem updateAll_relates {update : UpdateM φ Unit} (h : update.Relates R) {fs gs : List φ}
    {record record' : SlotRecord} (hrun : updateAll update fs record = .ok (gs, record')) :
    List.Forall₂ R fs gs := by
  induction fs generalizing gs record with
  | nil =>
    cases hrun
    exact .nil
  | cons f fs ih =>
    obtain ⟨⟨g, mid⟩, hf, hrun⟩ := exists_of_bind_ok hrun
    obtain ⟨⟨gs, record'⟩, hfs, hrun⟩ := exists_of_bind_ok hrun
    cases hrun
    exact .cons (h f record g mid hf) (ih hfs)

theorem updateBeside_relates {update : φ → UpdateM φ Unit} (refl : ∀ f, R f f)
    (h : ∀ other, (update other).Relates R) {others fs gs : List φ} {record record' : SlotRecord}
    (hrun : updateBeside update others fs record = .ok (gs, record')) : List.Forall₂ R fs gs := by
  induction fs generalizing others gs record with
  | nil =>
    rw [updateBeside] at hrun
    cases hrun
    exact .nil
  | cons f fs ih =>
    cases others with
    | nil =>
      cases hrun
      exact List.forall₂_same.2 fun f _ => refl f
    | cons other others =>
      obtain ⟨⟨g, mid⟩, hf, hrun⟩ := exists_of_bind_ok hrun
      obtain ⟨⟨gs, record'⟩, hfs, hrun⟩ := exists_of_bind_ok hrun
      cases hrun
      exact .cons (h other f record g mid hf) (ih hfs)

/-! ### Merging and reading -/

section

variable [Aggregate φ] (refl : ∀ f, R f f) (trans : ∀ f g k, R f g → R g k → R f k)
  (clear : (Aggregate.clear : UpdateM φ Unit).Relates R)

section

variable (merge : ∀ other source, (Aggregate.merge other source : UpdateM φ Unit).Relates R)

include refl trans clear merge

theorem mergeGroup_relates {others : List φ} {p q : Partial φ} {group : GroupKey × SlotRecord}
    (hrun : p.mergeGroup others group = .ok q) :
    List.Forall₂ R p.aggregates q.aggregates := by
  obtain ⟨key, other⟩ := group
  cases hfind : p.groups.find? key with
  | some record =>
    rw [mergeGroup_of_some hfind] at hrun
    obtain ⟨⟨gs, record⟩, hbeside, hrun⟩ := exists_of_bind_ok hrun
    cases hrun
    exact updateBeside_relates refl (fun _ => merge _ _) hbeside
  | none =>
    rw [mergeGroup_of_none hfind] at hrun
    obtain ⟨⟨gs, record⟩, hbeside, hrun⟩ := exists_of_bind_ok hrun
    cases hrun
    exact updateBeside_relates refl (fun _ => clear.bind (merge _ _) trans) hbeside

theorem merge_relates {order : GroupOrder} {dest src q : Partial φ}
    (hrun : Partial.merge order dest src = .ok q) :
    List.Forall₂ R dest.aggregates q.aggregates := by
  rw [Partial.merge] at hrun
  generalize order src.groups.entries = groups at hrun
  induction groups generalizing dest with
  | nil =>
    cases hrun
    exact List.forall₂_same.2 fun f _ => refl f
  | cons group groups ih =>
    obtain ⟨mid, hgroup, hrun⟩ := exists_of_bind_ok hrun
    exact forall₂_trans trans (mergeGroup_relates refl trans clear merge hgroup) (ih hrun)

/-- Merging along a tree, the instances of its first leaf remain. -/
theorem foldM_relates {order : List Branch → GroupOrder} {tree : MergeTree (Partial φ)}
    {way : List Branch} {q : Partial φ}
    (hrun : tree.foldM (fun way => Partial.merge (order way)) way = .ok q) :
    List.Forall₂ R tree.first.aggregates q.aggregates := by
  induction tree generalizing way q with
  | leaf p =>
    cases hrun
    exact List.forall₂_same.2 fun f _ => refl f
  | node dest src ihd _ =>
    obtain ⟨p, hdest, hrun⟩ := exists_of_bind_ok hrun
    obtain ⟨p', hsrc, hrun⟩ := exists_of_bind_ok hrun
    exact forall₂_trans trans (ihd hdest) (merge_relates refl trans clear merge hrun)

end

include refl clear in
theorem ensureTotal_relates {p q : Partial φ} (hrun : p.ensureTotal = .ok q) :
    List.Forall₂ R p.aggregates q.aggregates := by
  rw [ensureTotal] at hrun
  split at hrun
  · cases hrun
    exact List.forall₂_same.2 fun f _ => refl f
  · obtain ⟨⟨gs, record⟩, hall, hrun⟩ := exists_of_bind_ok hrun
    cases hrun
    exact updateAll_relates clear hall

variable (value : ∀ record f x g, Aggregate.value record f = .ok x g → R f g)

include value in
theorem readRecord_relates {record : SlotRecord} {fs gs : List φ} {values : List Float}
    (hrun : readRecord record fs = .ok (gs, values)) : List.Forall₂ R fs gs := by
  induction fs generalizing gs values with
  | nil =>
    cases hrun
    exact .nil
  | cons f fs ih =>
    rw [readRecord] at hrun
    split at hrun
    · exact absurd hrun (by simp)
    · next x g hvalue =>
      obtain ⟨⟨gs, values⟩, hrest, hrun⟩ := exists_of_bind_ok hrun
      cases hrun
      exact .cons (value record f x g hvalue) (ih hrest)

include refl trans value

theorem readGroups_relates {groups : List (GroupKey × SlotRecord)} {fs gs : List φ}
    {rows : List GroupRow} (hrun : readGroups fs groups = .ok (gs, rows)) :
    List.Forall₂ R fs gs := by
  induction groups generalizing fs rows with
  | nil =>
    cases hrun
    exact List.forall₂_same.2 fun f _ => refl f
  | cons group groups ih =>
    obtain ⟨⟨mid, values⟩, hgroup, hrun⟩ := exists_of_bind_ok hrun
    obtain ⟨⟨gs, rows⟩, hgroups, hrun⟩ := exists_of_bind_ok hrun
    cases hrun
    exact forall₂_trans trans (readRecord_relates value hgroup) (ih hgroups)

theorem finish_relates {order : GroupOrder} {p : Partial φ} {gs : List φ} {rows : List GroupRow}
    (hrun : p.finish order = .ok (gs, rows)) : List.Forall₂ R p.aggregates gs := by
  obtain ⟨⟨gs, rows⟩, hgroups, hrun⟩ := exists_of_bind_ok hrun
  cases hrun
  exact readGroups_relates refl trans value hgroups

end

end Partial

end TimeWeighted
