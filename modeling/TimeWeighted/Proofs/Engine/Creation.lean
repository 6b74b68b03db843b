import Mathlib
import TimeWeighted.Engine.Query
import TimeWeighted.Proofs.Engine.Gathering

/-!
# New partial results

Every worker starts out with a partial result of its own, in which every aggregate has slots behind
those of the aggregate before it and an arena that nothing has been allocated in.

* `Partial.create_of_le`, `Partial.Represents.of_create` : a partial result without groups, and the
  accounts that it stands for.
* `Query.prepare_of_ok`, `Query.prepare_of_le` : one partial result for every worker.
* `Query.runWith_of_le`, `Query.runWith_of_lt` : a run with them, and one without.
-/

namespace TimeWeighted

/-- A value from one source and a time from another. -/
def reading (source : Source × Source) (row : Row) : Observation :=
  ⟨source.2.timestamp row, source.1.float row⟩

/-- What the aggregate `k` of those that are made from `sources` reads from a row. -/
def observing (sources : List (Source × Source)) (k : ℕ) : Row → Observation :=
  match sources[k]? with
  | some source => reading source
  | none => fun _ => ⟨Timestamp.null, missingValue⟩

/-- Factories of averages of the values of one source at the times of another. -/
def twapsOf (sources : List (Source × Source)) : List (Factory Twap) :=
  sources.map fun source => Twap.create source.1 source.2

namespace Partial

variable {reserve : ℕ} {sources : List (Source × Source)} {supply supply' : IdSupply}

theorem instances_cons (source : Source × Source) (layout : SlotLayout) :
    instances reserve (twapsOf (source :: sources)) layout supply =
      if reserve ≤ Arena.maxReservation then
        match instances reserve (twapsOf sources) (layout.addMany .long Buffer.slotCount)
            supply.take.2.take.2 with
        | .ok (fs, layout') supply' => .ok (⟨source.1, source.2,
            .empty supply.take.2.take.1 reserve, none, layout.size⟩ :: fs, layout') supply'
        | .error fault supply' => .error fault supply'
      else .error .reservationTooLarge supply.take.2.take.2 := by
  have hunfold : instances reserve (twapsOf (source :: sources)) layout = (do
      let twap ← liftM (Twap.create source.1 source.2)
      let arena ← Arena.create reserve
      let x ← instances reserve (twapsOf sources) (Aggregate.register layout twap).2
      return (Aggregate.adopt arena (Aggregate.register layout twap).1 :: x.1, x.2)) := rfl
  have hsupply : ((Twap.create source.1 source.2).run supply).2 = supply.take.2 := rfl
  have htwap : ((Twap.create source.1 source.2).run supply).1 =
      ⟨source.1, source.2, .empty supply.take.1 0, none, 0⟩ := rfl
  rw [hunfold, bind_of_ok (liftM_apply _ _), hsupply, htwap]
  split_ifs with h
  · have hcreate : Arena.create reserve supply.take.2 =
        .ok (.empty supply.take.2.take.1 reserve) supply.take.2.take.2 := by
      rw [Arena.create_apply, if_pos h]
    rw [bind_of_ok hcreate]
    change EStateM.bind (instances reserve (twapsOf sources)
      (layout.addMany .long Buffer.slotCount)) _ _ = _
    simp only [EStateM.bind]
    cases instances reserve (twapsOf sources) (layout.addMany .long Buffer.slotCount)
      supply.take.2.take.2 <;> rfl
  · have hcreate : Arena.create reserve supply.take.2 =
        .error .reservationTooLarge supply.take.2.take.2 := by
      rw [Arena.create_apply, if_neg h]
    rw [bind_of_error hcreate]

theorem serves_new (source : Source × Source) (id : ArenaId) (i : ℕ) :
    Twap.Serves ⟨source.1, source.2, .empty id reserve, none, i⟩ i (reading source) {}
      fun _ => none :=
  ⟨rfl, rfl, rfl, _, Twap.keeps_empty rfl, by simp⟩

theorem instances_of_ok {layout layout' : SlotLayout} {fs : List Twap}
    (h : instances reserve (twapsOf sources) layout supply = .ok (fs, layout') supply') :
    fs.length = sources.length ∧
      layout'.size = layout.size + Buffer.slotCount * sources.length ∧
      AllServe layout.size (observing sources) (fun _ => {}) (fun _ => none) fs := by
  induction sources generalizing layout supply fs with
  | nil =>
    obtain ⟨⟨rfl, rfl⟩, rfl⟩ : ([] = fs ∧ layout = layout') ∧ supply = supply' := by
      simpa [instances, twapsOf] using h
    refine ⟨rfl, by simp, ?_⟩
    intro k f hf
    simp at hf
  | cons source rest ih =>
    have hsize : (layout.addMany .long Buffer.slotCount).size = layout.size + Buffer.slotCount := by
      simp [SlotLayout.addMany, SlotLayout.size]
    rw [instances_cons] at h
    split_ifs at h with hreserve
    cases hrest : instances reserve (twapsOf rest) (layout.addMany .long Buffer.slotCount)
        supply.take.2.take.2 with
    | error fault supply => simp [hrest] at h
    | ok x supply =>
      obtain ⟨gs, layout'⟩ := x
      simp only [hrest, EStateM.Result.ok.injEq, Prod.mk.injEq] at h
      obtain ⟨⟨rfl, rfl⟩, rfl⟩ := h
      obtain ⟨hlength, hlayout, hserve⟩ := ih hrest
      rw [hsize] at hlayout hserve
      refine ⟨congrArg (· + 1) hlength, ?_, allServe_cons (serves_new source _ _) hserve⟩
      rw [hlayout, List.length_cons, Nat.mul_succ]
      omega

section

variable {φ : Type} [Aggregate φ] {factories : List (Factory φ)}

theorem instances_of_le (factories : List (Factory φ)) (h : reserve ≤ Arena.maxReservation)
    (layout : SlotLayout) (supply : IdSupply) :
    ∃ x supply', instances reserve factories layout supply = .ok x supply' := by
  induction factories generalizing layout supply with
  | nil => exact ⟨_, _, rfl⟩
  | cons factory rest ih =>
    rcases hregister : Aggregate.register layout (factory.run supply).1 with ⟨f, layout₁⟩
    have harena := Arena.create_apply reserve (factory.run supply).2
    rw [if_pos h] at harena
    obtain ⟨x, supply', hrest⟩ := ih layout₁ (factory.run supply).2.take.2
    rw [instances, bind_of_ok (liftM_apply _ _)]
    simp only [hregister]
    rw [bind_of_ok harena, bind_of_ok hrest]
    exact ⟨_, _, rfl⟩

theorem instances_of_lt (h : Arena.maxReservation < reserve) (hne : factories ≠ [])
    (layout : SlotLayout) (supply : IdSupply) :
    ∃ supply', instances reserve factories layout supply =
      .error .reservationTooLarge supply' := by
  cases factories with
  | nil => exact absurd rfl hne
  | cons factory rest =>
    rcases hregister : Aggregate.register layout (factory.run supply).1 with ⟨f, layout₁⟩
    have harena := Arena.create_apply reserve (factory.run supply).2
    rw [if_neg (Nat.not_le.2 h)] at harena
    rw [instances, bind_of_ok (liftM_apply _ _)]
    simp only [hregister]
    exact ⟨_, bind_of_error harena⟩

theorem create_of_instances {fs : List φ} {layout : SlotLayout}
    (h : instances reserve factories {} supply = .ok (fs, layout) supply') :
    create reserve factories supply = .ok ⟨fs, layout, {}⟩ supply' := by
  rw [create, bind_of_ok h]
  rfl

theorem create_of_le (factories : List (Factory φ)) (h : reserve ≤ Arena.maxReservation)
    (supply : IdSupply) :
    ∃ p supply', create reserve factories supply = .ok p supply' := by
  obtain ⟨⟨fs, layout⟩, supply', hinstances⟩ := instances_of_le factories h {} supply
  exact ⟨_, _, create_of_instances hinstances⟩

end

/-- A new partial result stands for accounts without entries. -/
theorem Represents.of_create {p : Partial Twap}
    (h : create reserve (twapsOf sources) supply = .ok p supply') :
    p.Represents sources.length (observing sources) (fun _ => {}) ∧ p.groups.keys = [] := by
  rw [create] at h
  obtain ⟨⟨fs, layout⟩, _, hinstances, h⟩ := exists_of_run_bind_ok h
  cases h
  obtain ⟨hlength, hlayout, hserve⟩ := instances_of_ok hinstances
  refine ⟨⟨hlength, ?_, hserve, fun _ _ _ => rfl⟩, rfl⟩
  simpa [SlotLayout.size] using hlayout

end Partial

namespace Query

section

variable {φ : Type} [Aggregate φ] {query : Query φ} {table : Table} {supply supply' : IdSupply}

/-- A partial result that was made for the query. -/
def Created (query : Query φ) (p : Partial φ) : Prop :=
  ∃ supply supply', Partial.create query.arenaReserve query.aggregates supply = .ok p supply'

theorem mapM_of_ok {σ α β : Type} {f : α → EStateM Fault σ β} {xs : List α} {ys : List β}
    {s s' : σ} (h : xs.mapM f s = .ok ys s') :
    ys.length = xs.length ∧ ∀ y ∈ ys, ∃ x ∈ xs, ∃ t t', f x t = .ok y t' := by
  induction xs generalizing s ys with
  | nil =>
    rw [List.mapM_nil] at h
    cases h
    simp
  | cons x xs ih =>
    rw [List.mapM_cons] at h
    obtain ⟨y, t, hx, h⟩ := exists_of_run_bind_ok h
    obtain ⟨rest, t', hxs, h⟩ := exists_of_run_bind_ok h
    cases h
    obtain ⟨hlength, hall⟩ := ih hxs
    refine ⟨by simp [hlength], ?_⟩
    intro z hz
    rcases List.mem_cons.1 hz with rfl | hz
    · exact ⟨x, List.mem_cons_self, s, t, hx⟩
    · obtain ⟨x', hx', hrun⟩ := hall z hz
      exact ⟨x', List.mem_cons_of_mem _ hx', hrun⟩

theorem prepare_of_ok {workers : List (Partial φ)}
    (h : query.prepare table supply = .ok workers supply') :
    (∀ p ∈ workers, query.Created p) ∧
      ∃ first ∈ workers, workers.length = query.workerCount table first := by
  rw [prepare] at h
  obtain ⟨first, t, hfirst, h⟩ := exists_of_run_bind_ok h
  obtain ⟨others, t', hothers, h⟩ := exists_of_run_bind_ok h
  cases h
  obtain ⟨hlength, hall⟩ := mapM_of_ok hothers
  refine ⟨?_, first, List.mem_cons_self, ?_⟩
  · intro p hp
    rcases List.mem_cons.1 hp with rfl | hp
    · exact ⟨supply, t, hfirst⟩
    · obtain ⟨-, -, s, s', hrun⟩ := hall p hp
      exact ⟨s, s', hrun⟩
  · have hpos : 0 < query.workerCount table first := by
      unfold workerCount
      split_ifs <;> omega
    rw [List.length_cons, hlength, List.length_range]
    omega

theorem prepare_of_le (h : query.arenaReserve ≤ Arena.maxReservation) (table : Table)
    (supply : IdSupply) : ∃ workers supply', query.prepare table supply = .ok workers supply' := by
  have hmany : ∀ (n : List ℕ) (supply : IdSupply), ∃ ps supply', (n.mapM fun _ =>
      Partial.create query.arenaReserve query.aggregates) supply = .ok ps supply' := by
    intro n
    induction n with
    | nil => exact fun supply => ⟨_, _, rfl⟩
    | cons x xs ih =>
      intro supply
      obtain ⟨p, supply₁, hp⟩ := Partial.create_of_le query.aggregates h supply
      obtain ⟨ps, supply₂, hps⟩ := ih supply₁
      rw [List.mapM_cons, bind_of_ok hp, bind_of_ok hps]
      exact ⟨_, _, rfl⟩
  obtain ⟨first, supply₁, hfirst⟩ := Partial.create_of_le query.aggregates h supply
  obtain ⟨others, supply₂, hothers⟩ :=
    hmany (List.range (query.workerCount table first - 1)) supply₁
  rw [prepare, bind_of_ok hfirst, bind_of_ok hothers]
  exact ⟨_, _, rfl⟩

theorem prepare_of_lt (h : Arena.maxReservation < query.arenaReserve) (table : Table)
    (supply : IdSupply) :
    ∃ supply', query.prepare table supply = .error .reservationTooLarge supply' := by
  obtain ⟨supply', hinstances⟩ :=
    Partial.instances_of_lt h query.aggregates_ne_nil {} supply
  have hcreate : Partial.create query.arenaReserve query.aggregates supply = .error _ _ :=
    bind_of_error hinstances
  rw [prepare, bind_of_error hcreate]
  exact ⟨_, rfl⟩

/-- With a reservation that is granted a run ends as the execution by new workers does. -/
theorem runWith_of_le (hcolumn : query.checkGroupColumn table = .ok ())
    (h : query.arenaReserve ≤ Arena.maxReservation) (schedule : ℕ → Schedule)
    (supply : IdSupply) :
    ∃ workers supply', (∀ p ∈ workers, query.Created p) ∧
      (∃ first ∈ workers, workers.length = query.workerCount table first) ∧
      (∀ report, query.execute table (schedule workers.length) workers = .ok report →
        query.runWith table schedule supply = .ok (report, supply')) ∧
      ∀ fault, query.execute table (schedule workers.length) workers = .error fault →
        query.runWith table schedule supply = .error (.fault fault) := by
  obtain ⟨workers, supply', hprepare⟩ := prepare_of_le h table supply
  obtain ⟨created, hfirst⟩ := prepare_of_ok hprepare
  refine ⟨workers, supply', created, hfirst, fun report hreport => ?_, fun fault hfault => ?_⟩
  · simp only [runWith, hcolumn, hprepare, hreport]
  · simp only [runWith, hcolumn, hprepare, hfault]

theorem runWith_of_lt (hcolumn : query.checkGroupColumn table = .ok ())
    (h : Arena.maxReservation < query.arenaReserve) (schedule : ℕ → Schedule)
    (supply : IdSupply) :
    query.runWith table schedule supply = .error (.fault .reservationTooLarge) := by
  obtain ⟨supply', hprepare⟩ := prepare_of_lt h table supply
  simp only [runWith, hcolumn, hprepare]

end

end Query

end TimeWeighted
