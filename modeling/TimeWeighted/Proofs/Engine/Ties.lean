import Mathlib
import TimeWeighted.Proofs.Arena.Ids
import TimeWeighted.Proofs.Average.Ties
import TimeWeighted.Proofs.Engine.MergeCalls

/-!
# Ties between portions

The same observations can be split into portions, and these merged, in many ways.  The answer is
that of the stable sort of the leaves of the tree that the calls spell, so the way matters only
where several observations were made at one instant, as such ties stay in the order of the leaves.

* `MergePlan` : portions, and calls that merge them into one.
* `MergePlan.answers_average` : the answer is the average of the leaves, stably sorted.
* `MergePlan.exists_of_valid` : observations can be merged in any order.
* `MergePlan.answers_same` : **plans answer the same if their ties end alike.**
* `MergePlan.answers_differ` : they need not if their ties do not.
-/

namespace TimeWeighted

open Observation

/-- Portions of one group, each in order of time, and calls that merge them into one. -/
structure MergePlan where
  /-- Where the slots of the instances start. -/
  slot : ℕ
  /-- The portions. -/
  items : List Portion
  /-- The calls. -/
  calls : List MergeCall
  /-- The tree that the calls spell. -/
  tree : MergeTree Portion
  /-- The portions are such as instances make. -/
  wellFormed : ∀ p ∈ items, p.WellFormed slot
  /-- Every portion is in order of time. -/
  sorted : ∀ p ∈ items, InOrder p.contents
  /-- One portion is left. -/
  single : MergeCall.forest items calls = [tree]

namespace MergePlan

/-- Carries out the calls. -/
def run (plan : MergePlan) : Except Fault (List Portion) :=
  MergeCall.run Portion.merge plan.items plan.calls

/-- The instance that is left answers the value. -/
def Answers (plan : MergePlan) (x : Float) : Prop :=
  ∃ last, plan.run = .ok [last] ∧ last.value = .ok x

/-- The observations of all portions, in the order of the leaves. -/
def observations (plan : MergePlan) : List Observation :=
  plan.tree.leaves.flatMap Portion.contents

/-- Every arena has room for 264 bytes an observation and a portion. -/
def HasRoom (plan : MergePlan) : Prop :=
  ∃ used, (∀ p ∈ plan.items, p.twap.arena.size ≤ used) ∧
    used + 264 * (plan.observations.length * plan.items.length) < Handle.offsetSpan

/-- A plan lacks room and exhausts an arena. -/
def Exhausts (plan : MergePlan) : Prop :=
  plan.run = .error .arenaExhausted ∧ ¬ plan.HasRoom

theorem observations_perm (plan : MergePlan) :
    plan.observations.Perm (plan.items.flatMap Portion.contents) :=
  (Portion.perm_of_single plan.single).flatMap_right _

/-- **The answer of a plan** is the average of its observations, stably sorted by time. -/
theorem answers_average (plan : MergePlan) :
    plan.Answers (average (plan.observations.mergeSort Shelf.le)) ∨ plan.Exhausts := by
  cases hrun : plan.run with
  | ok left =>
    left
    obtain ⟨last, rfl, -, hvalue⟩ :=
      Portion.sorted_of_single plan.wellFormed plan.sorted plan.single hrun
    exact ⟨last, hrun, hvalue⟩
  | error fault =>
    right
    have hyields : ∀ used, (∀ p ∈ plan.items, p.twap.arena.size ≤ used) → Yields _ _ plan.run :=
      fun used hused => Portion.run_single plan.wellFormed hused plan.single
    rw [hrun, ← plan.observations_perm.length_eq] at hyields
    refine ⟨?_, ?_⟩
    · have hfault := hyields _ fun p _ => p.twap.arena.size_lt_offsetSpan.le
      rw [hrun, hfault.1]
    · rintro ⟨used, hused, hroom⟩
      exact absurd (hyields used hused).2 (Nat.not_le.2 hroom)

/-! ### Observations in any order -/

/-- Calls that merge all items into the first one, in their order. -/
def inTurn (n : ℕ) : List MergeCall :=
  List.replicate n ⟨0, 1, Nat.zero_ne_one⟩

theorem forest_inTurn {α : Type} (item : α) (rest : List α) :
    ∃ tree, MergeCall.forest (item :: rest) (inTurn rest.length) = [tree] ∧
      tree.leaves = item :: rest := by
  suffices h : ∀ t : MergeTree α, ∃ tree,
      (inTurn rest.length).foldl MergeCall.plant (t :: rest.map .leaf) = [tree] ∧
        tree.leaves = t.leaves ++ rest from h (.leaf item)
  induction rest with
  | nil => exact fun t => ⟨t, rfl, (List.append_nil _).symm⟩
  | cons a rest ih =>
    intro t
    obtain ⟨tree, hforest, hleaves⟩ := ih (.node t (.leaf a))
    refine ⟨tree, hforest, hleaves.trans ?_⟩
    simp [MergeTree.leaves]

theorem exists_portions {os : List Observation} (hvalid : ∀ o ∈ os, o.isValid = true) :
    ∃ items : List Portion, items.length = os.length ∧ items.flatMap Portion.contents = os ∧
      ∀ p ∈ items, p.WellFormed 0 ∧ InOrder p.contents ∧ p.twap.arena.size = 256 := by
  induction os with
  | nil => exact ⟨[], rfl, rfl, by simp⟩
  | cons o rest ih =>
    rw [List.forall_mem_cons] at hvalid
    obtain ⟨items, hlength, hcontents, hall⟩ := ih hvalid.2
    obtain ⟨p, hp, hpcontents, hpsize⟩ :=
      Portion.exists_of_valid hvalid.1 (({} : IdSupply).nth rest.length) 0
    refine ⟨p :: items, by rw [List.length_cons, hlength, List.length_cons], ?_, ?_⟩
    · rw [List.flatMap_cons, hpcontents, hcontents, List.singleton_append]
    · exact List.forall_mem_cons.2 ⟨⟨hp, by simp [hpcontents, InOrder], hpsize⟩, hall⟩

/-- **Observations can be merged in any order**, as long as there is room. -/
theorem exists_answers (os : List Observation) (hne : os ≠ [])
    (hvalid : ∀ o ∈ os, o.isValid = true)
    (hroom : 256 + 264 * (os.length * os.length) < Handle.offsetSpan) :
    ∃ plan : MergePlan, plan.observations = os ∧
      plan.Answers (average (os.mergeSort Shelf.le)) := by
  obtain ⟨items, hlength, hcontents, hall⟩ := exists_portions hvalid
  obtain ⟨p, rest, rfl⟩ := List.exists_cons_of_length_pos
    (hlength.symm ▸ List.length_pos_of_ne_nil hne : 0 < items.length)
  obtain ⟨tree, hforest, hleaves⟩ := forest_inTurn p rest
  let plan : MergePlan := ⟨0, p :: rest, inTurn rest.length, tree, fun p hp => (hall p hp).1,
    fun p hp => (hall p hp).2.1, hforest⟩
  have hos : plan.observations = os := by
    rw [← hcontents, ← hleaves]
    rfl
  refine ⟨plan, hos, ?_⟩
  rcases plan.answers_average with hanswers | ⟨-, hfull⟩
  · rwa [hos] at hanswers
  · refine absurd ⟨256, fun p hp => (hall p hp).2.2.le, ?_⟩ hfull
    rwa [hos, show plan.items.length = os.length from hlength]

/-! ### Plans that answer the same -/

/-- **Plans answer the same if their ties end alike.**  Two plans with the same observations answer
the same value if they have the observations of every instant in the same order.  If there is any
time between the least and the greatest instant, it is enough that the same observation comes last
at every instant, and at the greatest one even that is not needed if the values there are finite. -/
theorem answers_same {plan plan' : MergePlan} (same : plan.observations.Perm plan'.observations)
    (ties : (∀ t, plan.observations.filter (·.ts == t) = plan'.observations.filter (·.ts == t)) ∨
      TakesTime plan.observations ∧ EndsAlike plan.observations plan'.observations) :
    (∃ x, plan.Answers x ∧ plan'.Answers x) ∨ plan.Exhausts ∨ plan'.Exhausts := by
  rcases plan.answers_average with hanswers | hexhausts
  · rcases plan'.answers_average with hanswers' | hexhausts
    · rw [← average_mergeSort_eq same ties] at hanswers'
      exact .inl ⟨_, hanswers, hanswers'⟩
    · exact .inr (.inr hexhausts)
  · exact .inr (.inl hexhausts)

/-- Three observations at one instant and two at a later one.  The plans differ in which of the
first two comes first, and in which of the last two comes last. -/
theorem answers_same_five : ∃ plan plan' : MergePlan,
    plan.observations = [⟨0, 1⟩, ⟨0, 2⟩, ⟨0, 3⟩, ⟨10, 5⟩, ⟨10, 6⟩] ∧
      plan'.observations = [⟨0, 2⟩, ⟨0, 1⟩, ⟨0, 3⟩, ⟨10, 6⟩, ⟨10, 5⟩] ∧
      ∃ x, plan.Answers x ∧ plan'.Answers x := by
  obtain ⟨plan, hos, x, hrun, hx⟩ := exists_answers
    [⟨0, 1⟩, ⟨0, 2⟩, ⟨0, 3⟩, ⟨10, 5⟩, ⟨10, 6⟩] (by simp) (by decide +kernel)
    (by decide +kernel)
  obtain ⟨plan', hos', x', hrun', hx'⟩ := exists_answers
    [⟨0, 2⟩, ⟨0, 1⟩, ⟨0, 3⟩, ⟨10, 6⟩, ⟨10, 5⟩] (by simp) (by decide +kernel)
    (by decide +kernel)
  refine ⟨plan, plan', hos, hos', ?_⟩
  have same : plan.observations.Perm plan'.observations := by
    rw [hos, hos']
    decide +kernel
  have htime : TakesTime plan.observations := by
    rw [hos]
    refine ⟨⟨0, 1⟩, by simp, ⟨10, 5⟩, by simp, ?_, by decide +kernel⟩
    decide +kernel
  have hends : EndsAlike plan.observations plan'.observations := by
    rw [hos, hos']
    intro t
    by_cases h0 : t = 0
    · left
      subst h0
      decide +kernel
    by_cases h10 : t = 10
    · right
      subst h10
      decide +kernel
    · left
      simp [Ne.symm h0, Ne.symm h10]
  rcases answers_same same (.inr ⟨htime, hends⟩) with hsame | ⟨hfull, -⟩ | ⟨hfull, -⟩
  · exact hsame
  · rw [hrun] at hfull
    cases hfull
  · rw [hrun'] at hfull
    cases hfull

/-- **The same observations can have two answers**: of two observations at one instant, the one that
comes last is the one that counts. -/
theorem answers_differ : ∃ plan plan' : MergePlan,
    plan.observations = [⟨0, 1⟩, ⟨0, 3⟩, ⟨10, 5⟩] ∧
      plan'.observations = [⟨0, 3⟩, ⟨0, 1⟩, ⟨10, 5⟩] ∧
      plan.observations.Perm plan'.observations ∧ plan.Answers 3 ∧ plan'.Answers 1 ∧
      (3 : Float) ≠ 1 := by
  obtain ⟨plan, hos, hanswers⟩ := exists_answers
    [⟨0, 1⟩, ⟨0, 3⟩, ⟨10, 5⟩] (by simp) (by decide +kernel) (by decide +kernel)
  obtain ⟨plan', hos', hanswers'⟩ := exists_answers
    [⟨0, 3⟩, ⟨0, 1⟩, ⟨10, 5⟩] (by simp) (by decide +kernel) (by decide +kernel)
  rw [List.mergeSort_of_pairwise (by decide +kernel)] at hanswers hanswers'
  have hthree : average [⟨0, 1⟩, ⟨0, 3⟩, ⟨10, 5⟩] = 3 := by decide +kernel
  have hone : average [⟨0, 3⟩, ⟨0, 1⟩, ⟨10, 5⟩] = 1 := by decide +kernel
  rw [hthree] at hanswers
  rw [hone] at hanswers'
  refine ⟨plan, plan', hos, hos', ?_, hanswers, hanswers', by decide +kernel⟩
  rw [hos, hos']
  exact .swap ..

end MergePlan

end TimeWeighted
