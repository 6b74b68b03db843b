import Mathlib
import TimeWeighted.Engine.Query

/-!
# Handing out frames

Workers take numbers from a shared counter, one at a time and in any order of turns.  A number is
taken once, and every worker sees the counter grow; so the frames are handed out once each, to every
worker in ascending order, and when all numbers below the count of frames are taken, the workers
stop one by one.

* `Dispatch.Fair` : the invariant that relates the counter, the frames taken and the workers that
  have stopped.
* `Dispatch.Fair.turn`, `Dispatch.fair_play` : it holds after any turns.
* `Dispatch.claims_le`, `Dispatch.isOver_iff` : how many numbers are taken.
* `Dispatch.handsOut` : **every frame is handed out once, in ascending order.**
* `Dispatch.isOver_roundRobin` : the turns that go round come to an end.
-/

namespace TimeWeighted

/-- A schedule deals every frame to exactly one of the workers, each of which gathers its frames in
ascending order. -/
structure Schedule.Deals (schedule : Schedule) (workers frameCount : ℕ) : Prop where
  /-- Every worker is dealt some frames, or none. -/
  workers_eq : schedule.frames.length = workers
  /-- Every frame is dealt once. -/
  frames_perm : schedule.frames.flatten.Perm (List.range frameCount)
  /-- Every worker gathers its frames in ascending order. -/
  ascending : ∀ frames ∈ schedule.frames, frames.Pairwise (· < ·)

/-- Under the schedule workers gather all frames, and merging and reading go through all groups. -/
structure Schedule.Complete (schedule : Schedule) (workers frameCount : ℕ) : Prop extends
    schedule.Deals workers frameCount where
  /-- Merges go through all groups. -/
  mergeOrder_perm : ∀ way groups, (schedule.mergeOrder way groups).Perm groups
  /-- All groups are read. -/
  readOrder_perm : ∀ groups, (schedule.readOrder groups).Perm groups

namespace Dispatch

variable {frameCount n : ℕ} {d : Dispatch} {i : ℕ}

/-! ### One turn -/

/-- Worker `i` is there and has not stopped: at its turn it takes a number. -/
def isActive (d : Dispatch) (i : ℕ) : Bool :=
  d.workers[i]?.any fun worker => !worker.stopped

/-- A turn takes the next number and hands it to its worker, or it is let pass. -/
theorem turn_cases (frameCount : ℕ) (d : Dispatch) (i : ℕ) :
    (d.isActive i = false ∧ d.turn frameCount i = d) ∨
      (d.isActive i = true ∧ (d.turn frameCount i).counter = d.counter + 1 ∧
        ∃ before worker behind, worker.stopped = false ∧
          d.workers.toList = before ++ worker :: behind ∧
          (d.turn frameCount i).workers.toList =
            before ++ worker.take frameCount d.counter :: behind) := by
  cases hworker : d.workers[i]? with
  | none => exact .inl ⟨by simp [isActive, hworker], by simp [turn, hworker]⟩
  | some worker =>
    cases hstopped : worker.stopped with
    | true =>
      exact .inl ⟨by simp [isActive, hworker, hstopped], by simp [turn, hworker, hstopped]⟩
    | false =>
      have hturn : d.turn frameCount i =
          ⟨d.counter + 1, d.workers.modify i (Worker.take frameCount d.counter)⟩ := by
        simp [turn, hworker, hstopped]
      obtain ⟨hi, hget⟩ := Array.getElem?_eq_some_iff.1 hworker
      have hsplit : d.workers.toList =
          d.workers.toList.take i ++ worker :: d.workers.toList.drop (i + 1) := by
        rw [← hget, ← Array.getElem_toList hi, List.getElem_cons_drop, List.take_append_drop]
      refine .inr ⟨by simp [isActive, hworker, hstopped], by rw [hturn], _, worker, _, hstopped,
        hsplit, ?_⟩
      rw [hturn, Array.toList_modify, List.modify_eq_take_cons_drop (by simpa using hi)]
      simp [hget]

theorem isActive_turn (hi : d.isActive i = true) (j : ℕ) :
    (d.turn frameCount i).isActive j = true ↔
      d.isActive j = true ∧ (i = j → d.counter < frameCount) := by
  obtain ⟨worker, hworker, hrun⟩ : ∃ worker, d.workers[i]? = some worker ∧
      worker.stopped = false := by
    simpa [isActive, Option.any_eq_true] using hi
  have hturn : d.turn frameCount i =
      ⟨d.counter + 1, d.workers.modify i (Worker.take frameCount d.counter)⟩ := by
    simp [turn, hworker, hrun]
  rw [isActive, hturn, Array.getElem?_modify]
  by_cases hij : i = j
  · subst hij
    by_cases hmore : d.counter < frameCount <;> simp [hworker, hrun, hmore, Worker.take, isActive]
  · simp [hij, isActive]

/-! ### Any turns -/

/-- What holds of the workers and their counter after any turns. -/
structure Fair (frameCount n : ℕ) (d : Dispatch) : Prop where
  /-- There are as many workers as at the start. -/
  length_eq : d.workers.toList.length = n
  /-- The numbers below the counter that are numbers of frames were each taken by one worker. -/
  frames_perm : d.frames.flatten.Perm (List.range (min d.counter frameCount))
  /-- Every worker has taken its frames in ascending order. -/
  ascending : ∀ frames ∈ d.frames, frames.Pairwise (· < ·)
  /-- Every other number has stopped a worker. -/
  countP_stopped : d.workers.toList.countP (·.stopped) = d.counter - frameCount

theorem fair_start (frameCount n : ℕ) : Fair frameCount n (start n) where
  length_eq := by simp [start]
  frames_perm := by simp [start, frames]
  ascending := by simp [start, frames]
  countP_stopped := by simp [start, List.countP_replicate]

section

variable {d' : Dispatch} {before behind : List Worker} {worker : Worker}

theorem Fair.hand (h : Fair frameCount n d) (hmore : d.counter < frameCount)
    (hrun : worker.stopped = false) (hworkers : d.workers.toList = before ++ worker :: behind)
    (hcounter : d'.counter = d.counter + 1)
    (hworkers' : d'.workers.toList =
      before ++ { worker with taken := d.counter :: worker.taken } :: behind) :
    Fair frameCount n d' := by
  obtain ⟨hlength, hperm, hasc, hstopped⟩ := h
  have hfrom : d.frames = before.map (·.taken.reverse) ++
      worker.taken.reverse :: behind.map (·.taken.reverse) := by simp [frames, hworkers]
  have hto : d'.frames = before.map (·.taken.reverse) ++
      (worker.taken.reverse ++ [d.counter]) :: behind.map (·.taken.reverse) := by
    simp [frames, hworkers']
  rw [Nat.min_eq_left hmore.le] at hperm
  refine ⟨?_, ?_, ?_, ?_⟩
  · rw [hworkers] at hlength
    simpa [hworkers'] using hlength
  · rw [hcounter, Nat.min_eq_left hmore, List.range_succ]
    refine List.Perm.trans ?_ (hperm.append_right [d.counter])
    rw [hfrom, hto]
    simp only [List.flatten_append, List.flatten_cons, List.append_assoc]
    refine List.Perm.append_left _ (List.Perm.append_left _ ?_)
    exact (List.perm_append_singleton _ _).symm
  · intro fs hfs
    rw [hto] at hfs
    rw [hfrom] at hasc hperm
    rcases List.mem_append.1 hfs with hfs | hfs
    · exact hasc fs (List.mem_append_left _ hfs)
    · rcases List.mem_cons.1 hfs with rfl | hfs
      · -- the frame that is taken is greater than all that were taken before it
        rw [List.pairwise_append]
        refine ⟨hasc _ (List.mem_append_right _ List.mem_cons_self), List.pairwise_singleton _ _,
          fun x hx y hy => ?_⟩
        rw [List.mem_singleton.1 hy, ← List.mem_range, ← hperm.mem_iff, List.mem_flatten]
        exact ⟨_, List.mem_append_right _ List.mem_cons_self, hx⟩
      · exact hasc fs (List.mem_append_right _ (List.mem_cons_of_mem _ hfs))
  · rw [hworkers, List.countP_append, List.countP_cons_of_neg (by simp [hrun])] at hstopped
    rw [hworkers', hcounter, List.countP_append, List.countP_cons_of_neg (by simp [hrun]), hstopped]
    omega

theorem Fair.stop (h : Fair frameCount n d) (hmore : ¬d.counter < frameCount)
    (hrun : worker.stopped = false) (hworkers : d.workers.toList = before ++ worker :: behind)
    (hcounter : d'.counter = d.counter + 1)
    (hworkers' : d'.workers.toList = before ++ { worker with stopped := true } :: behind) :
    Fair frameCount n d' := by
  obtain ⟨hlength, hperm, hasc, hstopped⟩ := h
  have hframes : d'.frames = d.frames := by simp [frames, hworkers, hworkers']
  refine ⟨?_, ?_, hframes ▸ hasc, ?_⟩
  · rw [hworkers] at hlength
    simpa [hworkers'] using hlength
  · have hmin : min (d.counter + 1) frameCount = min d.counter frameCount := by omega
    rwa [hframes, hcounter, hmin]
  · rw [hworkers, List.countP_append, List.countP_cons_of_neg (by simp [hrun])] at hstopped
    rw [hworkers', hcounter, List.countP_append, List.countP_cons_of_pos rfl, ← Nat.add_assoc,
      hstopped]
    omega

end

/-- A turn hands out the next frame, or stops a worker when there are no more. -/
theorem Fair.turn (h : Fair frameCount n d) (i : ℕ) : Fair frameCount n (d.turn frameCount i) := by
  rcases turn_cases frameCount d i with ⟨-, hturn⟩ | ⟨-, hcounter, before, worker, behind, hrun,
    hworkers, hturn⟩
  · rwa [hturn]
  · by_cases hmore : d.counter < frameCount
    · rw [Worker.take, if_pos hmore] at hturn
      exact h.hand hmore hrun hworkers hcounter hturn
    · rw [Worker.take, if_neg hmore] at hturn
      exact h.stop hmore hrun hworkers hcounter hturn

theorem Fair.play (h : Fair frameCount n d) (turns : List ℕ) :
    Fair frameCount n (d.play frameCount turns) := by
  induction turns generalizing d with
  | nil => exact h
  | cons i turns ih => exact ih (h.turn i)

theorem fair_play (frameCount n : ℕ) (turns : List ℕ) :
    Fair frameCount n ((start n).play frameCount turns) :=
  (fair_start frameCount n).play turns

/-! ### How many numbers are taken -/

/-- The number of turns at which a number is taken. -/
def claims (frameCount : ℕ) : List ℕ → Dispatch → ℕ
  | [], _ => 0
  | i :: turns, d => (if d.isActive i then 1 else 0) + claims frameCount turns (d.turn frameCount i)

theorem counter_play (frameCount : ℕ) (turns : List ℕ) (d : Dispatch) :
    (d.play frameCount turns).counter = d.counter + claims frameCount turns d := by
  induction turns generalizing d with
  | nil => rfl
  | cons i turns ih =>
    have hplay : d.play frameCount (i :: turns) = (d.turn frameCount i).play frameCount turns := rfl
    rw [hplay, ih, claims]
    rcases turn_cases frameCount d i with ⟨hpass, hturn⟩ | ⟨htake, hcounter, -⟩
    · rw [if_neg (by simp [hpass]), hturn, Nat.zero_add]
    · rw [if_pos htake, hcounter, Nat.add_assoc]

theorem Fair.counter_le (h : Fair frameCount n d) : d.counter ≤ frameCount + n := by
  have hle := List.countP_le_length (p := fun worker : Worker => worker.stopped)
    (l := d.workers.toList)
  rw [h.countP_stopped, h.length_eq] at hle
  omega

theorem Fair.isOver_iff (h : Fair frameCount n d) (hn : 0 < n) :
    d.isOver = true ↔ d.counter = frameCount + n := by
  have hall : d.isOver = true ↔ d.workers.toList.countP (·.stopped) = d.workers.toList.length := by
    rw [List.countP_eq_length, isOver, ← Array.all_toList, List.all_eq_true]
  rw [hall, h.countP_stopped, h.length_eq]
  omega

/-- **No order of turns goes on for ever**: at most as many numbers are taken as there are frames
and workers. -/
theorem claims_le (frameCount n : ℕ) (turns : List ℕ) :
    claims frameCount turns (start n) ≤ frameCount + n := by
  have hle := (fair_play frameCount n turns).counter_le
  rwa [counter_play, start, Nat.zero_add] at hle

theorem isOver_iff (hn : 0 < n) (turns : List ℕ) :
    ((start n).play frameCount turns).isOver = true ↔
      claims frameCount turns (start n) = frameCount + n := by
  rw [(fair_play frameCount n turns).isOver_iff hn, counter_play, start, Nat.zero_add]

/-- What workers are handed out by a sequence of turns. -/
structure HandsOut (frameCount n : ℕ) (turns : List ℕ) : Prop where
  /-- No order of turns goes on for ever. -/
  claims_le : claims frameCount turns (start n) ≤ frameCount + n
  /-- All workers have stopped when as many numbers are taken as there are frames and workers. -/
  isOver_iff : ((start n).play frameCount turns).isOver = true ↔
    claims frameCount turns (start n) = frameCount + n
  /-- Then every frame was taken by exactly one worker. -/
  frames_perm : ((start n).play frameCount turns).isOver = true →
    ((start n).play frameCount turns).frames.flatten.Perm (List.range frameCount)
  /-- Every worker takes its frames in ascending order. -/
  ascending : ∀ frames ∈ ((start n).play frameCount turns).frames, frames.Pairwise (· < ·)

/-- **Every frame is handed out once, in ascending order**, in any order of turns. -/
theorem handsOut (frameCount : ℕ) (hn : 0 < n) (turns : List ℕ) : HandsOut frameCount n turns where
  claims_le := claims_le frameCount n turns
  isOver_iff := isOver_iff hn turns
  frames_perm hover := by
    have hfair := fair_play frameCount n turns
    have hperm := hfair.frames_perm
    rwa [(hfair.isOver_iff hn).1 hover, Nat.min_eq_right (Nat.le_add_right _ _)] at hperm
  ascending := (fair_play frameCount n turns).ascending

theorem deals_of_isOver {schedule : Schedule} {turns : List ℕ} (hn : 0 < n)
    (hover : ((start n).play frameCount turns).isOver = true)
    (hframes : schedule.frames = ((start n).play frameCount turns).frames) :
    schedule.Deals n frameCount := by
  have hands := handsOut frameCount hn turns
  refine ⟨?_, ?_, ?_⟩
  · rw [hframes, frames, List.length_map, (fair_play frameCount n turns).length_eq]
  · exact hframes ▸ hands.frames_perm hover
  · exact hframes ▸ hands.ascending

/-! ### Turns that go round -/

/-- After `t` turns that go round, `t` numbers are taken, and the workers that had a turn after the
last frame was taken have stopped. -/
theorem counter_goRound (hn : 0 < n) {t : ℕ} (ht : t ≤ frameCount + n) :
    ((start n).play frameCount ((List.range t).map (· % n))).counter = t ∧
      ∀ i, ((start n).play frameCount ((List.range t).map (· % n))).isActive i = true ↔
        i < n ∧ ∀ s, frameCount ≤ s → s < t → s % n ≠ i := by
  induction t with
  | zero =>
    refine ⟨rfl, fun i => ?_⟩
    by_cases hi : i < n <;> simp [play, start, isActive, hi]
  | succ t ih =>
    obtain ⟨hcounter, hactive⟩ := ih (by omega)
    set d := (start n).play frameCount ((List.range t).map (· % n)) with hd
    have hstep : (start n).play frameCount ((List.range (t + 1)).map (· % n)) =
        d.turn frameCount (t % n) := by
      rw [List.range_succ, List.map_append, hd, play, List.foldl_append]
      rfl
    have htake : d.isActive (t % n) = true := by
      refine (hactive _).2 ⟨Nat.mod_lt _ hn, fun s hs hst hmod => ?_⟩
      -- the turns of one worker lie `n` apart
      have hdvd := (Nat.modEq_iff_dvd' hst.le).1 hmod
      have hle := Nat.le_of_dvd (by omega) hdvd
      omega
    rw [hstep]
    refine ⟨?_, fun i => ?_⟩
    · rcases turn_cases frameCount d (t % n) with ⟨hpass, -⟩ | ⟨-, hturn, -⟩
      · rw [htake] at hpass
        exact absurd hpass (by decide)
      · rw [hturn, hcounter]
    · rw [isActive_turn htake, hactive, hcounter]
      constructor
      · rintro ⟨⟨hi, hbefore⟩, hlast⟩
        refine ⟨hi, fun s hs hst hmod => ?_⟩
        rcases Nat.lt_succ_iff_lt_or_eq.1 hst with hst | rfl
        · exact hbefore s hs hst hmod
        · exact absurd (hlast hmod) (by omega)
      · rintro ⟨hi, hall⟩
        refine ⟨⟨hi, fun s hs hst => hall s hs (by omega)⟩, fun hmod => ?_⟩
        by_contra hge
        exact hall t (by omega) (by omega) hmod

theorem isOver_roundRobin (hn : 0 < n) : (roundRobin frameCount n).isOver = true :=
  ((fair_play frameCount n _).isOver_iff hn).2 (counter_goRound hn le_rfl).1

end Dispatch

/-- The schedule deals frames as workers take them when they have their turns in some order, until
all have stopped. -/
def Schedule.Arises (schedule : Schedule) (workers frameCount : ℕ) : Prop :=
  ∃ turns, ((Dispatch.start workers).play frameCount turns).isOver = true ∧
    schedule.frames = ((Dispatch.start workers).play frameCount turns).frames

theorem Schedule.Arises.deals {schedule : Schedule} {workers frameCount : ℕ}
    (h : schedule.Arises workers frameCount) (hworkers : 0 < workers) :
    schedule.Deals workers frameCount := by
  obtain ⟨turns, hover, hframes⟩ := h
  exact Dispatch.deals_of_isOver hworkers hover hframes

theorem Schedule.complete_roundRobin (frameCount : ℕ) {n : ℕ} (hn : 0 < n) :
    (Schedule.roundRobin frameCount n).Complete n frameCount where
  toDeals := Schedule.Arises.deals ⟨_, Dispatch.isOver_roundRobin hn, rfl⟩ hn
  mergeOrder_perm _ _ := .rfl
  readOrder_perm _ := .rfl

end TimeWeighted
