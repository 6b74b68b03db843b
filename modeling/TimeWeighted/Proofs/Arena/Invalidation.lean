import Mathlib
import TimeWeighted.Arena.Pool
import TimeWeighted.Proofs.Arena.Ids
import TimeWeighted.Proofs.Arena.MemoryLaw

/-!
# How long a reset invalidates handles

A reset gives an arena a new id, so that it owns none of the handles it made before.  Ids come
round, though, and so does the arena: a handle is taken for one of its own again when a whole number
of rounds of ids has been taken in the pool since the arena took the id that the handle carries.

* `Diary` : how many ids a list of commands takes, and when each arena took its own.
* `Diary.tells_run` : the diary tells the id of every arena after every run.
* `Pool.invalid_until_period` : **after a reset of its arena a handle is owned, and made once more,
  exactly if whole rounds of ids have been taken in between.**
-/

namespace TimeWeighted

/-- What a list of commands does to the ids of a pool. -/
structure Diary where
  /-- How many ids have been taken. -/
  taken : ℕ := 0
  /-- How many had been taken when the arenas of the pool took theirs. -/
  dates : List ℕ := []

namespace Diary

open Pool (Command)

variable {diary : Diary} {supply : IdSupply} {pool : Pool} {command : Command} {i d : ℕ}

/-- One more command.  A creation that is refused takes an id as well. -/
def note (diary : Diary) : Command → Diary
  | .create reserve =>
    { taken := diary.taken + 1
      dates := if reserve ≤ Arena.maxReservation then diary.dates ++ [diary.taken]
        else diary.dates }
  | .reset i =>
    if i < diary.dates.length then
      { taken := diary.taken + 1, dates := diary.dates.set i diary.taken }
    else diary
  | .alloc .. | .write .. | .copyWithin .. | .copyFrom .. => diary

/-- The diary of a pool that begins without arenas. -/
def of (commands : List Command) : Diary :=
  commands.foldl note {}

/-- The diary tells which ids the arenas of the pool have, if the first was taken from `supply`. -/
structure Tells (diary : Diary) (supply : IdSupply) (pool : Pool) : Prop where
  /-- The ids that have been taken are gone. -/
  supply_eq : pool.supply = supply.skip diary.taken
  /-- Each arena has the id of its date. -/
  ids_eq : ∀ i : ℕ, pool.arenas[i]?.map Arena.id = diary.dates[i]?.map supply.nth
  /-- All dates are past. -/
  dates_lt : ∀ d ∈ diary.dates, d < diary.taken

theorem tells_empty (supply : IdSupply) : Tells {} supply ⟨supply, #[]⟩ :=
  ⟨rfl, fun i => by simp, by simp⟩

theorem Tells.exists_arena (h : diary.Tells supply pool) (hd : diary.dates[i]? = some d) :
    ∃ a, pool.arenas[i]? = some a ∧ a.id = supply.nth d := by
  have hid := h.ids_eq i
  rw [hd, Option.map_some, Option.map_eq_some_iff] at hid
  exact hid

theorem Tells.exists_date (h : diary.Tells supply pool) {a : Arena}
    (ha : pool.arenas[i]? = some a) : ∃ d, diary.dates[i]? = some d ∧ a.id = supply.nth d := by
  have hid := h.ids_eq i
  rw [ha, Option.map_some, eq_comm, Option.map_eq_some_iff] at hid
  obtain ⟨d, hd, hnth⟩ := hid
  exact ⟨d, hd, hnth.symm⟩

theorem Tells.work (h : diary.Tells supply pool) (hwork : command.IsWork) :
    diary.Tells supply (pool.after command) := by
  obtain ⟨fault, hstep⟩ | ⟨k, a, b, reply, ha, hendures, hstep⟩ := Pool.step_work hwork pool
  · rw [Pool.after_of_error hstep]
    exact h
  · rw [Pool.after_of_ok hstep]
    refine ⟨h.supply_eq, fun i => ?_, h.dates_lt⟩
    rw [← h.ids_eq i, Pool.getElem?_withArena ha]
    split_ifs with hki
    · rw [← hki, ha, Option.map_some, Option.map_some, hendures.id_eq]
    · rfl

theorem Tells.size_eq (h : diary.Tells supply pool) :
    pool.arenas.size = diary.dates.length := by
  -- both end where there are no more entries
  have hiff (i : ℕ) : pool.arenas.size ≤ i ↔ diary.dates.length ≤ i := by
    rw [← Array.getElem?_eq_none_iff, ← List.getElem?_eq_none_iff,
      ← Option.map_eq_none_iff (f := Arena.id), h.ids_eq, Option.map_eq_none_iff]
  have := hiff pool.arenas.size
  have := hiff diary.dates.length
  omega

theorem Tells.create (h : diary.Tells supply pool) (reserve : ℕ) :
    (diary.note (.create reserve)).Tells supply (pool.after (.create reserve)) := by
  have hstep := Pool.step_create reserve pool
  have hsupply : pool.supply.take.2 = supply.skip (diary.taken + 1) := by
    rw [h.supply_eq, IdSupply.skip_succ]
  simp only [note]
  split_ifs at hstep ⊢
  · rw [Pool.after_of_ok hstep]
    refine ⟨hsupply, fun i => ?_, fun d hd => ?_⟩
    · change (pool.arenas.push _)[i]?.map Arena.id = _
      rw [Array.getElem?_push, List.getElem?_append, h.size_eq]
      -- the new arena is the last one and has the id that was next
      rcases lt_trichotomy i diary.dates.length with hi | rfl | hi
      · rw [if_neg hi.ne, if_pos hi, h.ids_eq]
      · simp [h.supply_eq, IdSupply.nth, Arena.empty]
      · rw [if_neg hi.ne', if_neg hi.not_gt, h.ids_eq]
        simp [hi.le]
        omega
    · rw [List.mem_append, List.mem_singleton] at hd
      rcases hd with hd | rfl
      · exact (h.dates_lt d hd).trans (Nat.lt_succ_self _)
      · exact Nat.lt_succ_self _
  · rw [Pool.after_of_error hstep]
    exact ⟨hsupply, h.ids_eq, fun d hd => (h.dates_lt d hd).trans (Nat.lt_succ_self _)⟩

theorem Tells.reset (h : diary.Tells supply pool) (i : ℕ) :
    (diary.note (.reset i)).Tells supply (pool.after (.reset i)) := by
  simp only [note]
  split_ifs with hi
  · obtain ⟨a, ha, -⟩ := h.exists_arena (List.getElem?_eq_getElem hi)
    rw [Pool.after_of_ok (Pool.step_reset ha)]
    refine ⟨?_, fun j => ?_, fun d hd => ?_⟩
    · change pool.supply.take.2 = _
      rw [h.supply_eq, IdSupply.skip_succ]
    · rw [Pool.getElem?_withArena (by exact ha), List.getElem?_set]
      split_ifs with hij
      · change some pool.supply.take.1 = some _
        rw [h.supply_eq]
        rfl
      · exact h.ids_eq j
    · rcases List.mem_or_eq_of_mem_set hd with hd | rfl
      · exact (h.dates_lt d hd).trans (Nat.lt_succ_self _)
      · exact Nat.lt_succ_self _
  · have hnone : pool.arenas[i]? = none := by
      rw [Array.getElem?_eq_none_iff, h.size_eq]
      omega
    rwa [Pool.after_of_error (Pool.step_reset_of_none hnone)]

theorem Tells.note (h : diary.Tells supply pool) (command : Command) :
    (diary.note command).Tells supply (pool.after command) := by
  cases command with
  | create reserve => exact h.create reserve
  | reset i => exact h.reset i
  | alloc => exact h.work trivial
  | write => exact h.work trivial
  | copyWithin => exact h.work trivial
  | copyFrom => exact h.work trivial

theorem Tells.run (h : diary.Tells supply pool) (commands : List Command) :
    (commands.foldl Diary.note diary).Tells supply (pool.run commands).2 := by
  induction commands generalizing diary pool with
  | nil => exact h
  | cons command rest ih =>
    rw [Pool.run_snd_cons]
    exact ih (h.note command)

/-- The diary of a run from the start tells the id of every arena. -/
theorem tells_run (supply : IdSupply) (commands : List Command) :
    (of commands).Tells supply (Pool.run commands ⟨supply, #[]⟩).2 :=
  (tells_empty supply).run commands

/-! ### Dates move on -/

theorem Tells.exists_later_note (h : diary.Tells supply pool) (hd : diary.dates[i]? = some d)
    (command : Command) :
    ∃ d', (diary.note command).dates[i]? = some d' ∧ d ≤ d' ∧ (command = .reset i → d < d') := by
  have hlt := h.dates_lt d (List.mem_of_getElem? hd)
  obtain ⟨hi, -⟩ := List.getElem?_eq_some_iff.1 hd
  cases command with
  | create reserve =>
    refine ⟨d, ?_, le_rfl, nofun⟩
    simp only [Diary.note]
    split_ifs
    · rw [List.getElem?_append_left hi, hd]
    · exact hd
  | reset k =>
    simp only [Diary.note]
    rcases eq_or_ne k i with rfl | hki
    · rw [if_pos hi]
      exact ⟨diary.taken, List.getElem?_set_self hi, hlt.le, fun _ => hlt⟩
    · refine ⟨d, ?_, le_rfl, fun hreset => absurd (Command.reset.inj hreset) hki⟩
      split_ifs
      · rw [List.getElem?_set_ne hki, hd]
      · exact hd
  | alloc => exact ⟨d, hd, le_rfl, nofun⟩
  | write => exact ⟨d, hd, le_rfl, nofun⟩
  | copyWithin => exact ⟨d, hd, le_rfl, nofun⟩
  | copyFrom => exact ⟨d, hd, le_rfl, nofun⟩

theorem Tells.exists_later (h : diary.Tells supply pool) (hd : diary.dates[i]? = some d)
    (commands : List Command) :
    ∃ d', (commands.foldl Diary.note diary).dates[i]? = some d' ∧ d ≤ d' ∧
      (.reset i ∈ commands → d < d') := by
  induction commands generalizing diary pool d with
  | nil => exact ⟨d, hd, le_rfl, nofun⟩
  | cons command rest ih =>
    obtain ⟨d', hd', hle, hlt⟩ := h.exists_later_note hd command
    obtain ⟨d'', hd'', hle', hlt'⟩ := ih (h.note command) hd'
    refine ⟨d'', hd'', hle.trans hle', fun hmem => ?_⟩
    rcases List.mem_cons.1 hmem with hreset | hmem
    · exact (hlt hreset.symm).trans_le hle'
    · exact hle.trans_lt (hlt' hmem)

theorem foldl_resets (t d k : ℕ) :
    ((List.replicate (k + 1) (Command.reset 0)).foldl note ⟨t, [d]⟩) = ⟨t + k + 1, [t + k]⟩ := by
  induction k generalizing t d with
  | zero => rfl
  | succ k ih =>
    rw [List.replicate_succ, List.foldl_cons]
    change (List.replicate (k + 1) (Command.reset 0)).foldl note ⟨t + 1, [t]⟩ = _
    rw [ih, Nat.add_right_comm t 1 k]
    rfl

end Diary

namespace Pool

variable {pool pool' : Pool} {i n : ℕ} {a : Arena} {place : Handle}

theorem exists_of_step_alloc (h : step (.alloc i n) pool = .ok (.allocated place) pool') :
    ∃ a, pool.arenas[i]? = some a ∧ place = .make a.id a.nextOffset ∧
      place.offset = a.nextOffset := by
  cases ha : pool.arenas[i]? with
  | none =>
    rw [step, bind_of_error (onArena_of_none ha)] at h
    cases h
  | some a =>
    rw [step_alloc ha] at h
    split_ifs at h with hfits
    simp only [EStateM.Result.ok.injEq, Reply.allocated.injEq] at h
    exact ⟨a, rfl, h.1.symm, by rw [← h.1, Arena.offset_make_nextOffset hfits]⟩

/-- **How long a reset invalidates handles.**  A handle is made in a run, and later its arena is
reset, once or more often.  The handle is then owned, and made again, exactly if the arena took the
id it has now a number of whole rounds after the one that the handle carries, and its offset is one
of the arena once more. -/
theorem invalid_until_period (supply : IdSupply) (before between : List Command)
    (halloc : step (.alloc i n) (run before ⟨supply, #[]⟩).2 = .ok (.allocated place) pool)
    (hreset : .reset i ∈ between) :
    ∃ d d' a, (Diary.of before).dates[i]? = some d ∧
      (Diary.of (before ++ .alloc i n :: between)).dates[i]? = some d' ∧ d < d' ∧
      (run between pool).2.arenas[i]? = some a ∧
      (a.owns place = true ↔ ArenaId.period ∣ d' - d ∧ place.offset < a.size) ∧
      ∀ m later pool', step (.alloc i m) (run between pool).2 = .ok (.allocated later) pool' →
        (later = place ↔ ArenaId.period ∣ d' - d ∧ later.offset = place.offset) := by
  have htells := Diary.tells_run supply before
  obtain ⟨a, ha, hplace, -⟩ := exists_of_step_alloc halloc
  obtain ⟨d, hd, hid⟩ := htells.exists_date ha
  have hpool : pool = after (.alloc i n) (run before ⟨supply, #[]⟩).2 := (after_of_ok halloc).symm
  have htells' := htells.note (.alloc i n)
  rw [← hpool] at htells'
  obtain ⟨d', hd', -, hlt⟩ := htells'.exists_later hd between
  obtain ⟨b, hb, hid'⟩ := (htells'.run between).exists_arena hd'
  -- the handle carries the id of the old date, and the arena has that of the new one
  have hsame : place.arenaId = b.id.val.toNat ↔ ArenaId.period ∣ d' - d := by
    rw [← IdSupply.nth_eq_nth_iff_dvd (hlt hreset).le, ← hid, ← hid', hplace, Handle.arenaId_make]
    exact ⟨fun h => ArenaId.ext_toNat h.symm, fun h => by rw [h]⟩
  refine ⟨d, d', b, hd, ?_, hlt hreset, hb, ?_, fun m later pool' hlater => ?_⟩
  · rw [Diary.of, List.foldl_append, List.foldl_cons]
    exact hd'
  · rw [← hsame, Arena.owns, Bool.and_eq_true, beq_iff_eq, decide_eq_true_eq]
  · obtain ⟨c, hc, hmade, -⟩ := exists_of_step_alloc hlater
    rw [hb, Option.some.injEq] at hc
    have hlaterid : later.arenaId = b.id.val.toNat := by rw [hmade, Handle.arenaId_make, hc]
    rw [← hsame, ← hlaterid]
    exact ⟨fun h => by rw [h]; exact ⟨rfl, rfl⟩, fun h => Handle.ext_parts h.1.symm h.2⟩

theorem exists_arena_run_resets (ha : pool.arenas[i]? = some a) (k : ℕ) :
    ∃ b, (run (List.replicate (k + 1) (.reset i)) pool).2.arenas[i]? = some b ∧ b.size = 0 := by
  induction k generalizing pool a with
  | zero =>
    refine ⟨_, ?_, Arena.size_reset a pool.supply⟩
    rw [List.replicate_one, run_snd_cons, after_of_ok (step_reset ha)]
    exact (alters_withArena (by exact ha) _).arena_eq
  | succ k ih =>
    rw [List.replicate_succ, run_snd_cons, after_of_ok (step_reset ha)]
    exact ih (alters_withArena (by exact ha) _).arena_eq

/-- After 65535 resets an arena makes the handle again that it made before, and owns it. -/
theorem invalid_until_period_one_round :
    ∃ place pool pool' a,
      step (.alloc 0 8) (run [.create 0] ⟨{}, #[]⟩).2 = .ok (.allocated place) pool ∧
      step (.alloc 0 8) (run (List.replicate 65535 (.reset 0)) pool).2 =
        .ok (.allocated place) pool' ∧
      pool'.arenas[0]? = some a ∧ a.owns place = true := by
  -- as many resets cannot be evaluated, so their number is kept as a variable
  obtain ⟨k, hk⟩ : ∃ k, 65535 = k + 1 := ⟨65534, rfl⟩
  rw [hk]
  have hcreated : (run [.create 0] ⟨{}, #[]⟩).2.arenas[0]? =
      some (.empty (IdSupply.take {}).1 0) := by
    rw [run_snd_cons, after_of_ok (step_create 0 _)]
    rfl
  have hfits (b : Arena) (hb : b.size = 0) : b.nextOffset + 8 < Handle.offsetSpan := by
    rw [Arena.nextOffset, hb]
    decide
  have halloc := step_alloc hcreated 8
  rw [dif_pos (hfits _ rfl)] at halloc
  obtain ⟨b, hb, hsize⟩ := exists_arena_run_resets (alters_withArena hcreated _).arena_eq k
  have halloc' := step_alloc hb 8
  rw [dif_pos (hfits b hsize)] at halloc'
  obtain ⟨d, d', -, hd, hd', -, -, -, hagain⟩ := invalid_until_period {} [.create 0] _ halloc
    (List.mem_replicate.2 ⟨k.succ_ne_zero, rfl⟩ :
      Command.reset 0 ∈ List.replicate (k + 1) (Command.reset 0))
  have hdates : Diary.of ([.create 0] ++ .alloc 0 8 :: List.replicate (k + 1) (.reset 0)) =
      ⟨1 + k + 1, [1 + k]⟩ := Diary.foldl_resets 1 0 k
  have hround : d' - d = ArenaId.period := by
    rw [hdates] at hd'
    cases hd
    cases hd'
    simp only [ArenaId.period]
    omega
  have hoffset : (Handle.make b.id b.nextOffset).offset = (Handle.make (IdSupply.take {}).1
      (Arena.empty (IdSupply.take {}).1 0).nextOffset).offset := by
    rw [Arena.offset_make_nextOffset (hfits b hsize), Arena.nextOffset, hsize]
    exact (Arena.offset_make_nextOffset (hfits (.empty _ 0) rfl)).symm
  have hplace := (hagain 8 _ _ halloc').2 ⟨hround ▸ dvd_rfl, hoffset⟩
  refine ⟨_, _, _, _, halloc, hplace ▸ halloc', (alters_withArena hb _).arena_eq, ?_⟩
  rw [← hplace]
  obtain ⟨c, hc, -, howns, -⟩ := (handsOut_withArena hb (hfits b hsize)).lasts [] (by simp)
  rw [run, (alters_withArena hb _).arena_eq, Option.some.injEq] at hc
  rw [hc]
  exact howns (by decide)

end Pool

end TimeWeighted
