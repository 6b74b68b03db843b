import Mathlib
import TimeWeighted.Arena.Pool
import TimeWeighted.Proofs.Arena.Regions

/-!
# The memory law

What users of several arenas rely on, whatever handles they come with: which commands are carried
out, which bytes each of them changes, and that a command that faults changes no arena at all.  A
region that was handed out stays owned, and apart from all regions handed out after it, through any
commands but a reset of its arena.

* `Arena.Allows` : the accesses that are carried out.
* `Arena.Puts`, `Pool.Puts` : what a write or a copy does to an arena, and to the pool it is in.
* `Pool.step_work`, `Pool.step_create`, `Pool.step_reset` : all that a command can do to a pool.
* `Pool.endures_run` : without a reset an arena keeps its id and its bytes.
* `Pool.Lawful`, `Pool.memory_law` : **the memory law, for every arena of every pool.**
-/

namespace TimeWeighted

namespace Arena

variable {a b c source : Arena} {p q : Handle} {n stop : ℕ} {chunk : ByteArray}

/-! ### Accesses -/

/-- The access to the `n` bytes from `p` on is carried out: the handle is owned, unless no bytes
are asked for, and even then the end lies within the bytes allocated. -/
def Allows (a : Arena) (p : Handle) (n : ℕ) : Prop :=
  (0 < n → a.owns p = true) ∧ p.offset + n ≤ a.size

instance : Decidable (a.Allows p n) :=
  inferInstanceAs (Decidable (_ ∧ _))

/-- Arena `b` is arena `a` with `chunk` in place of the bytes from `offset` on. -/
structure Receives (a b : Arena) (offset : ℕ) (chunk : ByteArray) : Prop where
  /-- No reset has come between. -/
  id_eq : b.id = a.id
  /-- The bytes before and behind are those of `a`. -/
  bytes_eq : b.bytes =
    a.bytes.extract 0 offset ++ chunk ++ a.bytes.extract (offset + chunk.size) a.size

/-- Arena `b` has the id of arena `a` and at least its bytes. -/
structure Endures (a b : Arena) : Prop where
  /-- No reset has come between. -/
  id_eq : b.id = a.id
  /-- No bytes are given back. -/
  size_le : a.size ≤ b.size

theorem Endures.refl (a : Arena) : a.Endures a :=
  ⟨rfl, le_rfl⟩

theorem Endures.trans (hab : a.Endures b) (hbc : b.Endures c) : a.Endures c :=
  ⟨hbc.id_eq.trans hab.id_eq, hab.size_le.trans hbc.size_le⟩

theorem Endures.owns (h : a.Endures b) (hp : a.owns p = true) : b.owns p = true := by
  have hle := h.size_le
  simp only [Arena.owns, h.id_eq, Bool.and_eq_true, decide_eq_true_eq] at hp ⊢
  exact ⟨hp.1, by omega⟩

theorem Allows.checkAccess_eq (h : a.Allows p n) : a.checkAccess p n = .ok () := by
  obtain ⟨howns, hle⟩ := h
  rw [checkAccess, if_neg, if_neg (by omega)]
  rcases Nat.eq_zero_or_pos n with rfl | hpos
  · simp
  · simp [howns hpos]

theorem exists_of_not_allows (h : ¬a.Allows p n) : ∃ fault, a.checkAccess p n = .error fault := by
  rw [checkAccess]
  split_ifs with hforeign hend
  · exact ⟨_, rfl⟩
  · exact ⟨_, rfl⟩
  · refine absurd ⟨fun hpos => ?_, by omega⟩ h
    have hpos' : (n != 0) = true := by simpa using hpos.ne'
    simpa [hpos'] using hforeign

theorem read_of_allows (h : a.Allows p n) :
    a.read p n = .ok (a.bytes.extract p.offset (p.offset + n)) := by
  rw [read, h.checkAccess_eq]
  rfl

theorem read_of_not_allows (h : ¬a.Allows p n) : ∃ fault, a.read p n = .error fault := by
  obtain ⟨fault, hfault⟩ := exists_of_not_allows h
  exact ⟨fault, by rw [read, hfault]; rfl⟩

theorem size_extract_of_allows (h : source.Allows p n) :
    (source.bytes.extract p.offset (p.offset + n)).size = n := by
  have hle : p.offset + n ≤ source.bytes.size := h.2
  rw [ByteArray.size_extract]
  omega

/-- A change of the arena is carried out exactly if it is `allowed`, and then it puts `chunk` in
place of the bytes from `offset` on. -/
def Puts (a : Arena) (allowed : Prop) [Decidable allowed] (offset : ℕ) (chunk : ByteArray)
    (result : EStateM.Result Fault Arena Unit) : Prop :=
  if allowed then ∃ b, result = .ok () b ∧ a.Receives b offset chunk ∧ a.Endures b
  else ∃ fault, result = .error fault a

theorem puts_write (p : Handle) (chunk : ByteArray) (a : Arena) :
    a.Puts (a.Allows p chunk.size) p.offset chunk (write p chunk a) := by
  rw [Puts]
  split_ifs with h
  · have hfits : p.offset + chunk.size ≤ a.bytes.size := h.2
    refine ⟨a.overwrite p.offset chunk hfits, ?_, ⟨rfl, bytes_overwrite hfits⟩, rfl,
      (edited_overwrite hfits).size_eq.ge⟩
    simp [write, h.checkAccess_eq, hfits]
  · obtain ⟨fault, hfault⟩ := exists_of_not_allows h
    refine ⟨fault, ?_⟩
    rw [write, get_bind_apply, hfault]
    exact bind_of_error rfl

theorem puts_copyFrom (source : Arena) (p q : Handle) (n : ℕ) (a : Arena) :
    a.Puts (source.Allows p n ∧ a.Allows q n) q.offset
      (source.bytes.extract p.offset (p.offset + n)) (copyFrom source p q n a) := by
  by_cases hp : source.Allows p n
  · -- what is read has `n` bytes, and the rest is a write
    have hwrite := puts_write q (source.bytes.extract p.offset (p.offset + n)) a
    have hrun : copyFrom source p q n a =
        write q (source.bytes.extract p.offset (p.offset + n)) a := by
      simp [copyFrom, read_of_allows hp]
    rw [hrun]
    simpa [Puts, hp, size_extract_of_allows hp] using hwrite
  · obtain ⟨fault, hfault⟩ := read_of_not_allows hp
    rw [Puts, if_neg fun h => hp h.1, copyFrom, hfault]
    exact ⟨fault, bind_of_error rfl⟩

/-- Copying inside an arena reads all bytes before it writes the first. -/
theorem copyWithin_eq (p q : Handle) (n : ℕ) (a : Arena) :
    copyWithin p q n a = copyFrom a p q n a :=
  rfl

/-! ### Allocations -/

theorem bytes_growTo (h : stop < Handle.offsetSpan) :
    (a.growTo stop h).bytes = a.bytes ++ zeros (stop - a.size) :=
  rfl

theorem extract_zeros {i j : ℕ} (hj : j ≤ n) : (zeros n).extract i j = zeros (j - i) := by
  rw [ByteArray.ext_iff, ByteArray.data_extract]
  simp only [zeros, Array.extract_replicate, Nat.min_eq_left hj]

theorem alloc_apply (n : ℕ) (a : Arena) :
    alloc n a = if h : a.nextOffset + n < Handle.offsetSpan then
        .ok (.make a.id a.nextOffset) (a.growTo (a.nextOffset + n) h)
      else .error (if a.nextOffset + n < wordSpan then .arenaExhausted else .lengthOverflow) a := by
  by_cases hfits : a.nextOffset + n < Handle.offsetSpan
  · have hword : a.nextOffset + n < wordSpan := hfits.trans Handle.offsetSpan_lt_wordSpan
    simp [alloc, hword, hfits]
  · by_cases hword : a.nextOffset + n < wordSpan
    · simp [alloc, hword, hfits]
    · rw [dif_neg hfits, if_neg hword, alloc, get_bind_apply, checkedLength, if_neg hword]
      exact bind_of_error rfl

theorem offset_make_nextOffset (h : a.nextOffset + n < Handle.offsetSpan) :
    (Handle.make a.id a.nextOffset).offset = a.nextOffset := by
  rw [Handle.offset_make, Nat.mod_eq_of_lt (by omega)]

theorem extract_growTo (h : a.nextOffset + n < Handle.offsetSpan) :
    (a.growTo _ h).bytes.extract a.nextOffset (a.nextOffset + n) = zeros n := by
  obtain ⟨hle, -, -⟩ := a.nextOffset_spec
  -- the region begins behind the old bytes, so that all of it lies in the zeros that were added
  rw [bytes_growTo, extract_append_of_ge (by exact hle)]
  change (zeros (a.nextOffset + n - a.size)).extract (a.nextOffset - a.size)
    (a.nextOffset + n - a.size) = zeros n
  rw [extract_zeros le_rfl]
  congr 1
  omega

@[simp] theorem size_reset (a : Arena) (supply : IdSupply) : (a.reset.run supply).1.size = 0 := by
  change (a.bytes.extract 0 0).size = 0
  simp

end Arena

namespace Pool

variable {pool pool' : Pool} {i j n : ℕ} {a b : Arena} {command : Command}

/-! ### One command -/

/-- Of all arenas only the one at `i` changes; it becomes `b`. -/
structure Alters (pool pool' : Pool) (i : ℕ) (b : Arena) : Prop where
  /-- The arena at `i` afterwards. -/
  arena_eq : pool'.arenas[i]? = some b
  /-- All other arenas stay as they are, and none is added. -/
  others_eq : ∀ j, j ≠ i → pool'.arenas[j]? = pool.arenas[j]?

/-- The pool with the arena at `i` replaced. -/
def withArena (pool : Pool) (i : ℕ) (b : Arena) : Pool :=
  { pool with arenas := pool.arenas.setIfInBounds i b }

theorem getElem?_withArena (ha : pool.arenas[i]? = some a) (b : Arena) (j : ℕ) :
    (pool.withArena i b).arenas[j]? = if i = j then some b else pool.arenas[j]? := by
  obtain ⟨hi, -⟩ := Array.getElem?_eq_some_iff.1 ha
  rw [withArena, Array.getElem?_setIfInBounds, if_pos hi]

theorem withArena_self (ha : pool.arenas[i]? = some a) : pool.withArena i a = pool := by
  have harenas : pool.arenas.setIfInBounds i a = pool.arenas := by
    refine Array.ext_getElem? fun j => ?_
    have hget := getElem?_withArena ha a j
    rw [withArena] at hget
    rw [hget]
    split_ifs with hij
    · rw [← hij, ha]
    · rfl
  rw [withArena, harenas]

theorem alters_withArena (ha : pool.arenas[i]? = some a) (b : Arena) :
    pool.Alters (pool.withArena i b) i b where
  arena_eq := by rw [getElem?_withArena ha, if_pos rfl]
  others_eq j hj := by rw [getElem?_withArena ha, if_neg (Ne.symm hj)]

section

variable {α : Type} {operation : ArenaM α} {x : α} {fault : Fault}

theorem onArena_of_ok (ha : pool.arenas[i]? = some a) (h : operation a = .ok x b) :
    onArena i operation pool = .ok x (pool.withArena i b) := by
  simp only [onArena, ha, h, withArena]

theorem onArena_of_error (ha : pool.arenas[i]? = some a) (h : operation a = .error fault a) :
    onArena i operation pool = .error fault pool := by
  simp only [onArena, ha, h]
  exact congrArg _ (withArena_self ha)

theorem onArena_of_none (ha : pool.arenas[i]? = none) :
    onArena i operation pool = .error .outOfBounds pool := by
  simp only [onArena, ha]

theorem arena_of_some (ha : pool.arenas[i]? = some a) : arena i pool = .ok a pool := by
  rw [arena, get_bind_apply, ha]
  rfl

theorem arena_of_none (ha : pool.arenas[i]? = none) : arena i pool = .error .outOfBounds pool := by
  rw [arena, get_bind_apply, ha]
  rfl

end

/-- The pool after a command, whether it was carried out or not. -/
def after (command : Command) (pool : Pool) : Pool :=
  match step command pool with
  | .ok _ pool => pool
  | .error _ pool => pool

theorem after_of_ok {reply : Reply} (h : step command pool = .ok reply pool') :
    after command pool = pool' := by
  rw [after, h]

theorem after_of_error {fault : Fault} (h : step command pool = .error fault pool') :
    after command pool = pool' := by
  rw [after, h]

theorem run_snd (commands : List Command) (pool : Pool) :
    (run commands pool).2 = commands.foldl (fun pool command => after command pool) pool := by
  induction commands generalizing pool with
  | nil => rfl
  | cons command rest ih =>
    rw [List.foldl_cons, ← ih, run, after]
    cases step command pool <;> rfl

theorem run_snd_cons (command : Command) (rest : List Command) (pool : Pool) :
    (run (command :: rest) pool).2 = (run rest (after command pool)).2 := by
  rw [run_snd, run_snd, List.foldl_cons]

theorem step_alloc (ha : pool.arenas[i]? = some a) (n : ℕ) :
    step (.alloc i n) pool = if h : a.nextOffset + n < Handle.offsetSpan then
        .ok (.allocated (.make a.id a.nextOffset)) (pool.withArena i (a.growTo _ h))
      else
        .error (if a.nextOffset + n < wordSpan then .arenaExhausted else .lengthOverflow) pool := by
  have halloc := Arena.alloc_apply n a
  rw [step]
  split_ifs at halloc ⊢ with h
  · rw [bind_of_ok (onArena_of_ok ha halloc)]
    rfl
  all_goals
    rw [bind_of_error (onArena_of_error ha halloc)]

/-- The arena `a` at `i` puts `chunk` in place of its bytes from `offset` on, exactly if that is
`allowed`. -/
def Puts (pool : Pool) (i : ℕ) (a : Arena) (allowed : Prop) [Decidable allowed] (offset : ℕ)
    (chunk : ByteArray) (result : EStateM.Result Fault Pool Reply) : Prop :=
  if allowed then ∃ b, result = .ok .done (pool.withArena i b) ∧ a.Receives b offset chunk ∧
    a.Endures b
  else ∃ fault, result = .error fault pool

section

variable {allowed : Prop} [Decidable allowed] {offset : ℕ} {chunk : ByteArray}

theorem puts_onArena {operation : ArenaM Unit} (ha : pool.arenas[i]? = some a)
    (h : a.Puts allowed offset chunk (operation a)) :
    pool.Puts i a allowed offset chunk ((do
      onArena i operation
      return .done : EStateM Fault Pool Reply) pool) := by
  rw [Arena.Puts] at h
  rw [Puts]
  split_ifs at h ⊢
  · obtain ⟨b, hb, hreceives⟩ := h
    exact ⟨b, by rw [bind_of_ok (onArena_of_ok ha hb)]; rfl, hreceives⟩
  · obtain ⟨fault, hfault⟩ := h
    exact ⟨fault, bind_of_error (onArena_of_error ha hfault)⟩

/-- What happens to the arena happens to the pool, whose other arenas stay as they are. -/
theorem Puts.alters {result : EStateM.Result Fault Pool Reply}
    (h : pool.Puts i a allowed offset chunk result) (ha : pool.arenas[i]? = some a) :
    if allowed then ∃ b pool', result = .ok .done pool' ∧ pool.Alters pool' i b ∧
      a.Receives b offset chunk
    else ∃ fault, result = .error fault pool := by
  rw [Puts] at h
  split_ifs at h ⊢
  · obtain ⟨b, hb, hreceives, -⟩ := h
    exact ⟨b, _, hb, alters_withArena ha b, hreceives⟩
  · exact h

end

theorem puts_write (ha : pool.arenas[i]? = some a) (target : Handle) (chunk : ByteArray) :
    pool.Puts i a (a.Allows target chunk.size) target.offset chunk
      (step (.write i target chunk) pool) :=
  puts_onArena ha (Arena.puts_write target chunk a)

theorem puts_copyWithin (ha : pool.arenas[i]? = some a) (source target : Handle) (len : ℕ) :
    pool.Puts i a (a.Allows source len ∧ a.Allows target len) target.offset
      (a.bytes.extract source.offset (source.offset + len))
      (step (.copyWithin i source target len) pool) :=
  puts_onArena ha (Arena.copyWithin_eq source target len a ▸ Arena.puts_copyFrom ..)

theorem puts_copyFrom {other : Arena} (ha : pool.arenas[i]? = some a)
    (hother : pool.arenas[j]? = some other) (source target : Handle) (len : ℕ) :
    pool.Puts i a (other.Allows source len ∧ a.Allows target len) target.offset
      (other.bytes.extract source.offset (source.offset + len))
      (step (.copyFrom i j source target len) pool) := by
  rw [step, bind_of_ok (arena_of_some hother)]
  exact puts_onArena ha (Arena.puts_copyFrom ..)

/-! ### Any command -/

/-- The command works inside one arena: it takes no id. -/
def Command.IsWork : Command → Prop
  | .alloc .. | .write .. | .copyWithin .. | .copyFrom .. => True
  | .create _ | .reset _ => False

theorem endures_growTo (h : a.nextOffset + n < Handle.offsetSpan) :
    a.Endures (a.growTo (a.nextOffset + n) h) := by
  obtain ⟨hle, -, -⟩ := a.nextOffset_spec
  have hstop : a.size ≤ a.nextOffset + n := by omega
  obtain ⟨hextends, -⟩ := Arena.extends_growTo hstop h
  exact ⟨hextends.id_eq, hextends.size_le⟩

/-- What work inside an arena may end in: a fault that leaves the pool as it is, or an arena that
has the id of the old one and at least its bytes. -/
def Works (pool : Pool) (result : EStateM.Result Fault Pool Reply) : Prop :=
  (∃ fault, result = .error fault pool) ∨
    ∃ i a b reply, pool.arenas[i]? = some a ∧ a.Endures b ∧
      result = .ok reply (pool.withArena i b)

theorem Puts.works {allowed : Prop} [Decidable allowed] {offset : ℕ} {chunk : ByteArray}
    {result : EStateM.Result Fault Pool Reply} (h : pool.Puts i a allowed offset chunk result)
    (ha : pool.arenas[i]? = some a) : pool.Works result := by
  rw [Puts] at h
  split_ifs at h
  · obtain ⟨b, hb, -, hendures⟩ := h
    exact .inr ⟨i, a, b, _, ha, hendures, hb⟩
  · exact .inl h

/-- **Work inside an arena** leaves all arenas their ids and their bytes. -/
theorem step_work (h : command.IsWork) (pool : Pool) : pool.Works (step command pool) := by
  cases command with
  | create reserve => exact h.elim
  | reset i => exact h.elim
  | alloc i n =>
    cases ha : pool.arenas[i]? with
    | none => exact .inl ⟨_, bind_of_error (onArena_of_none ha)⟩
    | some a =>
      rw [step_alloc ha n]
      split_ifs with hfits
      · exact .inr ⟨i, a, _, _, ha, endures_growTo hfits, rfl⟩
      all_goals exact .inl ⟨_, rfl⟩
  | write i target chunk =>
    cases ha : pool.arenas[i]? with
    | none => exact .inl ⟨_, bind_of_error (onArena_of_none ha)⟩
    | some a => exact (puts_write ha target chunk).works ha
  | copyWithin i source target len =>
    cases ha : pool.arenas[i]? with
    | none => exact .inl ⟨_, bind_of_error (onArena_of_none ha)⟩
    | some a => exact (puts_copyWithin ha source target len).works ha
  | copyFrom i j source target len =>
    cases hother : pool.arenas[j]? with
    | none => exact .inl ⟨_, bind_of_error (arena_of_none hother)⟩
    | some other =>
      cases ha : pool.arenas[i]? with
      | none =>
        refine .inl ⟨.outOfBounds, ?_⟩
        rw [step, bind_of_ok (arena_of_some hother)]
        exact bind_of_error (onArena_of_none ha)
      | some a => exact (puts_copyFrom ha hother source target len).works ha

theorem step_create (reserve : ℕ) (pool : Pool) :
    step (.create reserve) pool = if reserve ≤ Arena.maxReservation then
        .ok (.created pool.arenas.size)
          ⟨pool.supply.take.2, pool.arenas.push (.empty pool.supply.take.1 reserve)⟩
      else .error .reservationTooLarge { pool with supply := pool.supply.take.2 } := by
  have hcreate := Arena.create_apply reserve pool.supply
  rw [step]
  split_ifs at hcreate ⊢
  · exact bind_of_ok (by rw [create, hcreate])
  · exact bind_of_error (by rw [create, hcreate])

theorem step_reset (ha : pool.arenas[i]? = some a) :
    step (.reset i) pool = .ok .done ({ pool with supply := pool.supply.take.2 }.withArena i
      (a.reset.run pool.supply).1) := by
  rw [step]
  refine bind_of_ok (f := fun _ => pure Reply.done) (a := ⟨⟩) ?_
  rw [reset]
  exact bind_of_ok (arena_of_some ha)

theorem step_reset_of_none (ha : pool.arenas[i]? = none) :
    step (.reset i) pool = .error .outOfBounds pool := by
  rw [step]
  refine bind_of_error ?_
  rw [reset]
  exact bind_of_error (arena_of_none ha)

/-- **A command that faults leaves all arenas as they are.**  It may have used up an id. -/
theorem arenas_of_error {fault : Fault} (h : step command pool = .error fault pool') :
    pool'.arenas = pool.arenas := by
  -- commands that take ids go first; all others leave even the supply alone
  have hwork (hcommand : command.IsWork) : pool'.arenas = pool.arenas := by
    obtain ⟨fault', hstep⟩ | ⟨i, a, b, reply, -, -, hstep⟩ := step_work hcommand pool
    · rw [hstep] at h
      cases h
      rfl
    · rw [hstep] at h
      cases h
  cases command with
  | create reserve =>
    rw [step_create] at h
    split_ifs at h
    cases h
    rfl
  | reset i =>
    cases ha : pool.arenas[i]? with
    | none =>
      rw [step_reset_of_none ha] at h
      cases h
      rfl
    | some a =>
      rw [step_reset ha] at h
      cases h
  | alloc => exact hwork trivial
  | write => exact hwork trivial
  | copyWithin => exact hwork trivial
  | copyFrom => exact hwork trivial

/-! ### Commands without a reset -/

theorem endures_after (hcommand : command ≠ .reset i) (ha : pool.arenas[i]? = some a) :
    ∃ b, (after command pool).arenas[i]? = some b ∧ a.Endures b := by
  -- work may be inside this arena or another one; of what takes ids only a reset reaches it
  have hwork (hwork : command.IsWork) :
      ∃ b, (after command pool).arenas[i]? = some b ∧ a.Endures b := by
    obtain ⟨fault, hstep⟩ | ⟨k, old, new, reply, hk, hendures, hstep⟩ := step_work hwork pool
    · exact ⟨a, by rw [after_of_error hstep, ha], .refl a⟩
    · rw [after_of_ok hstep, getElem?_withArena hk]
      split_ifs with hki
      · rw [hki, ha, Option.some.injEq] at hk
        exact ⟨new, rfl, hk ▸ hendures⟩
      · exact ⟨a, ha, .refl a⟩
  cases command with
  | create reserve =>
    have hstep := step_create reserve pool
    obtain ⟨hi, -⟩ := Array.getElem?_eq_some_iff.1 ha
    split_ifs at hstep
    · refine ⟨a, ?_, .refl a⟩
      rw [after_of_ok hstep]
      change (pool.arenas.push _)[i]? = some a
      rw [Array.getElem?_push_lt hi, ← ha, Array.getElem?_eq_getElem hi]
    · exact ⟨a, by rw [after_of_error hstep, ha], .refl a⟩
  | reset k =>
    have hki : k ≠ i := fun h => hcommand (h ▸ rfl)
    refine ⟨a, ?_, .refl a⟩
    cases hk : pool.arenas[k]? with
    | none => rw [after_of_error (step_reset_of_none hk), ha]
    | some old =>
      rw [after_of_ok (step_reset hk), getElem?_withArena (by exact hk), if_neg hki, ha]
  | alloc => exact hwork trivial
  | write => exact hwork trivial
  | copyWithin => exact hwork trivial
  | copyFrom => exact hwork trivial

/-- **Commands without a reset of the arena at `i` leave it its id and its bytes.** -/
theorem endures_run (commands : List Command) (hcommands : .reset i ∉ commands)
    (ha : pool.arenas[i]? = some a) :
    ∃ b, (run commands pool).2.arenas[i]? = some b ∧ a.Endures b := by
  induction commands generalizing pool a with
  | nil => exact ⟨a, ha, .refl a⟩
  | cons command rest ih =>
    rw [List.mem_cons, not_or] at hcommands
    obtain ⟨b, hb, hab⟩ := endures_after (Ne.symm hcommands.1) ha
    obtain ⟨c, hc, hbc⟩ := ih hcommands.2 hb
    exact ⟨c, by rw [run_snd_cons, hc], hab.trans hbc⟩

/-! ### The law -/

/-- The arena `a` at `i` hands out the `n` bytes from `place` on, which turns `pool` into `pool'`.
-/
structure HandsOut (pool : Pool) (i : ℕ) (a : Arena) (n : ℕ) (place : Handle) (pool' : Pool) :
    Prop where
  /-- The region starts at a multiple of eight. -/
  aligned : place.offset % 8 = 0
  /-- All bytes handed out since the last reset lie before it. -/
  size_le : a.size ≤ place.offset
  /-- The bytes before are as they were, those of the region are zero, and no other arena
  changes. -/
  grown : ∃ b, pool.Alters pool' i b ∧ b.id = a.id ∧ b.size = place.offset + n ∧
    b.bytes.extract 0 a.size = a.bytes ∧
    b.bytes.extract place.offset (place.offset + n) = Arena.zeros n
  /-- Until the arena is reset, the region belongs to it and is owned, and whatever it hands out
  lies behind the region. -/
  lasts : ∀ commands, .reset i ∉ commands →
    ∃ c, (run commands pool').2.arenas[i]? = some c ∧ c.Covers place n ∧
      (0 < n → c.owns place = true) ∧
      ∀ m later pool'', step (.alloc i m) (run commands pool').2 = .ok (.allocated later) pool'' →
        place.offset + n ≤ later.offset

/-- The memory law for the arena `a` at `i`. -/
structure Lawful (pool : Pool) (i : ℕ) (a : Arena) : Prop where
  /-- An allocation is carried out exactly if it ends below the last offset, counted from the next
  multiple of eight on. -/
  alloc : ∀ n, if a.nextOffset + n ≤ 0xffffffffffff then
      ∃ place pool', step (.alloc i n) pool = .ok (.allocated place) pool' ∧
        place.offset = a.nextOffset ∧ pool.HandsOut i a n place pool'
    else step (.alloc i n) pool =
      .error (if a.nextOffset + n < wordSpan then .arenaExhausted else .lengthOverflow) pool
  /-- A read is carried out exactly if it is allowed. -/
  read : ∀ source len, if a.Allows source len then
      a.read source len = .ok (a.bytes.extract source.offset (source.offset + len))
    else ∃ fault, a.read source len = .error fault
  /-- A write is carried out exactly if it is allowed. -/
  write : ∀ target chunk, if a.Allows target chunk.size then
      ∃ b pool', step (.write i target chunk) pool = .ok .done pool' ∧ pool.Alters pool' i b ∧
        a.Receives b target.offset chunk
    else ∃ fault, step (.write i target chunk) pool = .error fault pool
  /-- A copy inside the arena brings the bytes that the source held before. -/
  copyWithin : ∀ source target len, if a.Allows source len ∧ a.Allows target len then
      ∃ b pool', step (.copyWithin i source target len) pool = .ok .done pool' ∧
        pool.Alters pool' i b ∧
        a.Receives b target.offset (a.bytes.extract source.offset (source.offset + len))
    else ∃ fault, step (.copyWithin i source target len) pool = .error fault pool
  /-- So does a copy from any arena of the pool. -/
  copyFrom : ∀ j other, pool.arenas[j]? = some other → ∀ source target len,
    if other.Allows source len ∧ a.Allows target len then
      ∃ b pool', step (.copyFrom i j source target len) pool = .ok .done pool' ∧
        pool.Alters pool' i b ∧
        a.Receives b target.offset (other.bytes.extract source.offset (source.offset + len))
    else ∃ fault, step (.copyFrom i j source target len) pool = .error fault pool
  /-- A reset is always carried out and gives all bytes of the arena back. -/
  reset : ∃ b pool', step (.reset i) pool = .ok .done pool' ∧ pool.Alters pool' i b ∧ b.size = 0

theorem lasts_withArena (ha : pool.arenas[i]? = some a)
    (h : a.nextOffset + n < Handle.offsetSpan) (commands : List Command)
    (hcommands : .reset i ∉ commands) :
    ∃ c, (run commands (pool.withArena i (a.growTo _ h))).2.arenas[i]? = some c ∧
      c.Covers (.make a.id a.nextOffset) n := by
  obtain ⟨c, hc, hendures⟩ := endures_run commands hcommands
    (alters_withArena ha (a.growTo _ h)).arena_eq
  obtain ⟨hle, -, -⟩ := a.nextOffset_spec
  obtain ⟨-, hsize⟩ := Arena.extends_growTo (hle.trans (Nat.le_add_right _ n)) h
  refine ⟨c, hc, ?_, ?_⟩
  · rw [Handle.arenaId_make, hendures.id_eq]
    rfl
  · rw [Arena.offset_make_nextOffset h, ← hsize]
    exact hendures.size_le

theorem handsOut_withArena (ha : pool.arenas[i]? = some a)
    (h : a.nextOffset + n < Handle.offsetSpan) :
    pool.HandsOut i a n (.make a.id a.nextOffset) (pool.withArena i (a.growTo _ h)) := by
  obtain ⟨hle, -, haligned⟩ := a.nextOffset_spec
  obtain ⟨hextends, hsize⟩ := Arena.extends_growTo (hle.trans (Nat.le_add_right _ n)) h
  have hoffset := Arena.offset_make_nextOffset h
  refine ⟨?_, ?_, ⟨_, alters_withArena ha _, hextends.id_eq, ?_, ?_, ?_⟩, ?_⟩
  · rw [hoffset]
    exact haligned
  · rw [hoffset]
    exact hle
  · rw [hsize, hoffset]
  · rw [hextends.extract_eq 0 a.size le_rfl]
    exact ByteArray.extract_zero_size
  · rw [hoffset]
    exact Arena.extract_growTo h
  · intro commands hcommands
    obtain ⟨c, hc, hcovers⟩ := lasts_withArena ha h commands hcommands
    refine ⟨c, hc, hcovers, fun hpos => ?_, fun m later pool'' hlater => ?_⟩
    -- a region without bytes may start at the end of all bytes, where nothing is owned
    · have hend := hcovers.le_size
      simp only [Arena.owns, hcovers.id_eq, beq_self_eq_true, Bool.true_and, decide_eq_true_eq]
      omega
    · obtain ⟨hnext, -, -⟩ := c.nextOffset_spec
      rw [step_alloc hc] at hlater
      split_ifs at hlater with hfits
      simp only [EStateM.Result.ok.injEq, Reply.allocated.injEq] at hlater
      rw [← hlater.1, Arena.offset_make_nextOffset hfits]
      exact hcovers.le_size.trans hnext

/-- **The memory law.**  Whatever pool a run has led to: a command that faults leaves all its
arenas as they were, and each arena hands out and changes its bytes as `Lawful` says. -/
theorem memory_law (pool : Pool) :
    (∀ command fault pool', step command pool = .error fault pool' →
      pool'.arenas = pool.arenas) ∧
    ∀ i a, pool.arenas[i]? = some a → pool.Lawful i a := by
  refine ⟨fun command fault pool' => arenas_of_error, fun i a ha => ⟨fun n => ?_, fun p n => ?_,
    fun q chunk => (puts_write ha q chunk).alters ha,
    fun p q n => (puts_copyWithin ha p q n).alters ha,
    fun j other hother p q n => (puts_copyFrom ha hother p q n).alters ha, ?_⟩⟩
  · have hstep := step_alloc ha n
    by_cases h : a.nextOffset + n < Handle.offsetSpan
    · rw [dif_pos h] at hstep
      rw [if_pos (Nat.le_of_lt_succ h)]
      exact ⟨_, _, hstep, Arena.offset_make_nextOffset h, handsOut_withArena ha h⟩
    · rw [dif_neg h] at hstep
      rwa [if_neg fun hle => h (Nat.lt_succ_of_le hle)]
  · split_ifs with h
    · exact Arena.read_of_allows h
    · exact Arena.read_of_not_allows h
  · refine ⟨_, _, step_reset ha, ⟨?_, fun j hj => ?_⟩, Arena.size_reset a pool.supply⟩
    · rw [getElem?_withArena (by exact ha), if_pos rfl]
    · rw [getElem?_withArena (by exact ha), if_neg (Ne.symm hj)]

/-- Two arenas with bytes.  Six bytes of the first are copied onto the place two bytes further on,
which they overlap; the first refuses a handle of the second; and after a reset it hands out the
same place again, with zeros. -/
theorem memory_law_two :
    let a : Arena := ⟨⟨1, by decide⟩, ⟨#[1, 2, 3, 4, 5, 6, 7, 8, 9, 10]⟩, by decide⟩
    let b : Arena := ⟨⟨2, by decide⟩, ⟨#[20, 21, 22, 23]⟩, by decide⟩
    let pool : Pool := ⟨⟨3⟩, #[a, b]⟩
    let overlapping : Command := .copyWithin 0 (.make a.id 0) (.make a.id 2) 6
    let foreign : Command := .write 0 (.make b.id 0) ⟨#[7]⟩
    (∃ c pool', step overlapping pool = .ok .done pool' ∧ pool'.arenas[0]? = some c ∧
      c.bytes = ⟨#[1, 2, 1, 2, 3, 4, 5, 6, 9, 10]⟩ ∧ pool'.arenas[1]? = some b) ∧
    (∃ pool', step foreign pool = .error .foreignHandle pool' ∧ pool'.arenas = pool.arenas) ∧
    ∃ pool₁ place pool₂ c, step (.reset 0) pool = .ok .done pool₁ ∧
      step (.alloc 0 4) pool₁ = .ok (.allocated place) pool₂ ∧ place.offset = 0 ∧
      pool₂.arenas[0]? = some c ∧ c.bytes = Arena.zeros 4 := by
  intro a b pool overlapping foreign
  obtain ⟨hfault, hlawful⟩ := memory_law pool
  have ha : pool.arenas[0]? = some a := rfl
  refine ⟨?_, ?_, ?_⟩
  · have hcopy := (hlawful 0 a ha).copyWithin (.make a.id 0) (.make a.id 2) 6
    rw [if_pos (by decide)] at hcopy
    obtain ⟨c, pool', hstep, halters, hreceives⟩ := hcopy
    refine ⟨c, pool', hstep, halters.arena_eq, hreceives.bytes_eq.trans (by decide), ?_⟩
    exact (halters.others_eq 1 (by decide)).trans rfl
  · have howns : a.owns (.make b.id 0) = false := by decide
    have haccess : a.checkAccess (.make b.id 0) (ByteArray.size ⟨#[7]⟩) =
        .error .foreignHandle := by
      rw [Arena.checkAccess, howns]
      rfl
    have hwrite : Arena.write (.make b.id 0) ⟨#[7]⟩ a = .error .foreignHandle a := by
      rw [Arena.write, get_bind_apply, haccess]
      exact bind_of_error rfl
    have hforeign : step foreign pool = .error .foreignHandle pool :=
      bind_of_error (onArena_of_error ha hwrite)
    exact ⟨pool, hforeign, hfault foreign _ pool hforeign⟩
  · obtain ⟨d, pool₁, hreset, halters, hsize⟩ := (hlawful 0 a ha).reset
    have halloc := ((memory_law pool₁).2 0 d halters.arena_eq).alloc 4
    have hnext : d.nextOffset = 0 := by rw [Arena.nextOffset, hsize]; rfl
    rw [hnext, if_pos (by decide)] at halloc
    obtain ⟨place, pool₂, hstep, hoffset, houts⟩ := halloc
    obtain ⟨c, hgrown, -, hlength, -, hzeros⟩ := houts.grown
    refine ⟨pool₁, place, pool₂, c, hreset, hstep, hoffset, hgrown.arena_eq, ?_⟩
    rw [hoffset] at hlength hzeros
    rw [← hzeros, ← hlength]
    exact ByteArray.extract_zero_size.symm

end Pool

end TimeWeighted
