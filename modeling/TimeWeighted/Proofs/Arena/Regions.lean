import Mathlib
import TimeWeighted.Arena.Basic
import TimeWeighted.Proofs.Arena.Handles
import TimeWeighted.Proofs.Outcome

/-!
# Regions of an arena

What the operations on an arena do to its bytes, as far as users of handles can tell: which bytes
are new or written, and that all others stay as they are.

* `Arena.Covers` : some bytes from a handle on belong to an arena.
* `Arena.Extends` : an arena that has grown, with the old bytes unchanged.
* `Arena.Edited` : an arena of the same size, changed inside one region only.
* `Arena.alloc_of_fits`, `Arena.write_of_covers`, `Arena.copyWithin_of_covers`,
  `Arena.copyFrom_of_covers`, `Arena.read_of_covers` : each operation succeeds on regions that are
  covered, and changes nothing but its target.
* `Arena.alloc_of_full` : an allocation without room changes nothing.
-/

namespace TimeWeighted

namespace Arena

/-- The `n` bytes from `p` on belong to the arena. -/
structure Covers (a : Arena) (p : Handle) (n : ℕ) : Prop where
  /-- The handle is one of this arena. -/
  id_eq : p.arenaId = a.id.val.toNat
  /-- The bytes have been allocated. -/
  le_size : p.offset + n ≤ a.size

/-- Arena `b` is arena `a` with more bytes: the bytes of `a` are where they were. -/
structure Extends (a b : Arena) : Prop where
  /-- No reset has come between. -/
  id_eq : b.id = a.id
  /-- Bytes are only added. -/
  size_le : a.size ≤ b.size
  /-- The old bytes are unchanged. -/
  extract_eq : ∀ i j, j ≤ a.size → b.bytes.extract i j = a.bytes.extract i j

/-- Arena `b` is arena `a` but for the bytes from offset `lo` up to offset `hi`. -/
structure Edited (a b : Arena) (lo hi : ℕ) : Prop where
  /-- No reset has come between. -/
  id_eq : b.id = a.id
  /-- No bytes are added. -/
  size_eq : b.size = a.size
  /-- The bytes outside are unchanged. -/
  extract_eq : ∀ i j, j ≤ a.size → j ≤ lo ∨ hi ≤ i → b.bytes.extract i j = a.bytes.extract i j

variable {a b c : Arena} {p q : Handle} {n m lo hi : ℕ}

theorem size_lt_offsetSpan (a : Arena) : a.size < Handle.offsetSpan :=
  a.size_lt

theorem size_lt_wordSpan (a : Arena) : a.size < wordSpan :=
  a.size_lt.trans Handle.offsetSpan_lt_wordSpan

/-! ### Covered regions -/

theorem Covers.mono (h : a.Covers p n) (hm : m ≤ n) : a.Covers p m :=
  ⟨h.id_eq, by have := h.le_size; omega⟩

theorem Covers.extends (h : a.Covers p n) (hab : a.Extends b) : b.Covers p n :=
  ⟨by rw [hab.id_eq, h.id_eq], h.le_size.trans hab.size_le⟩

theorem Covers.edited (h : a.Covers p n) (hab : a.Edited b lo hi) : b.Covers p n :=
  ⟨by rw [hab.id_eq, h.id_eq], by rw [hab.size_eq]; exact h.le_size⟩

theorem Covers.offsetBy (h : a.Covers p n) (hm : m ≤ n) :
    ∃ q, p.offsetBy m = .ok q ∧ q.offset = p.offset + m ∧ a.Covers q (n - m) := by
  have hsize := a.size_lt_offsetSpan
  have hle := h.le_size
  have hid : 0 < p.arenaId := by
    rw [h.id_eq]
    exact a.id.toNat_pos
  obtain ⟨q, hq, hqid, hoff⟩ := Handle.offsetBy_of_lt hid (m := m) (by omega)
  exact ⟨q, hq, hoff, by rw [hqid, h.id_eq], by omega⟩

/-! ### Growing and overwriting -/

theorem Extends.refl (a : Arena) : a.Extends a :=
  ⟨rfl, le_rfl, fun _ _ _ => rfl⟩

theorem Extends.trans (hab : a.Extends b) (hbc : b.Extends c) : a.Extends c where
  id_eq := by rw [hbc.id_eq, hab.id_eq]
  size_le := hab.size_le.trans hbc.size_le
  extract_eq i j hj := by
    rw [hbc.extract_eq i j (hj.trans hab.size_le), hab.extract_eq i j hj]

theorem Extends.edited (hab : a.Extends b) (hbc : b.Edited c lo hi) (hlo : a.size ≤ lo) :
    a.Extends c where
  id_eq := by rw [hbc.id_eq, hab.id_eq]
  size_le := by rw [hbc.size_eq]; exact hab.size_le
  extract_eq i j hj := by
    rw [hbc.extract_eq i j (hj.trans hab.size_le) (.inl (hj.trans hlo)), hab.extract_eq i j hj]

theorem Edited.refl (a : Arena) (lo hi : ℕ) : a.Edited a lo hi :=
  ⟨rfl, rfl, fun _ _ _ _ => rfl⟩

theorem Edited.trans (hab : a.Edited b lo hi) (hbc : b.Edited c lo hi) : a.Edited c lo hi where
  id_eq := by rw [hbc.id_eq, hab.id_eq]
  size_eq := by rw [hbc.size_eq, hab.size_eq]
  extract_eq i j hj hij := by
    rw [hbc.extract_eq i j (by rw [hab.size_eq]; exact hj) hij, hab.extract_eq i j hj hij]

theorem Edited.mono {lo' hi' : ℕ} (h : a.Edited b lo hi) (hlo : lo' ≤ lo) (hhi : hi ≤ hi') :
    a.Edited b lo' hi' :=
  ⟨h.id_eq, h.size_eq, fun i j hj hij => h.extract_eq i j hj (by omega)⟩

theorem extract_append_of_le {xs ys : ByteArray} {i j : ℕ} (h : j ≤ xs.size) :
    (xs ++ ys).extract i j = xs.extract i j := by
  have hnil : ys.extract (i - xs.size) (j - xs.size) = ByteArray.empty := by
    rw [ByteArray.extract_eq_empty_iff]
    omega
  rw [ByteArray.extract_append, hnil, ByteArray.append_empty]

theorem extract_append_of_ge {xs ys : ByteArray} {i j : ℕ} (h : xs.size ≤ i) :
    (xs ++ ys).extract i j = ys.extract (i - xs.size) (j - xs.size) := by
  have hnil : xs.extract i j = ByteArray.empty := by
    rw [ByteArray.extract_eq_empty_iff]
    omega
  rw [ByteArray.extract_append, hnil, ByteArray.empty_append]

theorem extends_growTo {stop : ℕ} (hle : a.size ≤ stop) (hlt : stop < Handle.offsetSpan) :
    a.Extends (a.growTo stop hlt) ∧ (a.growTo stop hlt).size = stop := by
  have hsize : (a.growTo stop hlt).size = stop := by
    have : a.bytes.size ≤ stop := hle
    simp only [size, growTo, ByteArray.size_append, size_zeros]
    omega
  exact ⟨⟨rfl, by omega, fun i j hj => extract_append_of_le hj⟩, hsize⟩

section

variable {chunk : ByteArray} {start : ℕ}

theorem bytes_overwrite (h : start + chunk.size ≤ a.bytes.size) :
    (a.overwrite start chunk h).bytes =
      a.bytes.extract 0 start ++ chunk ++
        a.bytes.extract (start + chunk.size) a.bytes.size := by
  simp only [overwrite, ByteArray.copySlice_eq_append, Nat.zero_add, Nat.sub_zero,
    ByteArray.extract_zero_size, ByteArray.size_data, Nat.min_self]

theorem extract_overwrite (h : start + chunk.size ≤ a.bytes.size) :
    (a.overwrite start chunk h).bytes.extract start (start + chunk.size) = chunk := by
  have hpre : (a.bytes.extract 0 start).size = start := by
    rw [ByteArray.size_extract]
    omega
  rw [bytes_overwrite, ByteArray.append_assoc, extract_append_of_ge hpre.le, hpre, Nat.sub_self,
    Nat.add_sub_cancel_left, ByteArray.extract_append_eq_left rfl]

theorem edited_overwrite (h : start + chunk.size ≤ a.bytes.size) :
    a.Edited (a.overwrite start chunk h) start (start + chunk.size) := by
  have hpre : (a.bytes.extract 0 start).size = start := by
    rw [ByteArray.size_extract]
    omega
  have hmid : (a.bytes.extract 0 start ++ chunk).size = start + chunk.size := by
    rw [ByteArray.size_append, hpre]
  refine ⟨rfl, ?_, ?_⟩
  · simp only [size, bytes_overwrite, ByteArray.size_append, ByteArray.size_extract]
    omega
  intro i j hj hij
  replace hj : j ≤ a.bytes.size := hj
  rw [bytes_overwrite]
  rcases hij with hle | hge
  · -- before the region: only the first of the three parts counts
    rw [extract_append_of_le (by omega), extract_append_of_le (by omega),
      ByteArray.extract_extract, Nat.zero_add, Nat.zero_add, Nat.min_eq_left hle]
  · rw [extract_append_of_ge (by omega), hmid, ByteArray.extract_extract]
    by_cases hne : start + chunk.size ≤ j
    · rw [Nat.add_sub_cancel' hge, Nat.add_sub_cancel' hne, Nat.min_eq_left hj]
    · have hnil : a.bytes.extract i j = ByteArray.empty := by
        rw [ByteArray.extract_eq_empty_iff]
        omega
      rw [hnil, ByteArray.extract_eq_empty_iff]
      omega

end

/-! ### Operations -/

theorem create_apply (reserve : ℕ) (supply : IdSupply) :
    create reserve supply =
      if reserve ≤ maxReservation then .ok (empty supply.take.1 reserve) supply.take.2
      else .error .reservationTooLarge supply.take.2 := by
  unfold create
  split_ifs <;> rfl

/-- Where a fresh region starts: at the next multiple of eight. -/
theorem nextOffset_spec (a : Arena) :
    a.size ≤ a.nextOffset ∧ a.nextOffset < a.size + alignment ∧ a.nextOffset % alignment = 0 := by
  simp only [nextOffset, alignment]
  omega

/-- An allocation that ends below the last offset yields new bytes at the end. -/
theorem alloc_of_fits (h : a.nextOffset + n < Handle.offsetSpan) :
    ∃ p b, alloc n a = .ok p b ∧ a.Extends b ∧ b.size = a.nextOffset + n ∧ b.Covers p n ∧
      p.offset = a.nextOffset := by
  have hword : a.nextOffset + n < wordSpan := h.trans Handle.offsetSpan_lt_wordSpan
  have hnext := a.nextOffset_spec
  have hle : a.size ≤ a.nextOffset + n := by omega
  obtain ⟨hext, hsize⟩ := extends_growTo hle h
  have hoff : (Handle.make a.id a.nextOffset).offset = a.nextOffset := by
    rw [Handle.offset_make, Nat.mod_eq_of_lt (by omega)]
  refine ⟨.make a.id a.nextOffset, a.growTo _ h, ?_, hext, hsize, ⟨?_, ?_⟩, hoff⟩
  · simp [alloc, hword, h]
  · rw [Handle.arenaId_make, hext.id_eq]
  · rw [hoff, hsize]

/-- An allocation that would end beyond the last offset faults and changes nothing. -/
theorem alloc_of_full (h : Handle.offsetSpan ≤ a.nextOffset + n)
    (hword : a.nextOffset + n < wordSpan) : alloc n a = .error .arenaExhausted a := by
  simp [alloc, hword, Nat.not_lt.2 h]

theorem checkAccess_of_covers (h : a.Covers p n) : a.checkAccess p n = .ok () := by
  have hle := h.le_size
  rw [checkAccess, if_neg, if_neg (by omega)]
  simp only [owns, h.id_eq, beq_self_eq_true, Bool.true_and, Bool.and_eq_true, Bool.not_eq_true',
    decide_eq_false_iff_not, bne_iff_ne, ne_eq]
  omega

theorem read_of_covers (h : a.Covers p n) :
    a.read p n = .ok (a.bytes.extract p.offset (p.offset + n)) := by
  rw [read, checkAccess_of_covers h]
  rfl

theorem size_extract_of_covers (h : a.Covers p n) :
    (a.bytes.extract p.offset (p.offset + n)).size = n := by
  have : p.offset + n ≤ a.bytes.size := h.le_size
  rw [ByteArray.size_extract]
  omega

theorem write_of_covers {chunk : ByteArray} (h : a.Covers p chunk.size) :
    ∃ b, write p chunk a = .ok () b ∧ a.Edited b p.offset (p.offset + chunk.size) ∧
      b.bytes.extract p.offset (p.offset + chunk.size) = chunk := by
  have hfits : p.offset + chunk.size ≤ a.bytes.size := h.le_size
  refine ⟨a.overwrite p.offset chunk hfits, ?_, edited_overwrite hfits, extract_overwrite hfits⟩
  simp [write, checkAccess_of_covers h, hfits]

/-- Copying within an arena brings the bytes that the source held before. -/
theorem copyWithin_of_covers (hp : a.Covers p n) (hq : a.Covers q n) :
    ∃ b, copyWithin p q n a = .ok () b ∧ a.Edited b q.offset (q.offset + n) ∧
      b.bytes.extract q.offset (q.offset + n) = a.bytes.extract p.offset (p.offset + n) := by
  have hsize := size_extract_of_covers hp
  have hchunk : a.Covers q (a.bytes.extract p.offset (p.offset + n)).size := by rwa [hsize]
  obtain ⟨b, hb, hedit, hextract⟩ := write_of_covers hchunk
  rw [hsize] at hedit hextract
  refine ⟨b, ?_, hedit, hextract⟩
  simp [copyWithin, read_of_covers hp, hb]

theorem copyFrom_of_covers {source : Arena} (hp : source.Covers p n) (hq : a.Covers q n) :
    ∃ b, copyFrom source p q n a = .ok () b ∧ a.Edited b q.offset (q.offset + n) ∧
      b.bytes.extract q.offset (q.offset + n) =
        source.bytes.extract p.offset (p.offset + n) := by
  have hsize := size_extract_of_covers hp
  have hchunk : a.Covers q (source.bytes.extract p.offset (p.offset + n)).size := by rwa [hsize]
  obtain ⟨b, hb, hedit, hextract⟩ := write_of_covers hchunk
  rw [hsize] at hedit hextract
  refine ⟨b, ?_, hedit, hextract⟩
  simp [copyFrom, read_of_covers hp, hb]

end Arena

end TimeWeighted
