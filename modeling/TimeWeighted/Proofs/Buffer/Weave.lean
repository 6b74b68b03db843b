import Mathlib
import TimeWeighted.Twap.BufferMerge
import TimeWeighted.Proofs.Buffer.Shelf

/-!
# Two runs woven into one

The loop that merges two runs of entries, and the two copies that bring what it leaves.  All of it
is exact down to the bytes of the entries and holds for runs in any order: the result is
`List.merge` of the two runs.

* `Buffer.weave_spec` : **the loop.**  What it has put out, followed by what it has not taken, is
  what was put out before, followed by the merge of what had not been taken.
* `Buffer.mergeRuns_of_fits` : two runs become their merge, in fresh bytes.
* `Buffer.merge_of_fits`, `Buffer.merge_of_full` : merging does to memory what it does to shelves,
  or faults and changes nothing.
-/

namespace TimeWeighted

namespace Buffer

open Observation

/-- The order by time, on entries. -/
def entryLe (x y : ByteArray) : Bool :=
  Shelf.le (ofEntry x) (ofEntry y)

variable {a source : Arena} {dest src out p : Handle} {destCount srcCount i j n : ℕ}

theorem timestampAt_of_covers (h : a.Covers p width) :
    timestampAt a p = .ok (ofEntry (a.bytes.extract p.offset (p.offset + width))).ts := by
  have hsize := Arena.size_extract_of_covers h
  rw [timestampAt, Arena.read_of_covers h, ok_bind, decodeTimestamp, if_pos]
  · rfl
  · rw [hsize]
    decide

theorem entries_of_output {a' : Arena} {x : ByteArray}
    (hdest : a.Covers dest (width * destCount))
    (hbefore : dest.offset + width * destCount ≤ out.offset)
    (hout : a.Covers out (width * n)) (hi : i < n)
    (hedit : a.Edited a' (out.offset + width * i) (out.offset + width * i + width))
    (hx : a'.bytes.extract (out.offset + width * i) (out.offset + width * i + width) = x) :
    a.Edited a' out.offset (out.offset + width * n) ∧
      a'.entries dest.offset destCount = a.entries dest.offset destCount ∧
      a'.entries out.offset (i + 1) = a.entries out.offset i ++ [x] := by
  have hlast : width * i + width ≤ width * n := by
    simp only [width]
    omega
  have hle := hout.le_size
  refine ⟨hedit.mono (by omega) (by omega), ?_, ?_⟩
  · exact hedit.entries_eq hdest.le_size (.inl (by omega))
  · rw [Arena.entries_succ, hedit.entries_eq (by omega) (.inl le_rfl), Arena.entry, hx]

/-- One turn of the loop takes the entry with the smaller time, of equal times that of the first
run. -/
theorem weave_step (hdest : a.Covers dest (width * destCount))
    (hsrc : source.Covers src (width * srcCount))
    (hout : a.Covers out (width * (destCount + srcCount)))
    (hbefore : dest.offset + width * destCount ≤ out.offset) (hi : i < destCount)
    (hj : j < srcCount) :
    ∃ a', a.Edited a' out.offset (out.offset + width * (destCount + srcCount)) ∧
      a'.entries dest.offset destCount = a.entries dest.offset destCount ∧
      (entryLe (a.entry dest.offset i) (source.entry src.offset j) = true ∧
          weave dest destCount src srcCount source out i j a =
            weave dest destCount src srcCount source out (i + 1) j a' ∧
          a'.entries out.offset (i + j + 1) =
            a.entries out.offset (i + j) ++ [a.entry dest.offset i] ∨
        entryLe (a.entry dest.offset i) (source.entry src.offset j) = false ∧
          weave dest destCount src srcCount source out i j a =
            weave dest destCount src srcCount source out i (j + 1) a' ∧
          a'.entries out.offset (i + j + 1) =
            a.entries out.offset (i + j) ++ [source.entry src.offset j]) := by
  have hone : ∀ {m : ℕ}, 0 < m → width ≤ width * m := fun h => Nat.le_mul_of_pos_right _ h
  have hsum : i + j < destCount + srcCount := by omega
  obtain ⟨q₁, hq₁, hoff₁, hcov₁⟩ := entryPlace_of_covers hdest hi.le
  obtain ⟨q₂, hq₂, hoff₂, hcov₂⟩ := entryPlace_of_covers hsrc hj.le
  obtain ⟨q₃, hq₃, hoff₃, hcov₃⟩ := entryPlace_of_covers hout hsum.le
  replace hcov₁ := hcov₁.mono (hone (show 0 < destCount - i by omega))
  replace hcov₂ := hcov₂.mono (hone (show 0 < srcCount - j by omega))
  replace hcov₃ := hcov₃.mono (hone (show 0 < destCount + srcCount - (i + j) by omega))
  have hx : a.bytes.extract q₁.offset (q₁.offset + width) = a.entry dest.offset i := by
    rw [hoff₁, Arena.entry]
  have hy : source.bytes.extract q₂.offset (q₂.offset + width) = source.entry src.offset j := by
    rw [hoff₂, Arena.entry]
  have hcmp : entryLe (a.entry dest.offset i) (source.entry src.offset j) =
      decide ((ofEntry (a.entry dest.offset i)).ts ≤ (ofEntry (source.entry src.offset j)).ts) :=
    rfl
  rw [weave, dif_pos ⟨hi, hj⟩, hcmp]
  simp only [hq₁, hq₂, hq₃, liftM_ok, pure_bind, get_bind_apply, timestampAt_of_covers hcov₁,
    timestampAt_of_covers hcov₂, hx, hy]
  by_cases hle : (ofEntry (a.entry dest.offset i)).ts ≤ (ofEntry (source.entry src.offset j)).ts
  · obtain ⟨a', hcopy, hedit, hextract⟩ := Arena.copyWithin_of_covers hcov₁ hcov₃
    rw [hoff₃] at hedit hextract
    obtain ⟨hedit', hD, hO⟩ :=
      entries_of_output hdest hbefore hout hsum hedit (hextract.trans hx)
    refine ⟨a', hedit', hD, .inl ⟨decide_eq_true hle, ?_, hO⟩⟩
    rw [if_pos hle, bind_of_ok hcopy]
  · obtain ⟨a', hcopy, hedit, hextract⟩ := Arena.copyFrom_of_covers hcov₂ hcov₃
    rw [hoff₃] at hedit hextract
    obtain ⟨hedit', hD, hO⟩ :=
      entries_of_output hdest hbefore hout hsum hedit (hextract.trans hy)
    refine ⟨a', hedit', hD, .inr ⟨decide_eq_false hle, ?_, hO⟩⟩
    rw [if_neg hle, bind_of_ok hcopy]

/-- **The loop.**  What it has put out, followed by what it has not taken, is what was put out
before, followed by the merge of what had not been taken; one of the two runs is used up. -/
theorem weave_spec (hdest : a.Covers dest (width * destCount))
    (hsrc : source.Covers src (width * srcCount))
    (hout : a.Covers out (width * (destCount + srcCount)))
    (hbefore : dest.offset + width * destCount ≤ out.offset) (hi : i ≤ destCount)
    (hj : j ≤ srcCount) :
    ∃ i' j' a', weave dest destCount src srcCount source out i j a = .ok (i', j') a' ∧
      i' ≤ destCount ∧ j' ≤ srcCount ∧ (i' = destCount ∨ j' = srcCount) ∧
      a.Edited a' out.offset (out.offset + width * (destCount + srcCount)) ∧
      a'.entries out.offset (i' + j') ++
          ((a.entries dest.offset destCount).drop i' ++
            (source.entries src.offset srcCount).drop j') =
        a.entries out.offset (i + j) ++
          ((a.entries dest.offset destCount).drop i).merge
            ((source.entries src.offset srcCount).drop j) entryLe := by
  -- by induction on the number of entries not yet taken
  induction hk : (destCount - i) + (srcCount - j) using Nat.strong_induction_on
    generalizing i j a with
  | _ k ih =>
  by_cases hij : i < destCount ∧ j < srcCount
  · obtain ⟨hi', hj'⟩ := hij
    obtain ⟨a₁, hedit, hD, hstep⟩ := weave_step hdest hsrc hout hbefore hi' hj'
    have hdropD := Arena.entries_drop_cons a dest.offset hi'
    have hdropS := Arena.entries_drop_cons source src.offset hj'
    rcases hstep with ⟨hle, hstep, hO⟩ | ⟨hle, hstep, hO⟩
    · obtain ⟨i', j', a', hrun, h1, h2, h3, hedit', hmerge⟩ :=
        ih _ (by omega) (hdest.edited hedit) (hout.edited hedit) (i := i + 1) hi' hj rfl
      refine ⟨i', j', a', hstep.trans hrun, h1, h2, h3, hedit.trans hedit', ?_⟩
      rw [hD, Nat.add_right_comm, hO] at hmerge
      rw [hmerge, hdropD, hdropS, List.cons_merge_cons_pos _ _ _ hle, List.append_assoc]
      rfl
    · obtain ⟨i', j', a', hrun, h1, h2, h3, hedit', hmerge⟩ :=
        ih _ (by omega) (hdest.edited hedit) (hout.edited hedit) hi (j := j + 1) hj' rfl
      refine ⟨i', j', a', hstep.trans hrun, h1, h2, h3, hedit.trans hedit', ?_⟩
      rw [hD, ← Nat.add_assoc, hO] at hmerge
      rw [hmerge, hdropD, hdropS, List.cons_merge_cons_neg _ _ _ (by simp [hle]), List.append_assoc]
      rfl
  · refine ⟨i, j, a, ?_, hi, hj, by omega, .refl a _ _, ?_⟩
    · rw [weave, dif_neg hij, pure_apply]
    · rcases (show i = destCount ∨ j = srcCount by omega) with rfl | rfl
      · rw [List.drop_eq_nil_of_le (by simp), List.nil_append, List.nil_merge]
      · have hnil : (source.entries src.offset j).drop j = [] := List.drop_eq_nil_of_le (by simp)
        rw [hnil, List.append_nil, List.merge_right]

/-! ### The whole merge -/

/-- What is left of a run from its entry `k` on, copied behind `m` entries of the output, fills up
the output. -/
theorem output_of_tail {b c : Arena} {q r : Handle} {m k total : ℕ} (hk : k ≤ n)
    (htotal : m + (n - k) = total) (hr : r.offset = p.offset + width * k)
    (hq : q.offset = out.offset + width * m) (hle : q.offset ≤ a.size)
    (hedit : a.Edited b q.offset (q.offset + width * (n - k)))
    (hextract : b.bytes.extract q.offset (q.offset + width * (n - k)) =
      c.bytes.extract r.offset (r.offset + width * (n - k))) :
    a.Edited b out.offset (out.offset + width * total) ∧
      b.entries out.offset total = a.entries out.offset m ++ (c.entries p.offset n).drop k := by
  rw [hq] at hle hedit hextract
  rw [hr] at hextract
  refine ⟨hedit.mono (Nat.le_add_right _ _) ?_, ?_⟩
  · rw [Nat.add_assoc, ← Nat.mul_add, htotal]
  · rw [← htotal, Arena.entries_add, Arena.entries_of_extract_eq hextract,
      hedit.entries_eq hle (.inl le_rfl), Arena.entries_drop c _ hk]

theorem copyRest_of_covers {q : Handle} (hdest : a.Covers dest (width * destCount))
    (hsrc : source.Covers src (width * srcCount))
    (hout : a.Covers out (width * (destCount + srcCount))) (hi : i ≤ destCount) (hj : j ≤ srcCount)
    (hdone : i = destCount ∨ j = srcCount) (hq : entryPlace out (i + j) = .ok q) (b : Buffer) :
    ∃ a', (do
        if i < destCount then
          Arena.copyWithin (← entryPlace dest i) q (width * (destCount - i))
        if j < srcCount then
          Arena.copyFrom source (← entryPlace src j) q (width * (srcCount - j))
        return b : ArenaM Buffer) a = .ok b a' ∧
      a.Edited a' out.offset (out.offset + width * (destCount + srcCount)) ∧
      a'.entries out.offset (destCount + srcCount) = a.entries out.offset (i + j) ++
        ((a.entries dest.offset destCount).drop i ++
          (source.entries src.offset srcCount).drop j) := by
  obtain ⟨_, hplace, hqoff, hqcov⟩ :=
    entryPlace_of_covers hout (show i + j ≤ destCount + srcCount by omega)
  cases hplace.symm.trans hq
  have hqle : q.offset ≤ a.size := (Nat.le_add_right _ _).trans hqcov.le_size
  rcases Nat.lt_or_ge i destCount with hi' | hi'
  · -- the first run has a tail
    obtain rfl : j = srcCount := by omega
    obtain ⟨r, hr, hroff, hrcov⟩ := entryPlace_of_covers hdest hi'.le
    have hroom : destCount + j - (i + j) = destCount - i := by omega
    have hsum : i + j + (destCount - i) = destCount + j := by omega
    rw [hroom] at hqcov
    obtain ⟨a', hcopy, hedit, hextract⟩ := Arena.copyWithin_of_covers hrcov hqcov
    obtain ⟨hedit', htail⟩ := output_of_tail hi'.le hsum hroff hqoff hqle hedit hextract
    refine ⟨a', ?_, hedit', ?_⟩
    · rw [if_pos hi', if_neg (Nat.lt_irrefl j), hr, liftM_ok, pure_bind, bind_of_ok hcopy]
      rfl
    · have hnil : (source.entries src.offset j).drop j = [] := List.drop_eq_nil_of_le (by simp)
      rw [htail, hnil, List.append_nil]
  · obtain rfl : i = destCount := by omega
    have hnil : (a.entries dest.offset i).drop i = [] := List.drop_eq_nil_of_le (by simp)
    rw [hnil, List.nil_append]
    rcases Nat.lt_or_ge j srcCount with hj' | hj'
    · -- the second run has a tail
      obtain ⟨r, hr, hroff, hrcov⟩ := entryPlace_of_covers hsrc hj'.le
      have hroom : i + srcCount - (i + j) = srcCount - j := by omega
      have hsum : i + j + (srcCount - j) = i + srcCount := by omega
      rw [hroom] at hqcov
      obtain ⟨a', hcopy, hedit, hextract⟩ := Arena.copyFrom_of_covers hrcov hqcov
      obtain ⟨hedit', htail⟩ := output_of_tail hj'.le hsum hroff hqoff hqle hedit hextract
      refine ⟨a', ?_, hedit', htail⟩
      rw [if_neg (Nat.lt_irrefl i), if_pos hj', hr]
      simp only [liftM_ok, pure_bind]
      rw [bind_of_ok hcopy, pure_apply]
    · obtain rfl : j = srcCount := by omega
      refine ⟨a, ?_, .refl a _ _, by rw [List.drop_eq_nil_of_le (by simp), List.append_nil]⟩
      rw [if_neg (Nat.lt_irrefl i), if_neg (Nat.lt_irrefl j)]
      rfl

/-- Two runs become their merge, in fresh bytes; the second may lie in any arena. -/
theorem mergeRuns_of_fits (hdest : a.Covers dest (width * destCount))
    (hsrc : source.Covers src (width * srcCount))
    (hfit : a.nextOffset + width * (destCount + srcCount) < Handle.offsetSpan) :
    ∃ out a', mergeRuns dest destCount src srcCount source a =
        .ok ⟨some out, destCount + srcCount, destCount + srcCount⟩ a' ∧
      a.Extends a' ∧ a'.Covers out (width * (destCount + srcCount)) ∧
      out.offset = a.nextOffset ∧
      a'.size = a.nextOffset + width * (destCount + srcCount) ∧
      a'.entries out.offset (destCount + srcCount) =
        (a.entries dest.offset destCount).merge (source.entries src.offset srcCount) entryLe := by
  have hword : ∀ {m}, m ≤ destCount + srcCount → width * m < wordSpan := by
    intro m hm
    have := Nat.mul_le_mul_left width hm
    have := Handle.offsetSpan_lt_wordSpan
    omega
  have hnext := a.nextOffset_spec
  obtain ⟨out, a₁, halloc, hext, hsize, hcov, hoff⟩ := Arena.alloc_of_fits hfit
  have hdest₁ := hdest.extends hext
  have hbefore : dest.offset + width * destCount ≤ out.offset := by
    have := hdest.le_size
    omega
  obtain ⟨i, j, a₂, hweave, hi, hj, hdone, hedit, hmerge⟩ :=
    weave_spec hdest₁ hsrc hcov hbefore (Nat.zero_le _) (Nat.zero_le _)
  -- the entries of the first run are the same in all arenas on the way
  rw [hext.entries_eq hdest.le_size, Nat.add_zero, Arena.entries_zero, List.nil_append,
    List.drop_zero, List.drop_zero] at hmerge
  have hext₂ : a.Extends a₂ := hext.edited hedit (by omega)
  obtain ⟨q, hq, -, -⟩ :=
    entryPlace_of_covers (hcov.edited hedit) (show i + j ≤ destCount + srcCount by omega)
  obtain ⟨a₃, hrest, hedit₃, hentries⟩ := copyRest_of_covers (hdest₁.edited hedit) hsrc
    (hcov.edited hedit) hi hj hdone hq ⟨some out, destCount + srcCount, destCount + srcCount⟩
  refine ⟨out, a₃, ?_, hext₂.edited hedit₃ (by omega), (hcov.edited hedit).edited hedit₃, hoff, ?_,
    ?_⟩
  · simp only [mergeRuns, byteLength_of_lt (hword le_rfl), liftM_ok, pure_bind]
    rw [bind_of_ok halloc, bind_of_ok hweave, ← hrest]
    simp only [hq, liftM_ok, pure_bind,
      byteLength_of_lt (hword (show destCount - i ≤ destCount + srcCount by omega)),
      byteLength_of_lt (hword (show srcCount - j ≤ destCount + srcCount by omega))]
  · rw [hedit₃.size_eq, hedit.size_eq, hsize]
  · rw [hentries, hext₂.entries_eq hdest.le_size, hmerge]

/-- Without room for the result nothing changes.  Two runs that exist are together shorter than a
word can say, so only the offset is at fault. -/
theorem mergeRuns_of_full (hdest : a.Covers dest (width * destCount))
    (hsrc : source.Covers src (width * srcCount))
    (hfull : Handle.offsetSpan ≤ a.nextOffset + width * (destCount + srcCount)) :
    mergeRuns dest destCount src srcCount source a = .error .arenaExhausted a := by
  have hdle := hdest.le_size
  have hsle := hsrc.le_size
  have hsize := a.size_lt_offsetSpan
  have hssize := source.size_lt_offsetSpan
  have hnext := a.nextOffset_spec
  have hword : a.nextOffset + width * (destCount + srcCount) < wordSpan := by
    simp only [Handle.offsetSpan, wordSpan, width, Arena.alignment] at *
    omega
  rw [mergeRuns, byteLength_of_lt (by omega), liftM_ok, pure_bind,
    bind_of_error (Arena.alloc_of_full hfull hword)]

theorem copyOver_of_fits (hsrc : source.Covers src (width * n))
    (hfit : a.nextOffset + width * max initialCapacity n < Handle.offsetSpan) :
    ∃ out a', copyOver src n source a = .ok ⟨some out, n, max initialCapacity n⟩ a' ∧
      a.Extends a' ∧ a'.Covers out (width * max initialCapacity n) ∧
      out.offset = a.nextOffset ∧ a'.size = a.nextOffset + width * max initialCapacity n ∧
      a'.entries out.offset n = source.entries src.offset n := by
  have hle : width * n ≤ width * max initialCapacity n :=
    Nat.mul_le_mul_left _ (le_max_right _ _)
  have hnext := a.nextOffset_spec
  have hword := Handle.offsetSpan_lt_wordSpan
  obtain ⟨out, a₁, halloc, hext, hsize, hcov, hoff⟩ := Arena.alloc_of_fits hfit
  obtain ⟨a₂, hcopy, hedit, hextract⟩ := Arena.copyFrom_of_covers hsrc (hcov.mono hle)
  refine ⟨out, a₂, ?_, hext.edited hedit (by omega), hcov.edited hedit, hoff, ?_,
    Arena.entries_of_extract_eq hextract⟩
  · simp only [copyOver, byteLength_of_lt (show width * max initialCapacity n < wordSpan by omega),
      byteLength_of_lt (show width * n < wordSpan by omega), liftM_ok, pure_bind]
    rw [bind_of_ok halloc, bind_of_ok hcopy, pure_apply]
  · rw [hedit.size_eq, hsize]

theorem map_ofEntry_merge (xs ys : List ByteArray) :
    (xs.merge ys entryLe).map ofEntry = (xs.map ofEntry).merge (ys.map ofEntry) Shelf.le :=
  List.map_merge fun _ _ _ _ => rfl

variable {b b' incoming : Buffer} {s t : Shelf}

theorem Stored.merge_of_nil (hsrc : incoming.Stored source t src) (hs : s.entries = []) :
    s.merge t.entries = ⟨t.entries, max initialCapacity incoming.count⟩ ∧
      s.mergeBytes t.entries = width * max initialCapacity incoming.count := by
  simp [Shelf.mergeBytes, Shelf.merge, hsrc.entries_ne_nil, hs, hsrc.length_eq]

theorem Stored.merge_of_stored (hdest : b.Stored a s dest) (hsrc : incoming.Stored source t src) :
    s.merge t.entries = ⟨s.entries.merge t.entries Shelf.le, b.count + incoming.count⟩ ∧
      s.mergeBytes t.entries = width * (b.count + incoming.count) := by
  simp [Shelf.mergeBytes, Shelf.merge, hsrc.entries_ne_nil, hdest.entries_ne_nil, hsrc.length_eq,
    hdest.length_eq]

theorem merge_intoEmpty (h : b.Holds a s) (hs : s.entries = [])
    (hsrc : incoming.Stored source t src)
    (hfit : Arena.grown a.size (s.mergeBytes t.entries) < Handle.offsetSpan) :
    ∃ b' a', b.merge incoming source a = .ok b' a' ∧ b'.Holds a' (s.merge t.entries) ∧
      b.Change a b' a' ∧ a'.size = Arena.grown a.size (s.mergeBytes t.entries) := by
  obtain ⟨hshelf, hbytes⟩ := hsrc.merge_of_nil hs
  have hcov : source.Covers src (width * incoming.count) :=
    hsrc.covers.mono (Nat.mul_le_mul_left _ hsrc.count_le)
  have hnext := a.nextOffset_spec
  have hpos : 0 < width * max initialCapacity incoming.count := by
    simp only [width, initialCapacity]
    omega
  rw [hbytes, Arena.grown_of_pos hpos] at hfit ⊢
  obtain ⟨out, a', hcopy, hext, hout, hoff, hsize, hrun⟩ := copyOver_of_fits hcov hfit
  have hstored : Stored ⟨some out, incoming.count, max initialCapacity incoming.count⟩ a'
      (s.merge t.entries) out := by
    refine ⟨rfl, hout, by rw [hoff]; exact hnext.2.2, hsrc.count_pos, le_max_right _ _, ?_, ?_⟩
    · rw [hshelf, ← hsrc.entries_eq]
      exact congrArg (List.map ofEntry) hrun
    · rw [hshelf]
  refine ⟨_, a', ?_, hstored.holds, .moved hext ?_, hsize⟩
  · simpa [merge, hsrc.place?_eq, h.place?_eq_none hs] using hcopy
  · rintro q ⟨⟩
    omega

theorem merge_intoStored (hdest : b.Stored a s dest) (hsrc : incoming.Stored source t src)
    (hfit : Arena.grown a.size (s.mergeBytes t.entries) < Handle.offsetSpan) :
    ∃ b' a', b.merge incoming source a = .ok b' a' ∧ b'.Holds a' (s.merge t.entries) ∧
      b.Change a b' a' ∧ a'.size = Arena.grown a.size (s.mergeBytes t.entries) := by
  obtain ⟨hshelf, hbytes⟩ := hdest.merge_of_stored hsrc
  have hdcov : a.Covers dest (width * b.count) :=
    hdest.covers.mono (Nat.mul_le_mul_left _ hdest.count_le)
  have hscov : source.Covers src (width * incoming.count) :=
    hsrc.covers.mono (Nat.mul_le_mul_left _ hsrc.count_le)
  have hnext := a.nextOffset_spec
  have hcount := hdest.count_pos
  have hpos : 0 < width * (b.count + incoming.count) := by
    simp only [width]
    omega
  rw [hbytes, Arena.grown_of_pos hpos] at hfit ⊢
  obtain ⟨out, a', hmerge, hext, hcov, hoff, hsize, hrun⟩ := mergeRuns_of_fits hdcov hscov hfit
  have hstored : Stored ⟨some out, b.count + incoming.count, b.count + incoming.count⟩ a'
      (s.merge t.entries) out := by
    refine ⟨rfl, hcov, by rw [hoff]; exact hnext.2.2, Nat.add_pos_left hcount _, le_rfl, ?_, ?_⟩
    · rw [hshelf, ← hdest.entries_eq, ← hsrc.entries_eq]
      exact (congrArg (List.map ofEntry) hrun).trans (map_ofEntry_merge _ _)
    · rw [hshelf]
  refine ⟨_, a', ?_, hstored.holds, .moved hext ?_, hsize⟩
  · simpa [merge, hsrc.place?_eq, hdest.place?_eq] using hmerge
  · rintro q ⟨⟩
    omega

/-- Merging does to memory what it does to shelves.  The second buffer may lie in any arena, even
one with the same id. -/
theorem merge_of_fits (h : b.Holds a s) (hin : incoming.Holds source t)
    (hfit : Arena.grown a.size (s.mergeBytes t.entries) < Handle.offsetSpan) :
    ∃ b' a', b.merge incoming source a = .ok b' a' ∧ b'.Holds a' (s.merge t.entries) ∧
      b.Change a b' a' ∧ a'.size = Arena.grown a.size (s.mergeBytes t.entries) := by
  by_cases ht : t.entries = []
  · have hplace := hin.place?_eq_none ht
    refine ⟨b, a, by simp [merge, hplace], ?_, h.change_refl, by simp [Shelf.mergeBytes, ht]⟩
    simpa [Shelf.merge, ht] using h
  · obtain ⟨src, hsrc⟩ := hin.stored ht
    by_cases hs : s.entries = []
    · exact merge_intoEmpty h hs hsrc hfit
    · obtain ⟨dest, hdest⟩ := h.stored hs
      exact merge_intoStored hdest hsrc hfit

theorem merge_of_full (h : b.Holds a s) (hin : incoming.Holds source t)
    (hfull : Handle.offsetSpan ≤ Arena.grown a.size (s.mergeBytes t.entries)) :
    b.merge incoming source a = .error .arenaExhausted a := by
  have hsize := a.size_lt_offsetSpan
  have hnext := a.nextOffset_spec
  by_cases ht : t.entries = []
  · exact absurd (if_pos ht) (Arena.ne_zero_of_full hfull)
  obtain ⟨src, hsrc⟩ := hin.stored ht
  have hsle := hsrc.run_le
  have hssize := source.size_lt_offsetSpan
  have hscount := hsrc.count_pos
  by_cases hs : s.entries = []
  · have hword : a.nextOffset + width * max initialCapacity incoming.count < wordSpan := by
      simp only [Handle.offsetSpan, wordSpan, width, initialCapacity, Arena.alignment] at *
      omega
    rw [(hsrc.merge_of_nil hs).2, Arena.grown_of_pos (by simp only [width]; omega)] at hfull
    have hcopy : copyOver src incoming.count source a = .error .arenaExhausted a := by
      rw [copyOver, byteLength_of_lt (by omega), liftM_ok, pure_bind,
        bind_of_error (Arena.alloc_of_full hfull hword)]
    simpa [merge, hsrc.place?_eq, h.place?_eq_none hs] using hcopy
  · obtain ⟨dest, hdest⟩ := h.stored hs
    rw [(hdest.merge_of_stored hsrc).2, Arena.grown_of_pos (by simp only [width]; omega)] at hfull
    have hmerge := mergeRuns_of_full
      (hdest.covers.mono (Nat.mul_le_mul_left _ hdest.count_le))
      (hsrc.covers.mono (Nat.mul_le_mul_left _ hsrc.count_le)) hfull
    simpa [merge, hsrc.place?_eq, hdest.place?_eq] using hmerge

end Buffer

end TimeWeighted
