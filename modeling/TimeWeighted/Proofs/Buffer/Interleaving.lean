import Mathlib
import TimeWeighted.Proofs.Buffer.Weave

/-!
# Merging loses nothing

Merging takes the entries of two runs one by one, and what it puts out is an interleaving of the
two, byte for byte, even if a run is not in order of time.  An interleaving is a list in which every
entry is marked with the run it is taken from: `Sum.inl` for the first, `Sum.inr` for the second.

* `Buffer.HasRun` : a buffer with entries, in any order, in an arena.
* `Interleaving.left`, `Interleaving.right`, `Interleaving.entries` : the two runs that went in and
  the one that came out.
* `Interleaving.InTurn` : order by time in which the first run goes first.
* `Buffer.merge_interleaves` : **merging puts out an interleaving of both runs**, in fresh bytes,
  and leaves all others alone.
-/

namespace TimeWeighted

open Observation

/-! ### Interleavings -/

/-- Entries of two runs, each marked with the run it is taken from. -/
abbrev Interleaving := List (ByteArray ⊕ ByteArray)

namespace Interleaving

/-- The entries taken from the first run. -/
def left (w : Interleaving) : List ByteArray :=
  w.filterMap Sum.getLeft?

/-- The entries taken from the second run. -/
def right (w : Interleaving) : List ByteArray :=
  w.filterMap Sum.getRight?

/-- All entries, without the marks. -/
def entries (w : Interleaving) : List ByteArray :=
  w.map (Sum.elim id id)

/-- The time of a marked entry. -/
def time (x : ByteArray ⊕ ByteArray) : Timestamp :=
  (ofEntry (x.elim id id)).ts

/-- Whether an entry may stand before another one: it is not later, and if both are made at the same
time, then not of the second run while the other one is of the first. -/
def before (x y : ByteArray ⊕ ByteArray) : Bool :=
  time x ≤ time y && (time x != time y || x.isLeft || y.isRight)

/-- In order of time, and at equal times all entries of the first run before those of the
second. -/
def InTurn (w : Interleaving) : Prop :=
  w.Pairwise (before · ·)

/-- Ties are only looked at where an entry of the second run is to stand before one of the first. -/
theorem before_eq_entryLe {x y : ByteArray ⊕ ByteArray} (h : x.isLeft = true ∨ y.isRight = true) :
    before x y = Buffer.entryLe (x.elim id id) (y.elim id id) := by
  have hmarks : (x.isLeft || y.isRight) = true := Bool.or_eq_true_iff.2 h
  rw [before, Bool.or_assoc, hmarks, Bool.or_true, Bool.and_true]
  rfl

theorem before_trans (x y z : ByteArray ⊕ ByteArray) (hxy : before x y = true)
    (hyz : before y z = true) : before x z = true := by
  simp only [before, Bool.and_eq_true, Bool.or_eq_true, decide_eq_true_eq, bne_iff_ne] at *
  refine ⟨Int64.le_trans hxy.1 hyz.1, ?_⟩
  by_cases hxz : time x = time z
  · have hy : time x = time y := Int64.le_antisymm hxy.1 (hxz ▸ hyz.1)
    cases x <;> cases y <;> simp_all
  · exact .inl (.inl hxz)

theorem before_total (x y : ByteArray ⊕ ByteArray) : (before x y || before y x) = true := by
  simp only [before, Bool.or_eq_true, Bool.and_eq_true, decide_eq_true_eq, bne_iff_ne]
  by_cases hxy : time x = time y
  · cases x <;> cases y <;> simp [hxy]
  · exact (Int64.le_total (time x) (time y)).imp (fun h => ⟨h, .inl (.inl hxy)⟩)
      fun h => ⟨h, .inl (.inl (Ne.symm hxy))⟩

theorem inTurn_map {mark : ByteArray → ByteArray ⊕ ByteArray} {xs : List ByteArray}
    (hmark : ∀ x y, before (mark x) (mark y) = Buffer.entryLe x y)
    (h : xs.Pairwise (Buffer.entryLe · ·)) : InTurn (xs.map mark) := by
  rw [InTurn, List.pairwise_map]
  exact h.imp fun hxy => (hmark _ _).trans hxy

/-- What is picked out of a merge, if nothing is picked out of one of the two lists. -/
theorem filterMap_merge {α β : Type} {le : α → α → Bool} {pick : α → Option β} {xs ys : List α}
    (h : (∀ x ∈ xs, pick x = none) ∨ ∀ y ∈ ys, pick y = none) :
    (xs.merge ys le).filterMap pick = xs.filterMap pick ++ ys.filterMap pick := by
  induction xs generalizing ys with
  | nil => rw [List.nil_merge, List.filterMap_nil, List.nil_append]
  | cons x xs ihx =>
    induction ys with
    | nil => rw [List.merge_right, List.filterMap_nil, List.append_nil]
    | cons y ys ihy =>
      rw [List.cons_merge_cons]
      split_ifs with hle
      · have hrest : (∀ z ∈ xs, pick z = none) ∨ ∀ z ∈ y :: ys, pick z = none :=
          h.imp_left fun h z hz => h z (List.mem_cons_of_mem _ hz)
        have hx := ihx hrest
        rw [List.filterMap_cons, hx, List.filterMap_cons (l := xs)]
        cases pick x <;> rfl
      · have hy := ihy (h.imp_right fun h z hz => h z (List.mem_cons_of_mem _ hz))
        rw [List.filterMap_cons, hy]
        rcases h with h | h
        · rw [List.filterMap_eq_nil_iff.2 h, List.nil_append, List.nil_append,
            ← List.filterMap_cons]
        · rw [List.filterMap_eq_nil_iff.2 h, h y List.mem_cons_self,
            List.filterMap_eq_nil_iff.2 fun z hz => h z (List.mem_cons_of_mem _ hz)]

/-- The merge of two runs, every entry marked with the run it is taken from. -/
def ofMerge (xs ys : List ByteArray) : Interleaving :=
  (xs.map .inl).merge (ys.map .inr) before

variable (xs ys : List ByteArray)

theorem left_ofMerge : (ofMerge xs ys).left = xs := by
  rw [left, ofMerge, filterMap_merge (.inr (by simp))]
  simp [Function.comp_def]

theorem right_ofMerge : (ofMerge xs ys).right = ys := by
  rw [right, ofMerge, filterMap_merge (.inl (by simp))]
  simp [Function.comp_def]

theorem entries_ofMerge : (ofMerge xs ys).entries = xs.merge ys Buffer.entryLe := by
  rw [entries, ofMerge, List.map_merge (s := Buffer.entryLe)]
  · simp [Function.comp_def]
  · simp [before_eq_entryLe]

theorem inTurn_ofMerge {xs ys : List ByteArray} (hxs : xs.Pairwise (Buffer.entryLe · ·))
    (hys : ys.Pairwise (Buffer.entryLe · ·)) : (ofMerge xs ys).InTurn := by
  refine List.pairwise_merge before_trans before_total _ _ (inTurn_map ?_ hxs) (inTurn_map ?_ hys)
  · exact fun x y => before_eq_entryLe (.inl rfl)
  · exact fun x y => before_eq_entryLe (.inr rfl)

end Interleaving

/-! ### Merging buffers -/

namespace Buffer

variable {a source : Arena} {b incoming : Buffer} {dest src : Handle}

/-- The buffer has a run of entries at `p` in the arena, at least one and in any order. -/
structure HasRun (b : Buffer) (a : Arena) (p : Handle) : Prop where
  /-- The buffer starts at `p`. -/
  start_eq : b.start = some p
  /-- There is an entry. -/
  count_pos : 0 < b.count
  /-- The entries belong to the arena. -/
  covers : a.Covers p (width * b.count)

theorem HasRun.place?_eq (h : b.HasRun a dest) : b.place? = some dest := by
  rw [place?, if_neg (Nat.pos_iff_ne_zero.1 h.count_pos), h.start_eq]

/-- **Merging puts out an interleaving of both runs.**  Whether the runs are in order of time or
not, the merged buffer lies in fresh bytes and is full; taken apart by origin, its entries are those
of the first run and those of the second, byte for byte and each in the order they had.  If both
runs are in order of time, so is the result, with the entries of the first run first where times are
equal.  All bytes that were there before stay as they are.  Only if there is no room for as many
entries as both runs have does merging fault, and then nothing changes. -/
theorem merge_interleaves (hdest : b.HasRun a dest) (hsrc : incoming.HasRun source src) :
    (a.nextOffset + width * (b.count + incoming.count) < Handle.offsetSpan →
      ∃ (out : Handle) (a' : Arena) (w : Interleaving),
        b.merge incoming source a =
          .ok ⟨some out, b.count + incoming.count, b.count + incoming.count⟩ a' ∧
        a.size ≤ out.offset ∧ a'.Covers out (width * (b.count + incoming.count)) ∧
        a'.id = a.id ∧ a'.bytes.extract 0 a.size = a.bytes ∧
        w.entries = a'.entries out.offset (b.count + incoming.count) ∧
        w.left = a.entries dest.offset b.count ∧
        w.right = source.entries src.offset incoming.count ∧
        ((a.entries dest.offset b.count).Pairwise (entryLe · ·) →
          (source.entries src.offset incoming.count).Pairwise (entryLe · ·) → w.InTurn)) ∧
    (Handle.offsetSpan ≤ a.nextOffset + width * (b.count + incoming.count) →
      b.merge incoming source a = .error .arenaExhausted a) := by
  have hmerge : b.merge incoming source =
      mergeRuns dest b.count src incoming.count source := by
    simp only [merge, hdest.place?_eq, hsrc.place?_eq]
  rw [hmerge]
  constructor
  · intro hfit
    obtain ⟨out, a', hrun, hext, hcov, hoff, -, hentries⟩ :=
      mergeRuns_of_fits hdest.covers hsrc.covers hfit
    refine ⟨out, a', .ofMerge _ _, hrun, ?_, hcov, hext.id_eq, ?_,
      (Interleaving.entries_ofMerge _ _).trans hentries.symm, Interleaving.left_ofMerge _ _,
      Interleaving.right_ofMerge _ _, Interleaving.inTurn_ofMerge⟩
    · rw [hoff]
      exact a.nextOffset_spec.1
    · rw [hext.extract_eq 0 a.size le_rfl]
      exact ByteArray.extract_zero_size
  · exact mergeRuns_of_full hdest.covers hsrc.covers

/-- Two runs out of order, in arenas that go by the same id, and two runs in order with an entry of
the same time in both. -/
theorem merge_interleaves_two :
    let arena (bytes : ByteArray) (h : bytes.size < Handle.offsetSpan) : Arena :=
      ⟨⟨1, by decide⟩, bytes, h⟩
    let a := arena (encode ⟨5, 1⟩ ++ encode ⟨2, 2⟩) (by decide +kernel)
    let source := arena (encode ⟨4, 3⟩ ++ encode ⟨1, 4⟩) (by decide +kernel)
    let early := arena (encode ⟨2, 1⟩ ++ encode ⟨5, 2⟩) (by decide +kernel)
    let late := arena (encode ⟨5, 3⟩ ++ encode ⟨7, 4⟩) (by decide +kernel)
    let p : Handle := .make ⟨1, by decide⟩ 0
    let b : Buffer := ⟨some p, 2, 2⟩
    (b.HasRun a p ∧ b.HasRun source p ∧
      ∃ (out : Handle) (a' : Arena) (w : Interleaving),
        b.merge b source a = .ok ⟨some out, 4, 4⟩ a' ∧ a.size ≤ out.offset ∧
        a'.Covers out (width * 4) ∧ a'.id = a.id ∧ a'.bytes.extract 0 a.size = a.bytes ∧
        w.entries = a'.entries out.offset 4 ∧ w.left = a.entries p.offset 2 ∧
        w.right = source.entries p.offset 2) ∧
    ∃ (out : Handle) (a' : Arena) (w : Interleaving),
      b.merge b late early = .ok ⟨some out, 4, 4⟩ a' ∧ w.entries = a'.entries out.offset 4 ∧
      w.left = early.entries p.offset 2 ∧ w.right = late.entries p.offset 2 ∧ w.InTurn := by
  intro arena a source early late p b
  have hasRun (bytes : ByteArray) (h : bytes.size < Handle.offsetSpan)
      (hcovers : (arena bytes h).Covers p (width * 2)) : b.HasRun (arena bytes h) p :=
    ⟨rfl, by decide, hcovers⟩
  constructor
  · have hdest : b.HasRun a p := hasRun _ _ ⟨by decide, by decide +kernel⟩
    have hsrc : b.HasRun source p := hasRun _ _ ⟨by decide, by decide +kernel⟩
    obtain ⟨out, a', w, hmerge, hfresh, hcovers, hid, hkeeps, hw, hleft, hright, -⟩ :=
      (merge_interleaves hdest hsrc).1 (by decide +kernel)
    exact ⟨hdest, hsrc, out, a', w, hmerge, hfresh, hcovers, hid, hkeeps, hw, hleft, hright⟩
  · obtain ⟨out, a', w, hmerge, -, -, -, -, hw, hleft, hright, hinTurn⟩ :=
      (merge_interleaves (hasRun _ _ ⟨by decide, by decide +kernel⟩ : b.HasRun early p)
        (hasRun _ _ ⟨by decide, by decide +kernel⟩ : b.HasRun late p)).1 (by decide +kernel)
    exact ⟨out, a', w, hmerge, hw, hleft, hright,
      hinTurn (by decide +kernel) (by decide +kernel)⟩

end Buffer

end TimeWeighted
