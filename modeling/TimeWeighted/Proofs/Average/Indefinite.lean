import Mathlib
import TimeWeighted.Proofs.Average.Magnitudes
import TimeWeighted.Proofs.Average.Sums

/-!
# Averages that are not a number

An average of observations is a number in general, but not always: an infinite value that holds for
no time gains what is not a number, and a sum that has become infinite meets its opposite.  There is
no other way, as no observation has a value that is not a number, every duration is finite, and the
sums are only divided by finite numbers that are not zero.

* `Clashes` : a sum becomes infinite and meets its opposite.
* `isNaN_foldl` : which sums are not a number.
* `Observation.Indefinite` : the observations whose average is not a number.
* `Observation.Moderate.not_indefinite` : values of moderate size never are among them.
* `Observation.isNaN_average` : **there are no others**, but for none at all.
-/

namespace TimeWeighted

open Float.Model Float.Model.UnpackedFloat

/-! ### Operations -/

theorem isNaN_iff {x : Float} : x.isNaN = true ↔ unpacked x = .notANumber := by
  change (unpacked x).isNaN = true ↔ _
  cases unpacked x <;> simp [UnpackedFloat.isNaN]

theorem isInf_iff {x : Float} : x.isInf = true ↔ ∃ s, unpacked x = .infinity s := by
  change (unpacked x).isInf = true ↔ _
  cases unpacked x <;> simp [UnpackedFloat.isInf]

theorem unpack_packComponents_ne_nan {s : Sign} {x : BitVec 11} {y : BitVec 52}
    (hx : x.toNat ≠ 2047) :
    UnpackedFloat.unpack Format.binary64 (packComponents Format.binary64 s x y) ≠ .notANumber := by
  unfold UnpackedFloat.unpack
  dsimp only
  rw [unpackExponent_packComponents, if_neg fun h => hx (congrArg BitVec.toNat h)]
  split_ifs <;> simp

theorem unpacked_packed_eq_nan (u : UnpackedFloat) :
    unpacked (packed u) = .notANumber ↔ u = .notANumber := by
  cases u with
  | notANumber => simp
  | infinity s => simp
  | zero s => simp
  | finite s m e hm =>
    simp only [reduceCtorEq, iff_false]
    rw [unpacked_packed]
    unfold UnpackedFloat.pack
    dsimp only
    split_ifs with htop hnormal
    · exact (unpacked_packed_infinity s).trans_ne (by simp)
    · refine unpack_packComponents_ne_nan ?_
      rw [BitVec.toNat_ofNat]
      change ¬2048 ≤ _ at htop
      omega
    · exact unpack_packComponents_ne_nan (by decide)

theorem roundWithAccuracy_ne_nan (s : Sign) (m : ℕ) (e : ℤ) (acc : Accuracy) :
    roundWithAccuracy Format.binary64 s m e acc ≠ .notANumber := by
  unfold roundWithAccuracy
  dsimp only
  split <;> simp

theorem normalize_ne_nan (k e : ℤ) (t : Sign) :
    UnpackedFloat.normalize Format.binary64 k e t ≠ .notANumber := by
  rcases normalize_eq k e t with ⟨-, h⟩ | ⟨s, j, -, -, h⟩ <;> rw [h]
  · simp
  · exact roundWithAccuracy_ne_nan _ _ _ _

theorem eq_neg_iff_of_infinity {x y : Float} {s : Sign} (hx : unpacked x = .infinity s) :
    y = -x ↔ unpacked y = .infinity (-s) := by
  rw [neg_eq_packed, hx]
  constructor
  · rintro rfl
    exact unpacked_packed_infinity _
  · intro hy
    rw [← packed_unpacked y, hy]
    rfl

/-- **Sums**: opposite infinities have none. -/
theorem isNaN_add (x y : Float) : (x + y).isNaN = true ↔
    x.isNaN = true ∨ y.isNaN = true ∨ x.isInf = true ∧ y = -x := by
  rw [isNaN_iff, isNaN_iff, isNaN_iff, isInf_iff, add_eq_packed, unpacked_packed_eq_nan]
  cases hx : unpacked x with
  | notANumber => simp [UnpackedFloat.add]
  | infinity s =>
    rw [eq_neg_iff_of_infinity hx]
    cases unpacked y with
    | infinity t => cases s <;> cases t <;> simp [UnpackedFloat.add, Neg.neg]
    | _ => simp [UnpackedFloat.add]
  | zero s =>
    cases unpacked y with
    | zero t => cases s <;> cases t <;> simp [UnpackedFloat.add]
    | _ => simp [UnpackedFloat.add]
  | finite s m e hm =>
    cases unpacked y with
    | finite t n d hn => simp [UnpackedFloat.add, normalize_ne_nan]
    | _ => simp [UnpackedFloat.add]

/-- **Products**: nothing times infinity is none. -/
theorem isNaN_mul {x y : Float} (hy : y.isFinite = true) : (x * y).isNaN = true ↔
    x.isNaN = true ∨ x.isInf = true ∧ signum (unpacked y) = 0 := by
  rw [isNaN_iff, isNaN_iff, isInf_iff, mul_eq_packed, unpacked_packed_eq_nan]
  obtain ⟨t, hy⟩ | ⟨t, n, d, hn, hy⟩ := isFinite_iff.1 hy <;> rw [hy]
  · cases unpacked x <;> simp [UnpackedFloat.mul, signum]
  · have ht : signum (.finite t n d hn) ≠ 0 := by cases t <;> simp [signum]
    cases unpacked x <;> simp [UnpackedFloat.mul, roundWithAccuracy_ne_nan, ht]

/-- **Quotients** by other numbers than zero. -/
theorem isNaN_div {x y : Float} (hy : y.isFinite = true) (h0 : signum (unpacked y) ≠ 0) :
    (x / y).isNaN = true ↔ x.isNaN = true := by
  rw [isNaN_iff, isNaN_iff, div_eq_packed, unpacked_packed_eq_nan]
  obtain ⟨t, hy⟩ | ⟨t, n, d, hn, hy⟩ := isFinite_iff.1 hy <;> rw [hy] at h0 ⊢
  · exact absurd rfl h0
  · cases unpacked x <;> simp [UnpackedFloat.div, roundWithAccuracy_ne_nan]

theorem isNaN_div_ofNat {x : Float} {n : ℕ} (h0 : 0 < n) (h : n < 2 ^ 64) :
    (x / Float.ofNat n).isNaN = true ↔ x.isNaN = true := by
  obtain ⟨m, e, hm, hn, -⟩ := isFull_literal h0 h
  refine isNaN_div ?_ ?_
  · rw [isFinite_eq, hn]
    rfl
  · rw [hn]
    exact one_ne_zero

/-! ### Sums -/

/-- The sum of the start and the first terms is infinite, and the next term is its opposite. -/
def Clashes (start : Float) (terms : List Float) : Prop :=
  ∃ before next after, terms = before ++ next :: after ∧
    (before.foldl (· + ·) start).isInf = true ∧ next = -before.foldl (· + ·) start

theorem not_clashes_nil (start : Float) : ¬Clashes start [] := by
  rintro ⟨before, next, after, heq, -⟩
  simp at heq

theorem clashes_cons (start next : Float) (rest : List Float) :
    Clashes start (next :: rest) ↔
      (start.isInf = true ∧ next = -start) ∨ Clashes (start + next) rest := by
  constructor
  · rintro ⟨_ | ⟨x, before⟩, y, after, heq, hinf, hneg⟩
    · obtain ⟨rfl, rfl⟩ := List.cons.inj heq
      exact .inl ⟨hinf, hneg⟩
    · obtain ⟨rfl, rfl⟩ := List.cons.inj heq
      exact .inr ⟨before, y, after, rfl, hinf, hneg⟩
  · rintro (⟨hinf, hneg⟩ | ⟨before, y, after, rfl, hinf, hneg⟩)
    · exact ⟨[], next, rest, rfl, hinf, hneg⟩
    · exact ⟨next :: before, y, after, rfl, hinf, hneg⟩

/-- **A sum is not a number** if a term is none, or if the infinities clash. -/
theorem isNaN_foldl (start : Float) (terms : List Float) :
    (terms.foldl (· + ·) start).isNaN = true ↔
      start.isNaN = true ∨ (∃ x ∈ terms, x.isNaN = true) ∨ Clashes start terms := by
  induction terms generalizing start with
  | nil => simp [not_clashes_nil]
  | cons next rest ih =>
    rw [List.foldl_cons, ih, isNaN_add, clashes_cons, List.exists_mem_cons_iff]
    grind

theorem not_clashes {c : ℕ} {k : ℤ} {start : Float} {terms : List Float}
    (hstart : Within c k (unpacked start)) (hterms : ∀ x ∈ terms, Within 1 k (unpacked x))
    (hlow : -1074 ≤ k) (hhigh : k ≤ 971) (hcount : c + terms.length < 2 ^ 53) :
    ¬Clashes start terms := by
  rintro ⟨before, next, after, rfl, hinf, -⟩
  rw [List.length_append] at hcount
  have hsum := hstart.foldl (fun x hx => hterms x (List.mem_append_left _ hx)) hlow hhigh (by omega)
  rw [hsum.isInf_eq_false] at hinf
  exact Bool.false_ne_true hinf

/-- What observations gain is a number, unless an infinite value holds for no time. -/
theorem isNaN_gains {latest : Observation} {l : List Observation}
    (hvalid : ∀ o ∈ latest :: l, o.value.isNaN = false) :
    (∃ x ∈ latest.gains l, x.isNaN = true) ↔
      ∃ a b, [a, b] <:+: latest :: l ∧ a.value.isInf = true ∧ a.ts.rounded = b.ts.rounded := by
  induction l generalizing latest with
  | nil =>
    have hnone : ∀ a b : Observation, ¬[a, b] <:+: [latest] := fun a b h => by
      simpa using h.length_le
    simp [Sample.gains, hnone]
  | cons o rest ih =>
    rw [List.forall_mem_cons] at hvalid
    have hgain : (latest.value * duration latest.ts o.ts).isNaN = true ↔
        latest.value.isInf = true ∧ latest.ts.rounded = o.ts.rounded := by
      rw [isNaN_mul (isFinite_duration _ _), signum_duration, sign_eq_zero_iff, sub_eq_zero,
        hvalid.1, eq_comm (a := o.ts.rounded)]
      simp
    rw [Sample.gains, List.exists_mem_cons_iff, hgain, ih hvalid.2]
    constructor
    · rintro (h | ⟨a, b, hab, h⟩)
      · exact ⟨latest, o, (List.prefix_append [latest, o] rest).isInfix, h⟩
      · exact ⟨a, b, List.infix_cons hab, h⟩
    · rintro ⟨a, b, hab, h⟩
      rcases List.infix_cons_iff.1 hab with hab | hab
      · obtain ⟨rfl, hb⟩ := List.cons_prefix_cons.1 hab
        obtain ⟨rfl, -⟩ := List.cons_prefix_cons.1 hb
        exact .inl h
      · exact .inr ⟨a, b, hab, h⟩

namespace Observation

/-- What keeps the average of observations from being a number.  If they take time, it is an
infinite value followed by another one after no time, or infinite parts of the integral that are
opposite; if they take none, it is opposite infinite sums of values. -/
def Indefinite : List Observation → Prop
  | [] => False
  | first :: rest =>
    if first.ts.rounded < (rest.getLastD first).ts.rounded then
      (∃ a b, [a, b] <:+: first :: rest ∧ a.value.isInf = true ∧ a.ts.rounded = b.ts.rounded) ∨
        Clashes (Float.ofInt 0) (first.gains rest)
    else Clashes first.value (rest.map Sample.value)

/-- All values are less than `2 ^ 900`, apart from their signs. -/
def Moderate (l : List Observation) : Prop :=
  ∀ o ∈ l, Below 847 (unpacked o.value)

theorem within_gains {latest : Observation} {l : List Observation} (h : Moderate (latest :: l)) :
    ∀ x ∈ latest.gains l, Within 1 968 (unpacked x) := by
  induction l generalizing latest with
  | nil => nofun
  | cons o rest ih =>
    rw [Moderate, List.forall_mem_cons] at h
    exact List.forall_mem_cons.2
      ⟨h.1.mul (below_duration _ _) (by decide) (by decide), ih h.2⟩

/-- **The average of moderate values is a number.** -/
theorem Moderate.not_indefinite {l : List Observation} (h : Moderate l)
    (hlength : l.length < 2 ^ 52) : ¬Indefinite l := by
  match l with
  | [] => exact not_false
  | first :: rest =>
    have hcount := first.length_gains rest
    rw [List.length_cons] at hlength
    rw [Indefinite]
    split_ifs with htime
    · rintro (⟨a, b, hab, hinf, -⟩ | hclashes)
      · have hfinite := (h a (hab.subset List.mem_cons_self)).within.isInf_eq_false
        rw [hfinite] at hinf
        exact Bool.false_ne_true hinf
      · exact not_clashes (c := 0) (.inl ⟨_, rfl⟩) (within_gains h) (by decide) (by decide)
          (by omega) hclashes
    · refine not_clashes (h first List.mem_cons_self).within ?_ (by decide) (by decide) ?_
      · intro x hx
        obtain ⟨o, ho, rfl⟩ := List.mem_map.1 hx
        exact (h o (List.mem_cons_of_mem _ ho)).within
      · rw [List.length_map]
        omega

/-- **An average is a number**, unless there are no observations or what they say is indefinite. -/
theorem isNaN_average {l : List Observation} (hvalid : ∀ o ∈ l, o.isValid = true)
    (hlength : l.length < 2 ^ 64) :
    (average l).isNaN = true ↔ l = [] ∨ Indefinite l := by
  have hvalue : ∀ o ∈ l, o.value.isNaN = false := fun o ho => by
    simpa using (Bool.and_eq_true_iff.1 (hvalid o ho)).2
  match l with
  | [] => exact iff_of_true (by decide) (.inl rfl)
  | [only] =>
    have hnumber : (average [only]).isNaN = false := hvalue only List.mem_cons_self
    rw [hnumber]
    simp [Indefinite, not_clashes_nil]
  | first :: second :: rest =>
    rw [List.length_cons, List.length_cons] at hlength
    rw [average, average?_cons_cons, or_iff_right (List.cons_ne_nil _ _), Indefinite,
      List.getLastD_cons]
    by_cases htime : first.ts.rounded < (rest.getLastD second).ts.rounded
    · have hpos := (isPositive_duration _ _).2 htime
      have hzero : (Scalar.ofInt 0 : Float).isNaN = false := by decide
      have hspan : signum (unpacked (duration first.ts (rest.getLastD second).ts)) ≠ 0 := by
        rw [(isPositive_iff _).1 hpos]
        decide
      rw [if_pos hpos, if_pos htime, Option.getD_some, isNaN_div (isFinite_duration _ _) hspan,
        isNaN_foldl, isNaN_gains hvalue, hzero, or_iff_right Bool.false_ne_true]
      rfl
    · have hpos := mt (isPositive_duration _ _).1 htime
      have hnone : ¬∃ x ∈ (second :: rest).map Sample.value, x.isNaN = true := by
        rintro ⟨x, hx, hnan⟩
        obtain ⟨o, ho, rfl⟩ := List.mem_map.1 hx
        rw [hvalue o (List.mem_cons_of_mem _ ho)] at hnan
        exact Bool.false_ne_true hnan
      rw [if_neg hpos, if_neg htime, Option.getD_some]
      change (_ / Float.ofNat (rest.length + 2)).isNaN = true ↔ _
      rw [isNaN_div_ofNat (Nat.succ_pos _) (by omega), isNaN_foldl, or_iff_right hnone,
        hvalue first List.mem_cons_self, or_iff_right Bool.false_ne_true]

end Observation

end TimeWeighted
