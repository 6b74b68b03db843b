import Mathlib
import TimeWeighted.Average
import TimeWeighted.Proofs.Average.Rounding

/-!
# Durations

The time between two timestamps is a difference of floats.  A difference may be rounded, but it has
the sign of the exact one, and it is zero only if the exact one is.  Therefore time has passed
exactly if the timestamps are still told apart, and in order, after they were rounded.

* `signum` : the sign of a float.
* `signum_sub` : **a difference has the sign of the exact difference.**
* `isPositive_duration` : when time passes.
* `isFinite_duration`, `duration_self` : a duration is finite, and zero at one instant.
-/

namespace TimeWeighted

open Float.Model Float.Model.UnpackedFloat

/-! ### Signs -/

/-- The sign of a float, zero for what is not a number. -/
def signum : UnpackedFloat → SignType
  | .infinity .positive | .finite .positive _ _ _ => 1
  | .infinity .negative | .finite .negative _ _ _ => -1
  | .zero _ | .notANumber => 0

theorem isPositive_iff (x : Float) : Scalar.isPositive x = true ↔ signum (unpacked x) = 1 := by
  have hzero : unpacked 0.0 = .zero .positive := rfl
  have hlt : Scalar.isPositive x = true ↔ UnpackedFloat.lt (unpacked 0.0) (unpacked x) = true :=
    -- the comparison is decided twice, of floats and of their models
    (show decide ((0.0 : Float) < x) = true ↔ _ from decide_eq_true_iff).trans decide_eq_true_iff
  rw [hlt, hzero]
  rcases unpacked x with ⟨_ | _⟩ | _ | ⟨_ | _⟩ | ⟨_ | _, m, e, hm⟩ <;>
    simp only [UnpackedFloat.lt, UnpackedFloat.compare, signum] <;> decide

theorem sign_mul_two_zpow (q : ℚ) (e : ℤ) : SignType.sign (q * 2 ^ e) = SignType.sign q := by
  rw [sign_mul, sign_pos (zpow_pos two_pos e), mul_one]

theorem signum_eq_sign {u : UnpackedFloat} (h : u.isFinite = true) :
    signum u = SignType.sign (real u) := by
  cases u with
  | infinity s => cases h
  | notANumber => cases h
  | zero s => exact sign_zero.symm
  | finite s m e hm =>
    rw [real, sign_mul_two_zpow, sign_intCast]
    cases s with
    | positive => exact (sign_pos (Int.natCast_pos.2 hm)).symm
    | negative => exact (sign_neg (Int.neg_neg_of_pos (Int.natCast_pos.2 hm))).symm

theorem signum_normalize (k : ℤ) {e : ℤ} (he : -1074 ≤ e) (t : Sign) :
    signum (unpacked (packed (UnpackedFloat.normalize Format.binary64 k e t))) =
      SignType.sign k := by
  rcases unpacked_packed_normalize k he t with ⟨rfl, h⟩ | ⟨s, hpos, h⟩
  · rw [h]
    exact sign_zero.symm
  · cases s with
    | positive =>
      have hk : 0 < k := hpos
      rw [sign_pos hk]
      rcases h with h | ⟨m, e', hm, h⟩ <;> rw [h] <;> rfl
    | negative =>
      have hk : k < 0 := Int.neg_pos.1 hpos
      rw [sign_neg hk]
      rcases h with h | ⟨m, e', hm, h⟩ <;> rw [h] <;> rfl

theorem signum_packed_finite (s : Sign) {m : ℕ} {e : ℤ} (hm : 0 < m) (hlt : m < 2 ^ 53)
    (he : -1074 ≤ e) :
    signum (unpacked (packed (.finite s m e hm))) = signum (.finite s m e hm) := by
  rcases unpacked_packed_finite s hm hlt he with ⟨-, h⟩ | ⟨e', -, -, h⟩ <;> rw [h] <;>
    cases s <;> rfl

theorem real_finite (s : Sign) {m : ℕ} {e d : ℤ} (hm : 0 < m) (hd : d ≤ e) :
    real (.finite s m e hm) = (s.apply (m <<< (e - d).toNat : ℕ) : ℤ) * 2 ^ d := by
  have hexponent : (e : ℤ) = (e - d).toNat + d := by omega
  have hscale : (m : ℚ) * 2 ^ e = (m <<< (e - d).toNat : ℕ) * 2 ^ d := by
    rw [Nat.shiftLeft_eq, Nat.cast_mul, Nat.cast_pow, Nat.cast_ofNat, mul_assoc, ← zpow_natCast,
      ← zpow_add₀ two_ne_zero, ← hexponent]
  cases s with
  | positive => simp only [real, Sign.apply, Int.cast_natCast, hscale]
  | negative => simp only [real, Sign.apply, Int.cast_neg, Int.cast_natCast, neg_mul, hscale]

/-- **A difference has the sign of the exact difference.** -/
theorem signum_sub {x y : Float} (hx : x.isFinite = true) (hy : y.isFinite = true) :
    signum (unpacked (x - y)) = SignType.sign (real (unpacked x) - real (unpacked y)) := by
  rw [sub_eq_packed]
  obtain ⟨s, hx⟩ | ⟨s, m, e, hm, hx⟩ := isFinite_iff.1 hx <;>
    obtain ⟨t, hy⟩ | ⟨t, n, d, hn, hy⟩ := isFinite_iff.1 hy <;> rw [hx, hy]
  · have hsame : real (.zero s) - real (.zero t) = 0 := sub_zero _
    rw [hsame, sign_zero]
    cases s <;> cases t <;> rfl
  · obtain ⟨hlt, hlow, -⟩ := bounds_of_finite hy
    have hneg : real (.finite (-t) n d hn) = -real (.finite t n d hn) := by
      cases t <;> simp [real, Sign.apply]
    rw [UnpackedFloat.sub, signum_packed_finite _ hn hlt hlow, signum_eq_sign rfl, hneg]
    exact congrArg SignType.sign (zero_sub _).symm
  · obtain ⟨hlt, hlow, -⟩ := bounds_of_finite hx
    have hsub : UnpackedFloat.sub Format.binary64 (.finite s m e hm) (.zero t) =
        .finite s m e hm := rfl
    rw [hsub, signum_packed_finite _ hm hlt hlow, signum_eq_sign rfl]
    exact congrArg SignType.sign (sub_zero _).symm
  · -- at the smaller of the two exponents the mantissas are subtracted as whole numbers
    have hlow := (bounds_of_finite hx).2.1
    have hlow' := (bounds_of_finite hy).2.1
    rw [real_finite s hm (min_le_left e d), real_finite t hn (min_le_right e d), ← sub_mul,
      ← Int.cast_sub, sign_mul_two_zpow, sign_intCast]
    exact signum_normalize _ (by omega) .positive

/-! ### Sizes -/

theorem below_normalize {k e K : ℤ} (t : Sign) (he : e < K) (hk : e + k.natAbs.log2 - 52 < K)
    (hlow : -1074 < K) (hhigh : K ≤ 971) :
    Below K (unpacked (packed (UnpackedFloat.normalize Format.binary64 k e t))) := by
  rcases normalize_eq k e t with ⟨-, h⟩ | ⟨s, j, hpos, -, h⟩
  · rw [h]
    exact .inl ⟨t, unpacked_packed_zero t⟩
  · have hnat := natAbs_apply s k
    rw [h]
    refine below_round (by omega) ?_ hlow hhigh
    rw [Nat.shiftLeft_eq, log2_mul_two_pow (by omega)]
    omega

theorem log2_natAbs_sub_lt (s t : Sign) {m n j : ℕ} (hm : m < 2 ^ j) (hn : n < 2 ^ j) :
    (s.apply m - t.apply n).natAbs.log2 < j + 1 := by
  have hlt : (s.apply m - t.apply n).natAbs < 2 ^ (j + 1) := by
    rw [pow_succ]
    cases s <;> cases t <;> simp only [Sign.apply] <;> omega
  rcases Nat.eq_zero_or_pos (s.apply m - t.apply n).natAbs with hzero | hpos
  · rw [hzero]
    exact Nat.succ_pos j
  · exact (Nat.log2_lt hpos.ne').2 hlt

theorem Below.sub {k : ℤ} {x y : Float} (hx : Below k (unpacked x)) (hy : Below k (unpacked y))
    (hlow : -1074 ≤ k) (hhigh : k ≤ 969) : Below (k + 2) (unpacked (x - y)) := by
  rw [sub_eq_packed]
  rcases hx with ⟨s, hx⟩ | ⟨s, m, e, hm, hx, hlt, hle⟩ <;>
    rcases hy with ⟨t, hy⟩ | ⟨t, n, d, hn, hy, hlt', hle'⟩
  · rw [hx, hy]
    cases s <;> cases t <;> exact .inl ⟨_, unpacked_packed_zero _⟩
  · have hlow' := (bounds_of_finite hy).2.1
    rw [hx, hy, UnpackedFloat.sub]
    exact below_packed_finite hlt' hlow' (by omega) (by omega)
  · have hlow' := (bounds_of_finite hx).2.1
    have hsub : UnpackedFloat.sub Format.binary64 (.finite s m e hm) (.zero t) =
        .finite s m e hm := rfl
    rw [hx, hy, hsub]
    exact below_packed_finite hlt hlow' (by omega) (by omega)
  · -- at the smaller exponent both mantissas take as many bits more as their exponents were larger
    have hbits : ∀ {m : ℕ} {c : ℤ}, m < 2 ^ 53 → c ≤ k →
        m <<< (c - min e d).toNat < 2 ^ (53 + (k - min e d).toNat) := by
      intro m c hm hc
      rw [Nat.shiftLeft_eq, pow_add]
      exact Nat.mul_lt_mul_of_lt_of_le hm (Nat.pow_le_pow_right (by decide) (by omega))
        (Nat.two_pow_pos _)
    rw [hx, hy, UnpackedFloat.sub]
    refine below_normalize _ (by omega) ?_ (by omega) (by omega)
    have hlog := log2_natAbs_sub_lt s t (hbits hlt hle) (hbits hlt' hle')
    omega

/-! ### Durations -/

/-- **A duration has the sign of the time that has passed**, once the timestamps are rounded. -/
theorem signum_duration (a b : Timestamp) :
    signum (unpacked (duration a b)) = SignType.sign (b.rounded - a.rounded) := by
  have hsub := signum_sub b.isFinite_toFloat a.isFinite_toFloat
  rw [Timestamp.real_toFloat, Timestamp.real_toFloat, ← Int.cast_sub, sign_intCast] at hsub
  exact hsub

/-- **When time passes**: if the timestamps are still in order after they were rounded. -/
theorem isPositive_duration (a b : Timestamp) :
    Scalar.isPositive (duration a b : Float) = true ↔ a.rounded < b.rounded := by
  rw [isPositive_iff, signum_duration, sign_eq_one_iff, sub_pos]

theorem below_duration (a b : Timestamp) : Below 15 (unpacked (duration a b)) :=
  b.below_toFloat.sub a.below_toFloat (by decide) (by decide)

/-- **A duration is finite.** -/
theorem isFinite_duration (a b : Timestamp) : (duration a b : Float).isFinite = true :=
  (below_duration a b).isFinite

/-- **No time passes at one instant.** -/
theorem duration_self (ts : Timestamp) : duration ts ts = packed (.zero .positive) :=
  sub_self_of_isFinite ts.isFinite_toFloat

end TimeWeighted
