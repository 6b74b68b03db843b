import Mathlib
import TimeWeighted.Observation
import TimeWeighted.Proofs.Average.Floats

/-!
# Whole numbers as floats

A whole number of more than 53 bits is rounded when a float is made of it: to the nearest number
that has 53 bits before its trailing zeros, and to the even one of two that are equally near.

* `halfEven` : fractions, rounded to the nearest whole number.
* `nearest`, `Timestamp.rounded` : whole numbers and timestamps, rounded to 53 bits.
* `nearest_mono`, `nearest_near` : rounding keeps the order, and moves no number far.
* `roundedMantissa_exact` : dropping bits one by one comes to the same.
* `real` : what a float stands for.
* `Timestamp.real_toFloat` : **a timestamp is rounded to the nearest float.**
-/

namespace TimeWeighted

open Float.Model Float.Model.UnpackedFloat

variable {n n' d c m k : ℕ} {s : Sign} {e : ℤ}

/-! ### Rounding to even -/

/-- The whole number nearest to a fraction, and the even one of two that are equally near. -/
def halfEven (n d : ℕ) : ℕ :=
  if 2 * (n % d) < d then n / d
  else if 2 * (n % d) = d then n / d + n / d % 2
  else n / d + 1

theorem halfEven_mul (n : ℕ) (hd : 0 < d) : halfEven (n * d) d = n := by
  rw [halfEven, Nat.mul_mod_left, if_pos hd, Nat.mul_div_cancel n hd]

theorem halfEven_scale (n d : ℕ) (hc : 0 < c) : halfEven (n * c) (d * c) = halfEven n d := by
  rw [halfEven, halfEven, Nat.mul_mod_mul_right, Nat.mul_div_mul_right n d hc, ← Nat.mul_assoc]
  simp only [Nat.mul_lt_mul_right hc, Nat.mul_left_inj hc.ne']

theorem halfEven_mono (d : ℕ) (h : n ≤ n') : halfEven n d ≤ halfEven n' d := by
  have hdiv := Nat.div_add_mod n d
  have hdiv' := Nat.div_add_mod n' d
  rcases (Nat.div_le_div_right (c := d) h).eq_or_lt with heq | hlt
  · -- between the same two whole numbers, what is left over decides
    have hmod : n % d ≤ n' % d := by
      rw [heq] at hdiv
      omega
    unfold halfEven
    rw [heq]
    split_ifs <;> omega
  · unfold halfEven
    split_ifs <;> omega

theorem halfEven_near (n : ℕ) (hd : 0 < d) :
    2 * n ≤ 2 * (halfEven n d * d) + d ∧ 2 * (halfEven n d * d) ≤ 2 * n + d := by
  have hdiv := Nat.div_add_mod' n d
  have hmod := Nat.mod_lt n hd
  unfold halfEven
  split_ifs with hless hhalf
  · omega
  · rcases Nat.mod_two_eq_zero_or_one (n / d) with h | h <;> rw [h] <;> simp only [Nat.add_mul] <;>
      omega
  · rw [Nat.add_mul]
    omega

/-! ### Whole numbers of 53 bits -/

/-- The distance of floats from each other at a whole number, or one if it is less. -/
def spacing (n : ℕ) : ℕ :=
  2 ^ (n.log2 - 52)

/-- The float nearest to a whole number. -/
def nearest (n : ℕ) : ℕ :=
  halfEven n (spacing n) * spacing n

theorem spacing_pos (n : ℕ) : 0 < spacing n :=
  Nat.two_pow_pos _

theorem nearest_of_lt (h : n < 2 ^ 53) : nearest n = n := by
  have hspacing : spacing n = 1 := by
    rcases Nat.eq_zero_or_pos n with rfl | hn
    · rfl
    · have hlog := (Nat.log2_lt hn.ne').2 h
      rw [spacing, Nat.sub_eq_zero_of_le (by omega), pow_zero]
  have hone := halfEven_mul n Nat.one_pos
  rw [Nat.mul_one] at hone
  rw [nearest, hspacing, hone, Nat.mul_one]

theorem log2_mul_two_pow (hn : n ≠ 0) (k : ℕ) : (n * 2 ^ k).log2 = n.log2 + k := by
  rw [Nat.log2_eq_iff (Nat.mul_ne_zero hn (Nat.two_pow_pos k).ne'), pow_add, Nat.add_right_comm,
    pow_add _ (n.log2 + 1)]
  exact ⟨Nat.mul_le_mul_right _ (Nat.log2_self_le hn),
    (Nat.mul_lt_mul_right (Nat.two_pow_pos k)).2 Nat.lt_log2_self⟩

theorem nearest_mul_two_pow (hn : 2 ^ 52 ≤ n) (k : ℕ) :
    nearest (n * 2 ^ k) = nearest n * 2 ^ k := by
  have hn0 : n ≠ 0 := by
    rintro rfl
    exact absurd hn (by decide)
  have hlog : 52 ≤ n.log2 := (Nat.le_log2 hn0).2 hn
  have hspacing : spacing (n * 2 ^ k) = spacing n * 2 ^ k := by
    rw [spacing, spacing, ← pow_add, log2_mul_two_pow hn0]
    congr 1
    omega
  rw [nearest, nearest, hspacing, halfEven_scale _ _ (Nat.two_pow_pos k), Nat.mul_assoc]

theorem nearest_of_le (h : n ≤ 2 ^ 53) : nearest n = n := by
  rcases h.eq_or_lt with rfl | hlt
  · exact (nearest_mul_two_pow le_rfl 1).trans (by rw [nearest_of_lt (by decide)]; rfl)
  · exact nearest_of_lt hlt

theorem nearest_bounds (hn : n ≠ 0) : 2 ^ n.log2 ≤ nearest n ∧ nearest n ≤ 2 ^ (n.log2 + 1) := by
  have hmul : ∀ j, n.log2 ≤ j → 2 ^ (j - (n.log2 - 52)) * spacing n = 2 ^ j := fun j hj => by
    rw [spacing, ← pow_add]
    congr 1
    omega
  have hnear : ∀ j, n.log2 ≤ j → halfEven (2 ^ j) (spacing n) * spacing n = 2 ^ j := fun j hj => by
    rw [← hmul j hj, halfEven_mul _ (spacing_pos n)]
  have hlow := halfEven_mono (spacing n) (Nat.log2_self_le hn)
  have hhigh := halfEven_mono (spacing n) (Nat.lt_log2_self (n := n)).le
  rw [← hnear _ le_rfl, ← hnear _ (Nat.le_succ _)]
  exact ⟨Nat.mul_le_mul_right _ hlow, Nat.mul_le_mul_right _ hhigh⟩

/-- **Rounding keeps the order.** -/
theorem nearest_mono (h : n ≤ n') : nearest n ≤ nearest n' := by
  rcases Nat.eq_zero_or_pos n with rfl | hn
  · exact Nat.zero_le _
  have hlog : n.log2 ≤ n'.log2 :=
    (Nat.le_log2 (hn.trans_le h).ne').2 ((Nat.log2_self_le hn.ne').trans h)
  rcases hlog.eq_or_lt with heq | hlt
  · have hspacing : spacing n = spacing n' := by rw [spacing, heq, spacing]
    rw [nearest, nearest, hspacing]
    exact Nat.mul_le_mul_right _ (halfEven_mono _ h)
  · exact (nearest_bounds hn.ne').2.trans ((Nat.pow_le_pow_right (by decide) hlt).trans
      (nearest_bounds (hn.trans_le h).ne').1)

/-- **Rounding moves no number by more than half the distance of floats.** -/
theorem nearest_near (n : ℕ) :
    2 * n ≤ 2 * nearest n + spacing n ∧ 2 * nearest n ≤ 2 * n + spacing n :=
  halfEven_near n (spacing_pos n)

theorem nearest_near_of_le (h : n ≤ 2 ^ 63) : n ≤ nearest n + 512 ∧ nearest n ≤ n + 512 := by
  rcases h.eq_or_lt with rfl | hlt
  · have hpow : nearest (2 ^ 52 * 2 ^ 11) = nearest (2 ^ 52) * 2 ^ 11 :=
      nearest_mul_two_pow le_rfl 11
    rw [nearest_of_lt (n := 2 ^ 52) (by decide), ← pow_add] at hpow
    rw [hpow]
    omega
  · have hspacing : spacing n ≤ 2 ^ 10 := by
      refine Nat.pow_le_pow_right (by decide) ?_
      rcases Nat.eq_zero_or_pos n with rfl | hn
      · decide
      · have hlog := (Nat.log2_lt hn.ne').2 hlt
        omega
    have hnear := nearest_near n
    omega

/-! ### What is shifted out -/

/-- What is left of a mantissa when bits are dropped: whether they are a half at least is one bit,
and whether they are anything but a half or nothing is another one. -/
theorem shiftRight_exact (m k : ℕ) :
    ExtendedMantissa.ofMantissaAndAccuracy m .exact >>> k =
      ⟨m / 2 ^ k, decide (2 ^ k ≤ 2 * (m % 2 ^ k)), decide (2 * (m % 2 ^ k) % 2 ^ k ≠ 0)⟩ := by
  induction k with
  | zero =>
    simp [ExtendedMantissa.ofMantissaAndAccuracy, HShiftRight.hShiftRight, Nat.repeat, Nat.mod_one]
  | succ k ih =>
    change (ExtendedMantissa.ofMantissaAndAccuracy m .exact >>> k).shiftRightOne = _
    have hpos : 0 < 2 ^ k := Nat.two_pow_pos k
    have hlt : m % 2 ^ k < 2 ^ k := Nat.mod_lt m hpos
    have hmod : m % 2 ^ (k + 1) = m % 2 ^ k + 2 ^ k * (m / 2 ^ k % 2) := by
      rw [pow_succ, Nat.mod_mul]
    have hdouble : 2 ^ (k + 1) = 2 * 2 ^ k := Nat.pow_succ'
    rw [ih, ExtendedMantissa.shiftRightOne, ExtendedMantissa.mk.injEq]
    refine ⟨?_, ?_, ?_⟩
    · rw [Nat.div_div_eq_div_mul, pow_succ]
    · rw [hmod, hdouble]
      rcases Nat.mod_two_eq_zero_or_one (m / 2 ^ k) with hbit | hbit <;> simp [hbit]
      omega
    · have hrest : 2 * (m % 2 ^ (k + 1)) % 2 ^ (k + 1) = 2 * (m % 2 ^ k) := by
        rw [hmod, hdouble, Nat.mul_mod_mul_left, Nat.add_mul_mod_self_left, Nat.mod_mod]
      rw [hrest, ← Bool.decide_or, decide_eq_decide]
      rcases le_or_gt (2 ^ k) (2 * (m % 2 ^ k)) with hle | hgt
      · omega
      · rw [Nat.mod_eq_of_lt hgt]
        omega

/-- **Shifting and rounding** a mantissa is a division. -/
theorem roundedMantissa_exact (m k : ℕ) :
    (ExtendedMantissa.ofMantissaAndAccuracy m .exact >>> k).roundedMantissa =
      halfEven m (2 ^ k) := by
  have hlt : m % 2 ^ k < 2 ^ k := Nat.mod_lt m (Nat.two_pow_pos k)
  have hmod : 2 ^ k ≤ 2 * (m % 2 ^ k) → 2 * (m % 2 ^ k) % 2 ^ k = 2 * (m % 2 ^ k) - 2 ^ k :=
    fun hle => by rw [Nat.mod_eq_sub_mod hle, Nat.mod_eq_of_lt (by omega)]
  rw [shiftRight_exact, ExtendedMantissa.roundedMantissa, halfEven]
  rcases lt_trichotomy (2 * (m % 2 ^ k)) (2 ^ k) with h | h | h
  · rw [decide_eq_false h.not_ge, if_pos h]
    cases decide (2 * (m % 2 ^ k) % 2 ^ k ≠ 0) <;> rfl
  · simp [ExtendedMantissa.accuracy, h, Accuracy.roundToNearestEven]
  · have hrest := hmod h.le
    rw [decide_eq_true h.le, decide_eq_true (by omega), if_neg h.not_gt, if_neg h.ne']
    rfl

/-! ### Floats of 53 bits -/

/-- The number that the parts of a float stand for, zero if they stand for none. -/
def real : UnpackedFloat → ℚ
  | .finite s m e _ => s.apply m * 2 ^ e
  | .zero _ | .infinity _ | .notANumber => 0

/-- A number with all 53 bits of a mantissa, an exponent of at most `k` and a given absolute
value. -/
def IsFull (k : ℤ) (u : UnpackedFloat) (s : Sign) (q : ℚ) : Prop :=
  ∃ m e hm, u = .finite s m e hm ∧ 2 ^ 52 ≤ m ∧ e ≤ k ∧ (m : ℚ) * 2 ^ e = q

theorem IsFull.real_eq {k : ℤ} {u : UnpackedFloat} {q : ℚ} (h : IsFull k u s q) :
    real u = s.apply 1 * q := by
  obtain ⟨m, e, hm, rfl, -, -, rfl⟩ := h
  cases s <;> simp [real, Sign.apply]

/-- A long mantissa has 53 bits left when the rest is rounded away, or is the next power of two. -/
theorem halfEven_spacing_bounds (hm : m ≠ 0) (hlog : 52 ≤ m.log2) :
    2 ^ 52 ≤ halfEven m (spacing m) ∧ halfEven m (spacing m) ≤ 2 ^ 53 := by
  have h := nearest_bounds hm
  have hpow : 2 ^ m.log2 = 2 ^ 52 * spacing m := by
    rw [spacing, ← pow_add]
    congr 1
    omega
  rw [pow_succ, hpow, nearest, Nat.mul_right_comm] at h
  exact ⟨Nat.le_of_mul_le_mul_right h.1 (spacing_pos m),
    Nat.le_of_mul_le_mul_right h.2 (spacing_pos m)⟩

/-- One more bit is dropped if there is one too many after rounding, and it is zero then. -/
theorem exists_shift_eq {r : ℕ} (hr : 2 ^ 52 ≤ r ∧ r ≤ 2 ^ 53) (hlow : -1074 ≤ e) :
    ∃ t, shift r e = t ∧ t ≤ 1 ∧ r / 2 ^ t * 2 ^ t = r ∧ 2 ^ 52 ≤ r / 2 ^ t ∧
      r / 2 ^ t < 2 ^ 53 := by
  have hlast := add_shift r e
  rcases hr.2.eq_or_lt with rfl | hlt
  · have hlogr : (2 ^ 53).log2 = 53 := Nat.log2_two_pow
    refine ⟨1, ?_, le_rfl, by norm_num, by norm_num, by norm_num⟩
    omega
  · have hlogr : r.log2 = 52 := (Nat.log2_eq_iff (by omega)).2 ⟨hr.1, hlt⟩
    refine ⟨0, ?_, Nat.zero_le 1, by simp, by simpa using hr.1, by simpa using hlt⟩
    omega

/-- **A long mantissa is rounded to 53 bits.** -/
theorem isFull_round {k : ℤ} (hm : 2 ^ 52 ≤ m) (hlow : -1074 ≤ e + m.log2 - 52)
    (hk : e + m.log2 - 52 < k) (hhigh : k ≤ 971) :
    IsFull k (unpacked (packed (roundWithAccuracy Format.binary64 s m e .exact))) s
      (nearest m * 2 ^ e) := by
  have hm0 : m ≠ 0 := by
    rintro rfl
    exact absurd hm (by decide)
  have hlog : 52 ≤ m.log2 := (Nat.le_log2 hm0).2 hm
  have hshift : shift m e = m.log2 - 52 := by
    have := add_shift m e
    omega
  have hbounds := halfEven_spacing_bounds hm0 hlog
  obtain ⟨r, hr⟩ : ∃ r, halfEven m (spacing m) = r := ⟨_, rfl⟩
  rw [hr] at hbounds
  obtain ⟨t, ht, hle, hdvd, hpos, hlt⟩ := exists_shift_eq (e := e + shift m e) hbounds (by omega)
  have hround := roundedMantissa_exact m (shift m e)
  rw [hshift, ← spacing, hr, ← hshift] at hround
  rw [roundWithAccuracy_eq s hround, ht, dif_neg (by omega)]
  have hpos0 : 0 < r / 2 ^ t := by omega
  rcases unpacked_packed_finite s hpos0 hlt (e := e + shift m e + t) (by omega) with
    ⟨htop, -⟩ | ⟨e', -, he', hunpacked⟩
  · omega
  · rw [he' hpos] at hunpacked
    refine ⟨_, _, hpos0, hunpacked, hpos, by omega, ?_⟩
    have hnearest : nearest m = r / 2 ^ t * 2 ^ t * 2 ^ shift m e := by
      rw [nearest, hr, hdvd, spacing, hshift]
    rw [hnearest, zpow_add₀ two_ne_zero, zpow_add₀ two_ne_zero, zpow_natCast, zpow_natCast]
    push_cast
    ring

theorem IsFull.mono {k k' : ℤ} {u : UnpackedFloat} {q : ℚ} (h : IsFull k u s q) (hk : k ≤ k') :
    IsFull k' u s q := by
  obtain ⟨m, e, hm, hu, hle, he, hq⟩ := h
  exact ⟨m, e, hm, hu, hle, he.trans hk, hq⟩

theorem isFull_ofNat (h0 : 0 < n) (h : n < 2 ^ 53) :
    IsFull 1 (unpacked (packed (UnpackedFloat.ofNat Format.binary64 n))) .positive n := by
  have hlog : n.log2 < 53 := (Nat.log2_lt h0.ne').2 h
  obtain ⟨k, hk⟩ : ∃ k, k = 52 - n.log2 := ⟨_, rfl⟩
  have hlogk : (n * 2 ^ k).log2 = 52 := by
    rw [log2_mul_two_pow h0.ne']
    omega
  have hbounds := (Nat.log2_eq_iff (by positivity)).1 hlogk
  have hshift : (0 - Format.binary64.targetExponent (totalExponent n 0)).toNat = k := by
    rw [targetExponent_eq, totalExponent]
    omega
  have hround : UnpackedFloat.ofNat Format.binary64 n =
      roundWithAccuracy Format.binary64 .positive (n * 2 ^ k) (-k) .exact := by
    unfold UnpackedFloat.ofNat UnpackedFloat.ofInt UnpackedFloat.normalize
    rw [Int.compare_eq_gt.2 (by omega)]
    unfold UnpackedFloat.round decreaseExponent
    dsimp only
    rw [Int.toNat_natCast, hshift, Nat.shiftLeft_eq, zero_sub]
  have hfull := isFull_round (s := .positive) (e := -k) (k := 1) hbounds.1 (by omega) (by omega)
    (by decide)
  rw [nearest_of_lt hbounds.2] at hfull
  rw [hround]
  convert hfull using 1
  rw [zpow_neg, zpow_natCast, Nat.cast_mul, Nat.cast_pow, Nat.cast_ofNat,
    mul_inv_cancel_right₀ (by positivity)]

theorem IsFull.mul_one {k : ℤ} {x : Float} {q : ℚ} (h : IsFull k (unpacked x) s q) (hk : k < 971) :
    IsFull (k + 1) (unpacked (x * Float.ofBits 0x3ff0000000000000)) s q := by
  have hone : unpacked (Float.ofBits 0x3ff0000000000000) =
      .finite .positive (2 ^ 52) (-52) (by decide) := rfl
  obtain ⟨m, e, hm, hx, hle, he, rfl⟩ := h
  obtain ⟨hlt, hlow, -⟩ := bounds_of_finite hx
  have hlog : (m * 2 ^ 52).log2 = 104 := by
    rw [log2_mul_two_pow hm.ne', (Nat.log2_eq_iff hm.ne').2 ⟨hle, hlt⟩]
  have hfull := isFull_round (m := m * 2 ^ 52) (s := s * .positive) (e := e + -52) (k := k + 1)
    (by omega) (by omega) (by omega) (by omega)
  rw [mul_eq_packed, hone, hx]
  rw [nearest_mul_two_pow hle, nearest_of_lt hlt] at hfull
  have hsign : s * .positive = s := by cases s <;> rfl
  have hvalue : ((m * 2 ^ 52 : ℕ) : ℚ) * 2 ^ (e + -52) = m * 2 ^ e := by
    rw [zpow_add₀ two_ne_zero]
    push_cast
    norm_num
    ring
  rw [hsign, hvalue] at hfull
  rw [UnpackedFloat.mul, hsign]
  exact hfull

theorem IsFull.neg {k : ℤ} {x : Float} {q : ℚ} (h : IsFull k (unpacked x) s q) :
    IsFull k (unpacked (-x)) (-s) q := by
  obtain ⟨m, e, hm, hx, hle, he, rfl⟩ := h
  obtain ⟨hlt, hlow, hhigh⟩ := bounds_of_finite hx
  rw [neg_eq_packed, hx]
  rcases unpacked_packed_finite (-s) hm hlt hlow with ⟨htop, -⟩ | ⟨e', -, he', hneg⟩
  · omega
  · obtain rfl := he' hle
    exact ⟨m, e', hm, hneg, hle, he, rfl⟩

/-- **A literal is rounded to the nearest float.**  Small ones are converted and multiplied by one,
the others are scaled by a power of ten, which is one as well. -/
theorem isFull_literal (h0 : 0 < n) (h : n < 2 ^ 64) :
    IsFull 13 (unpacked (Float.ofNat n)) .positive (nearest n) := by
  change IsFull 13 (unpacked (Float.ofScientific n false 0)) .positive (nearest n)
  unfold Float.ofScientific
  split
  · next hsmall =>
    have hconvert : IsFull 1 (unpacked n.toUInt64.toFloat) .positive n := by
      change IsFull 1 (unpacked (packed (.ofNat Format.binary64 n.toUInt64.toNat))) _ _
      rw [show n.toUInt64.toNat = n from UInt64.toNat_ofNat_of_lt h]
      exact isFull_ofNat h0 hsmall.1
    rw [nearest_of_lt hsmall.1]
    exact (hconvert.mul_one (by decide)).mono (by decide)
  · next hlarge =>
    have hle : 2 ^ 53 ≤ n := by omega
    have hlog : 53 ≤ n.log2 ∧ n.log2 < 64 :=
      ⟨(Nat.le_log2 h0.ne').2 hle, (Nat.log2_lt h0.ne').2 h⟩
    have hbits : (2 : ℤ) ^ Format.binary64.exponentBits = 2048 := rfl
    have hmantissa : Format.binary64.mantissaBits = 53 := rfl
    have hlogm := log2_mul_two_pow h0.ne' 53
    have hfull := isFull_round (m := n * 2 ^ 53) (s := .positive) (e := -53) (k := 13)
      (by omega) (by omega) (by omega) (by decide)
    change IsFull 13 (unpacked (packed (UnpackedFloat.ofScientific Format.binary64 n 0))) _ _
    unfold UnpackedFloat.ofScientific
    rw [dif_neg (by omega), if_neg (by rw [hbits]; decide), if_neg (by rw [hbits]; omega),
      if_pos le_rfl]
    have hvalue : (nearest (n * 2 ^ 53) : ℚ) * 2 ^ (-53 : ℤ) = nearest n := by
      rw [nearest_mul_two_pow (by omega), zpow_neg, Nat.cast_mul, Nat.cast_pow, Nat.cast_ofNat]
      exact mul_inv_cancel_right₀ (by positivity) _
    rw [hvalue] at hfull
    simp only [UnpackedFloat.mul, Int.toNat_zero, pow_zero, Nat.mul_one, add_zero, hmantissa,
      Nat.shiftLeft_eq]
    exact hfull

/-! ### Timestamps -/

namespace Timestamp

/-- The float nearest to a timestamp, as a whole number. -/
def rounded (ts : Timestamp) : ℤ :=
  ts.toInt.sign * nearest ts.toInt.natAbs

theorem toFloat_of_eq_zero {ts : Timestamp} (h : ts.toInt = 0) :
    unpacked ts.toFloat = .zero .positive := by
  rw [toFloat, h]
  rfl

theorem isFull_toFloat {ts : Timestamp} (h : ts.toInt ≠ 0) :
    ∃ s : Sign, IsFull 13 (unpacked ts.toFloat) s (nearest ts.toInt.natAbs) ∧
      s.apply 1 = ts.toInt.sign := by
  have hlt := ts.toInt_lt
  have hle := ts.le_toInt
  unfold toFloat
  cases hts : ts.toInt with
  | ofNat n =>
    rw [hts, Int.ofNat_eq_natCast] at h hlt
    exact ⟨.positive, isFull_literal (by omega) (by omega),
      (Int.sign_natCast_of_ne_zero (by omega)).symm⟩
  | negSucc n =>
    rw [hts] at hle
    exact ⟨.negative, (isFull_literal (by omega) (by omega)).neg, rfl⟩

theorem rounded_of_nonneg {ts : Timestamp} (h : 0 ≤ ts.toInt) :
    rounded ts = nearest ts.toInt.natAbs := by
  rcases h.eq_or_lt with hzero | hpos
  · rw [rounded, ← hzero]
    rfl
  · rw [rounded, Int.sign_eq_one_of_pos hpos, one_mul]

theorem rounded_of_neg {ts : Timestamp} (h : ts.toInt < 0) :
    rounded ts = -nearest ts.toInt.natAbs := by
  rw [rounded, Int.sign_eq_neg_one_of_neg h, neg_one_mul]

theorem rounded_mono {a b : Timestamp} (h : a ≤ b) : rounded a ≤ rounded b := by
  have hle := Int64.le_iff_toInt_le.1 h
  rcases lt_or_ge a.toInt 0 with ha | ha <;> rcases lt_or_ge b.toInt 0 with hb | hb
  · have hmono : nearest b.toInt.natAbs ≤ nearest a.toInt.natAbs := nearest_mono (by omega)
    rw [rounded_of_neg ha, rounded_of_neg hb]
    omega
  · rw [rounded_of_neg ha, rounded_of_nonneg hb]
    omega
  · omega
  · have hmono : nearest a.toInt.natAbs ≤ nearest b.toInt.natAbs := nearest_mono (by omega)
    rw [rounded_of_nonneg ha, rounded_of_nonneg hb]
    omega

theorem rounded_of_le {ts : Timestamp} (h : ts.toInt.natAbs ≤ 2 ^ 53) : rounded ts = ts.toInt := by
  rcases lt_or_ge ts.toInt 0 with hts | hts
  · rw [rounded_of_neg hts, nearest_of_le h]
    omega
  · rw [rounded_of_nonneg hts, nearest_of_le h]
    omega

theorem rounded_near (ts : Timestamp) :
    rounded ts ≤ ts.toInt + 512 ∧ ts.toInt ≤ rounded ts + 512 := by
  have hle := ts.le_toInt
  have hlt := ts.toInt_lt
  have hnear := nearest_near_of_le (n := ts.toInt.natAbs) (by omega)
  rcases lt_or_ge ts.toInt 0 with hts | hts
  · rw [rounded_of_neg hts]
    omega
  · rw [rounded_of_nonneg hts]
    omega

/-- **A timestamp is rounded to the nearest float.** -/
theorem real_toFloat (ts : Timestamp) : real (unpacked ts.toFloat) = rounded ts := by
  by_cases h : ts.toInt = 0
  · rw [toFloat_of_eq_zero h, rounded, h]
    rfl
  · obtain ⟨s, hfull, hsign⟩ := isFull_toFloat h
    rw [hfull.real_eq, hsign, rounded]
    push_cast
    rfl

theorem below_toFloat (ts : Timestamp) : Below 13 (unpacked ts.toFloat) := by
  by_cases h : ts.toInt = 0
  · exact .inl ⟨_, toFloat_of_eq_zero h⟩
  · obtain ⟨s, ⟨m, e, hm, hunpacked, -, he, -⟩, -⟩ := isFull_toFloat h
    exact .inr ⟨s, m, e, hm, hunpacked, (bounds_of_finite hunpacked).1, he⟩

/-- **A timestamp is a finite float.** -/
theorem isFinite_toFloat (ts : Timestamp) : ts.toFloat.isFinite = true :=
  (below_toFloat ts).isFinite

end Timestamp

end TimeWeighted
