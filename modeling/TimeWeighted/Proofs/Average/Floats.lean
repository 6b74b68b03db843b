import Mathlib
import TimeWeighted.Proofs.Bytes.FloatBits

/-!
# Floats that are rounded

A float is a sign, a mantissa of at most 53 bits and an exponent, packed into 64 bits; the result of
an operation is rounded until it can be packed.  Rounding and packing make no zero of what is none,
unless it is too small, and never change the sign.

Two facts make averages indifferent to what happens in no time: what is gained in no time is a zero,
or not a number if the value is infinite; and adding a zero changes no sum, because no sum that
starts at zero ever is a negative zero.

* `bounds_of_finite` : the size of mantissas and exponents.
* `round_bounds` : what is left of a number that is rounded.
* `unpacked_packed_finite` : what is left of a number that is packed.
* `mul_zero_of_isFinite`, `mul_zero_of_infinite` : what a value gains in no time.
* `add_of_zero`, `add_ne_negZero` : sums and zeros.
-/

namespace TimeWeighted

open Float.Model Float.Model.UnpackedFloat

/-! ### Floats and their parts -/

/-- The parts of a float. -/
def unpacked (x : Float) : UnpackedFloat :=
  x.toModel.unpack

/-- The float with given parts. -/
def packed (u : UnpackedFloat) : Float :=
  .ofModel (.pack u)

theorem packed_unpacked (x : Float) : packed (unpacked x) = x := by
  obtain ⟨⟨bits, valid⟩⟩ := x
  have h := pack_unpack valid
  show Float.ofModel (Float.Model.pack (UnpackedFloat.unpack _ _)) = _
  congr 1
  simp only [Float.Model.pack, h]

theorem unpacked_packed (u : UnpackedFloat) :
    unpacked (packed u) = UnpackedFloat.unpack Format.binary64 (UnpackedFloat.pack _ u) := rfl

theorem add_eq_packed (x y : Float) :
    x + y = packed (UnpackedFloat.add Format.binary64 (unpacked x) (unpacked y)) := rfl

theorem sub_eq_packed (x y : Float) :
    x - y = packed (UnpackedFloat.sub Format.binary64 (unpacked x) (unpacked y)) := rfl

theorem mul_eq_packed (x y : Float) :
    x * y = packed (UnpackedFloat.mul Format.binary64 (unpacked x) (unpacked y)) := rfl

theorem div_eq_packed (x y : Float) :
    x / y = packed (UnpackedFloat.div Format.binary64 (unpacked x) (unpacked y)) := rfl

theorem neg_eq_packed (x : Float) : -x = packed (unpacked x).neg := rfl

theorem isFinite_eq (x : Float) : x.isFinite = (unpacked x).isFinite := rfl

theorem isFinite_iff {x : Float} : x.isFinite = true ↔
    (∃ s, unpacked x = .zero s) ∨ ∃ s m e hm, unpacked x = .finite s m e hm := by
  rw [isFinite_eq]
  cases unpacked x with
  | finite s m e hm => simp [UnpackedFloat.isFinite, hm]
  | _ => simp [UnpackedFloat.isFinite]

@[simp] theorem unpacked_packed_nan : unpacked (packed .notANumber) = .notANumber := rfl

@[simp] theorem unpacked_packed_zero (s : Sign) : unpacked (packed (.zero s)) = .zero s := by
  cases s <;> rfl

@[simp] theorem unpacked_packed_infinity (s : Sign) :
    unpacked (packed (.infinity s)) = .infinity s := by
  cases s <;> rfl

/-- No float has a longer mantissa, nor an exponent that is smaller or larger. -/
theorem bounds_of_finite {x : Float} {s : Sign} {m : ℕ} {e : ℤ} {hm : 0 < m}
    (h : unpacked x = .finite s m e hm) : m < 2 ^ 53 ∧ -1074 ≤ e ∧ e ≤ 971 := by
  have hbias : Format.binary64.exponentBias = 1023 := by decide
  unfold unpacked Float.Model.unpack UnpackedFloat.unpack at h
  dsimp only at h
  generalize x.toModel.toBits.toBitVec = b at h
  have hmantissa : (@unpackMantissa Format.binary64 b).toNat < 2 ^ 52 := BitVec.isLt _
  have hexponent : (@unpackExponent Format.binary64 b).toNat < 2 ^ 11 := BitVec.isLt _
  rw [hbias] at h
  split_ifs at h with htop _ hzero
  · obtain ⟨-, rfl, rfl⟩ := UnpackedFloat.finite.inj h
    rw [hzero]
    change _ ∧ _ ≤ ((0 : ℕ) : ℤ) - _ + 1 ∧ ((0 : ℕ) : ℤ) - _ + 1 ≤ _
    omega
  · obtain ⟨-, rfl, rfl⟩ := UnpackedFloat.finite.inj h
    have hleading := toNat_leading (@unpackMantissa Format.binary64 b)
    rw [← BitVec.toNat_inj] at htop hzero
    change ¬_ = 2047 at htop
    change ¬_ = 0 at hzero
    omega

/-! ### Rounding -/

theorem mantissa_shiftRight (em : ExtendedMantissa) (k : ℕ) :
    (em >>> k).mantissa = em.mantissa / 2 ^ k := by
  induction k with
  | zero => simp [HShiftRight.hShiftRight, Nat.repeat]
  | succ k ih =>
    change (em >>> k).mantissa / 2 = _
    rw [ih, Nat.div_div_eq_div_mul, pow_succ]

theorem mantissa_ofMantissaAndAccuracy (m : ℕ) (acc : Accuracy) :
    (ExtendedMantissa.ofMantissaAndAccuracy m acc).mantissa = m := by
  cases acc with
  | exact => rfl
  | inexact o => cases o <;> rfl

theorem roundedMantissa_bounds (em : ExtendedMantissa) :
    em.mantissa ≤ em.roundedMantissa ∧ em.roundedMantissa ≤ em.mantissa + 1 := by
  unfold ExtendedMantissa.roundedMantissa
  cases em.accuracy with
  | exact => exact ⟨le_rfl, Nat.le_succ _⟩
  | inexact o => cases o <;> simp only [Accuracy.roundToNearestEven] <;> omega

theorem targetExponent_eq (t : ℤ) : Format.binary64.targetExponent t = max (t - 53) (-1074) := rfl

/-- By how much a mantissa is shifted. -/
def shift (m : ℕ) (e : ℤ) : ℕ :=
  (Format.binary64.targetExponent (totalExponent m e) - e).toNat

theorem add_shift (m : ℕ) (e : ℤ) :
    e + shift m e = max (max e (e + m.log2 - 52)) (-1074) := by
  rw [shift, targetExponent_eq, totalExponent]
  omega

theorem shifted_lt (m : ℕ) (e : ℤ) : m / 2 ^ shift m e < 2 ^ 53 := by
  have hshift := add_shift m e
  rw [Nat.div_lt_iff_lt_mul (Nat.two_pow_pos _), ← pow_add]
  exact (Nat.lt_log2_self (n := m)).trans_le (Nat.pow_le_pow_right (by decide) (by omega))

theorem shifted_pos {m : ℕ} {e : ℤ} (hm : 0 < m) (he : -1074 ≤ e) : 0 < m / 2 ^ shift m e := by
  have hshift := add_shift m e
  exact Nat.div_pos ((Nat.pow_le_pow_right (by decide) (by omega)).trans
    (Nat.log2_self_le hm.ne')) (Nat.two_pow_pos _)

/-- A mantissa is shifted and rounded, and shifted again as rounding may give it one bit more. -/
theorem roundWithAccuracy_eq (s : Sign) {m r : ℕ} {e : ℤ} {acc : Accuracy}
    (hr : (ExtendedMantissa.ofMantissaAndAccuracy m acc >>> shift m e).roundedMantissa = r) :
    roundWithAccuracy Format.binary64 s m e acc =
      if h : r / 2 ^ shift r (e + shift m e) = 0 then .zero s
      else .finite s (r / 2 ^ shift r (e + shift m e))
        (e + shift m e + shift r (e + shift m e)) (Nat.pos_of_ne_zero h) := by
  subst hr
  unfold roundWithAccuracy shiftToTargetExponent shiftToExponent
  simp only [mantissa_shiftRight, mantissa_ofMantissaAndAccuracy]
  rfl

/-- **Rounding** leaves 53 bits and hardly raises the exponent.  Only what has too small an exponent
is rounded to zero. -/
theorem round_bounds (s : Sign) (m : ℕ) (e : ℤ) (acc : Accuracy) :
    (roundWithAccuracy Format.binary64 s m e acc = .zero s ∧ (0 < m → e < -1074)) ∨
      ∃ m' e' hm, roundWithAccuracy Format.binary64 s m e acc = .finite s m' e' hm ∧
        m' < 2 ^ 53 ∧ -1074 ≤ e' ∧ e' ≤ max (max e (e + m.log2 - 52)) (-1074) + 1 := by
  obtain ⟨r, hr⟩ : ∃ r, (ExtendedMantissa.ofMantissaAndAccuracy m acc >>> shift m e).roundedMantissa
    = r := ⟨_, rfl⟩
  have hbounds :=
    roundedMantissa_bounds (ExtendedMantissa.ofMantissaAndAccuracy m acc >>> shift m e)
  rw [mantissa_shiftRight, mantissa_ofMantissaAndAccuracy, hr] at hbounds
  obtain ⟨hle, hge⟩ := hbounds
  have hlt := shifted_lt m e
  have hlog : r.log2 ≤ 53 := by
    rcases Nat.eq_zero_or_pos r with rfl | hr0
    · simp
    · exact Nat.le_of_lt_succ ((Nat.log2_lt hr0.ne').2 (by omega))
  rw [roundWithAccuracy_eq s hr]
  split_ifs with hzero
  · -- a mantissa that is not zero stays so through both shifts
    refine .inl ⟨rfl, fun hm => ?_⟩
    by_contra he
    have hr : 0 < r := (shifted_pos hm (not_lt.1 he)).trans_le hle
    exact (shifted_pos hr (by omega)).ne' hzero
  · refine .inr ⟨_, _, Nat.pos_of_ne_zero hzero, rfl, shifted_lt r _, ?_, ?_⟩
    · rw [add_shift]
      exact le_max_right _ _
    · have hfirst := add_shift m e
      rw [add_shift r, ← hfirst]
      omega

/-! ### Packing -/

theorem unpackSign_packComponents {s : Sign} {x : BitVec 11} {y : BitVec 52} :
    Sign.ofBitVec (unpackSign (packComponents Format.binary64 s x y)) = s := by
  have hbits : unpackSign (packComponents Format.binary64 s x y) = s.toBitVec := by
    ext i hi
    obtain rfl : i = 0 := by omega
    rw [← BitVec.getLsbD_eq_getElem, ← BitVec.getLsbD_eq_getElem]
    simp only [unpackSign, packComponents, Format.binary64, BitVec.getLsbD_cast,
      BitVec.getLsbD_extractLsb, BitVec.getLsbD_append]
    simp
  rw [hbits]
  cases s <;> rfl

theorem unpack_normal (b : BitVec Format.binary64.numBits) {x : BitVec 11} {y : BitVec 52}
    (hx : unpackExponent b = x) (hy : unpackMantissa b = y) (h0 : x.toNat ≠ 0)
    (h1 : x.toNat ≠ 2047) :
    ∃ e hpos, UnpackedFloat.unpack Format.binary64 b =
      .finite (.ofBitVec (unpackSign b)) (2 ^ 52 + y.toNat) e hpos ∧ e = x.toNat - 1075 := by
  have hbias : Format.binary64.exponentBias = 1023 := by decide
  have hpos : 0 < 2 ^ 52 + y.toNat := by omega
  subst hx hy
  unfold UnpackedFloat.unpack
  dsimp only
  rw [if_neg fun h => h1 (congrArg BitVec.toNat h), if_neg fun h => h0 (congrArg BitVec.toNat h),
    hbias]
  simp only [toNat_leading]
  exact ⟨_, hpos, rfl, by omega⟩

theorem unpack_subnormal (b : BitVec Format.binary64.numBits) {y : BitVec 52}
    (hx : unpackExponent b = 0#11) (hy : unpackMantissa b = y) (hpos : 0 < y.toNat) :
    UnpackedFloat.unpack Format.binary64 b =
      .finite (.ofBitVec (unpackSign b)) y.toNat (-1074) hpos := by
  have hbias : Format.binary64.exponentBias = 1023 := by decide
  subst hy
  unfold UnpackedFloat.unpack
  dsimp only
  rw [if_neg (by rw [hx]; decide), if_pos hx,
    dif_neg fun h => hpos.ne' (congrArg BitVec.toNat h), hx, hbias]
  rfl

/-- **Packing** keeps a mantissa of at most 53 bits, unless the exponent is too large.  It keeps the
exponent of one that has all of them. -/
theorem unpacked_packed_finite (s : Sign) {m : ℕ} {e : ℤ} (hm : 0 < m) (hlt : m < 2 ^ 53)
    (he : -1074 ≤ e) :
    (971 < e ∧ unpacked (packed (.finite s m e hm)) = .infinity s) ∨
      ∃ e' ≤ e, (2 ^ 52 ≤ m → e' = e) ∧
        unpacked (packed (.finite s m e hm)) = .finite s m e' hm := by
  have hbias : Format.binary64.exponentBias = 1023 := by decide
  have hbits : Format.binary64.mantissaBits = 53 := by decide
  rw [unpacked_packed]
  unfold UnpackedFloat.pack
  dsimp only
  rw [hbias, hbits]
  split_ifs with htop hnormal
  · exact .inl ⟨by omega, unpacked_packed_infinity s⟩
  · -- a normal number: the leading bit is dropped, and put back by unpacking
    right
    have hle : 2 ^ 52 ≤ m := (Nat.le_log2 hm.ne').1 (by omega)
    have hmantissa : 2 ^ 52 + (BitVec.ofNat 52 m).toNat = m := by
      rw [BitVec.toNat_ofNat]
      omega
    have hexponent : (BitVec.ofNat 11 (e + (1023 : ℕ) + (52 : ℕ)).toNat).toNat =
        (e + 1075).toNat := by
      rw [BitVec.toNat_ofNat]
      omega
    obtain ⟨e', hpos, h, he'⟩ := unpack_normal (packComponents Format.binary64 s _ _)
      unpackExponent_packComponents unpackMantissa_packComponents (hexponent.trans_ne (by omega))
      (hexponent.trans_ne (by omega))
    refine ⟨e', by omega, fun _ => by omega, h.trans ?_⟩
    simp only [hmantissa, unpackSign_packComponents]
  · -- a smaller number is taken to have the least exponent, whatever it had
    right
    have hlog := (Nat.log2_lt hm.ne').2 hlt
    have hsmall : m < 2 ^ 52 := (Nat.log2_lt hm.ne').1 (by omega)
    have hmantissa : (BitVec.ofNat 52 m).toNat = m := Nat.mod_eq_of_lt hsmall
    have h := unpack_subnormal (packComponents Format.binary64 s _ _)
      unpackExponent_packComponents unpackMantissa_packComponents (hm.trans_eq hmantissa.symm)
    refine ⟨-1074, he, fun hle => absurd hsmall hle.not_gt, h.trans ?_⟩
    simp only [hmantissa, unpackSign_packComponents]

theorem unpacked_packed_round (s : Sign) {m : ℕ} {e : ℤ} (hm : 0 < m) (he : -1074 ≤ e)
    (acc : Accuracy) :
    unpacked (packed (roundWithAccuracy Format.binary64 s m e acc)) = .infinity s ∨
      ∃ m' e' hm', unpacked (packed (roundWithAccuracy Format.binary64 s m e acc)) =
        .finite s m' e' hm' := by
  rcases round_bounds s m e acc with ⟨-, hlow⟩ | ⟨m', e', hm', hfinite, hlt, hge, -⟩
  · exact absurd (hlow hm) he.not_gt
  · rw [hfinite]
    exact (unpacked_packed_finite s hm' hlt hge).imp And.right
      fun ⟨e'', _, _, h⟩ => ⟨m', e'', hm', h⟩

/-! ### Whole numbers -/

/-- A whole number that is not zero is rounded, after bits were added if it has too few. -/
theorem normalize_eq (k e : ℤ) (t : Sign) :
    (k = 0 ∧ UnpackedFloat.normalize Format.binary64 k e t = .zero t) ∨
      ∃ (s : Sign) (j : ℕ), 0 < s.apply k ∧ (-1074 ≤ e → -1074 ≤ e - j) ∧
        UnpackedFloat.normalize Format.binary64 k e t =
          roundWithAccuracy Format.binary64 s (k.natAbs <<< j) (e - j) .exact := by
  have hlow : ∀ m : ℕ, -1074 ≤ e →
      -1074 ≤ e - ((e - Format.binary64.targetExponent (totalExponent m e)).toNat : ℕ) := by
    intro m he
    rw [targetExponent_eq]
    omega
  unfold UnpackedFloat.normalize
  split
  · next h =>
    have hneg := Int.compare_eq_lt.1 h
    rw [show (-k).toNat = k.natAbs by omega]
    exact .inr ⟨.negative, _, Int.neg_pos.2 hneg, hlow _, rfl⟩
  · next h => exact .inl ⟨Int.compare_eq_eq.1 h, rfl⟩
  · next h =>
    have hpos := Int.compare_eq_gt.1 h
    rw [show k.toNat = k.natAbs by omega]
    exact .inr ⟨.positive, _, hpos, hlow _, rfl⟩

theorem natAbs_apply (s : Sign) (k : ℤ) : (s.apply k).natAbs = k.natAbs := by
  cases s
  · exact Int.natAbs_neg k
  · rfl

theorem unpacked_packed_normalize (k : ℤ) {e : ℤ} (he : -1074 ≤ e) (t : Sign) :
    (k = 0 ∧ unpacked (packed (UnpackedFloat.normalize Format.binary64 k e t)) = .zero t) ∨
      ∃ s : Sign, 0 < s.apply k ∧
        (unpacked (packed (UnpackedFloat.normalize Format.binary64 k e t)) = .infinity s ∨
          ∃ m' e' hm', unpacked (packed (UnpackedFloat.normalize Format.binary64 k e t)) =
            .finite s m' e' hm') := by
  rcases normalize_eq k e t with ⟨hzero, h⟩ | ⟨s, j, hpos, hlow, h⟩
  · rw [h]
    exact .inl ⟨hzero, unpacked_packed_zero t⟩
  · have hnat := natAbs_apply s k
    rw [h]
    refine .inr ⟨s, hpos, unpacked_packed_round s ?_ (hlow he) .exact⟩
    rw [Nat.shiftLeft_eq]
    exact Nat.mul_pos (by omega) (Nat.two_pow_pos j)

/-! ### Numbers that are not too large -/

/-- A zero, or a number of at most 53 bits whose exponent is at most `k`. -/
def Below (k : ℤ) (u : UnpackedFloat) : Prop :=
  (∃ s, u = .zero s) ∨ ∃ s m e hm, u = .finite s m e hm ∧ m < 2 ^ 53 ∧ e ≤ k

theorem Below.isFinite {k : ℤ} {x : Float} (h : Below k (unpacked x)) : x.isFinite = true := by
  rw [isFinite_eq]
  rcases h with ⟨s, hx⟩ | ⟨s, m, e, hm, hx, -⟩ <;> rw [hx] <;> rfl

theorem below_packed_finite {s : Sign} {m : ℕ} {e k : ℤ} {hm : 0 < m} (hlt : m < 2 ^ 53)
    (hlow : -1074 ≤ e) (he : e ≤ k) (hhigh : k ≤ 971) :
    Below k (unpacked (packed (.finite s m e hm))) := by
  rcases unpacked_packed_finite s hm hlt hlow with ⟨htop, -⟩ | ⟨e', he', -, h⟩
  · omega
  · exact .inr ⟨s, m, e', hm, h, hlt, he'.trans he⟩

theorem below_round {s : Sign} {m : ℕ} {e k : ℤ} {acc : Accuracy} (he : e < k)
    (hm : e + m.log2 - 52 < k) (hlow : -1074 < k) (hhigh : k ≤ 971) :
    Below k (unpacked (packed (roundWithAccuracy Format.binary64 s m e acc))) := by
  rcases round_bounds s m e acc with ⟨hzero, -⟩ | ⟨m', e', hm', hfinite, hlt, hge, hle⟩
  · rw [hzero]
    exact .inl ⟨s, unpacked_packed_zero s⟩
  · rw [hfinite]
    exact below_packed_finite hlt hge (by omega) hhigh

/-! ### Zeros -/

theorem sub_self_of_isFinite {x : Float} (h : x.isFinite) : x - x = packed (.zero .positive) := by
  rw [sub_eq_packed]
  obtain ⟨s, hx⟩ | ⟨s, m, e, hm, hx⟩ := isFinite_iff.1 h <;> rw [hx]
  · cases s <;> rfl
  · simp [UnpackedFloat.sub, UnpackedFloat.normalize]

/-- In no time a finite value gains a zero. -/
theorem mul_zero_of_isFinite {x : Float} (h : x.isFinite) :
    ∃ s, unpacked (x * packed (.zero .positive)) = .zero s := by
  rw [mul_eq_packed, unpacked_packed_zero]
  obtain ⟨s, hx⟩ | ⟨s, m, e, hm, hx⟩ := isFinite_iff.1 h <;>
    exact ⟨s * .positive, by rw [hx, UnpackedFloat.mul, unpacked_packed_zero]⟩

/-- In no time any other value gains what is not a number. -/
theorem mul_zero_of_infinite {x : Float} (h : ¬ x.isFinite) :
    x * packed (.zero .positive) = packed .notANumber := by
  rw [isFinite_eq] at h
  rw [mul_eq_packed, unpacked_packed_zero]
  cases hx : unpacked x with
  | notANumber => rfl
  | infinity s => rfl
  | zero s => simp [hx, UnpackedFloat.isFinite] at h
  | finite s m e hm => simp [hx, UnpackedFloat.isFinite] at h

theorem add_nan (x : Float) : x + packed .notANumber = packed .notANumber := by
  rw [add_eq_packed, unpacked_packed_nan]
  cases unpacked x <;> rfl

/-- Adding a zero changes nothing but a negative zero. -/
theorem add_of_zero {x y : Float} (hx : unpacked x ≠ .zero .negative) {s : Sign}
    (hy : unpacked y = .zero s) : x + y = x := by
  rw [add_eq_packed, hy]
  conv_rhs => rw [← packed_unpacked x]
  cases h : unpacked x with
  | zero t =>
    cases t with
    | negative => exact absurd h hx
    | positive => cases s <;> rfl
  | _ => rfl

/-- **A sum is a negative zero only if both its terms are.** -/
theorem add_ne_negZero {x y : Float} (hx : unpacked x ≠ .zero .negative) :
    unpacked (x + y) ≠ .zero .negative := by
  -- what is not finite prevails, and zeros leave the other term as it is
  cases hy : unpacked y with
  | zero s => rwa [add_of_zero hx hy]
  | notANumber =>
    rw [← packed_unpacked y, hy, add_nan, unpacked_packed_nan]
    nofun
  | infinity s =>
    rw [add_eq_packed, hy]
    cases hx' : unpacked x with
    | infinity t =>
      simp only [UnpackedFloat.add]
      split_ifs <;> simp
    | _ => simp [UnpackedFloat.add]
  | finite s m e hm =>
    rw [add_eq_packed, hy]
    cases hx' : unpacked x with
    | notANumber => simp [UnpackedFloat.add]
    | infinity t => simp [UnpackedFloat.add]
    | zero t =>
      simp only [UnpackedFloat.add]
      rw [← hy, packed_unpacked, hy]
      simp
    | finite t n d hn =>
      have hlow := (bounds_of_finite hy).2.1
      have hlow' := (bounds_of_finite hx').2.1
      simp only [UnpackedFloat.add]
      generalize t.apply _ + _ = k
      rcases unpacked_packed_normalize k (show -1074 ≤ min d e by omega) .positive with
        ⟨-, h⟩ | ⟨s', -, h | ⟨_, _, _, h⟩⟩ <;> rw [h] <;> nofun

end TimeWeighted
