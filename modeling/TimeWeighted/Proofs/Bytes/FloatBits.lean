import Mathlib

/-!
# The bits of a float

A float is written to memory as its 64 bits and read back from them.  Every float, the infinities,
both zeros and the one `NaN` included, survives that; and so do all bits but those that stand for no
number, of which there are many.

* `packComponents_of_bits` : 64 bits are their sign, exponent and mantissa, put together.
* `pack_unpack` : the value that valid bits stand for is packed into these bits.
* `ofBits_toBits` : **a float is given back by its bits.**
* `IsNaNBits` : the bits that stand for no number.
* `toBits_ofBits`, `isNaN_ofBits` : **all other bits are given back by their float**, and these are
  read as a value that is not a number.
-/

namespace TimeWeighted

open Float.Model Float.Model.UnpackedFloat

theorem toBitVec_ofBitVec (b : BitVec 1) : (Sign.ofBitVec b).toBitVec = b := by
  revert b
  decide

theorem packComponents_of_bits (b : BitVec Format.binary64.numBits) :
    packComponents Format.binary64 (.ofBitVec (unpackSign b)) (unpackExponent b)
      (unpackMantissa b) = b := by
  apply BitVec.eq_of_getLsbD_eq
  intro i hi
  change i < 64 at hi
  simp only [packComponents, toBitVec_ofBitVec, BitVec.getLsbD_append, unpackSign, unpackExponent,
    unpackMantissa, Format.binary64, BitVec.getLsbD_cast, BitVec.getLsbD_extractLsb]
  split
  · next h => simp; omega
  · next h =>
    split
    · have hi' : 52 + (i - 52) = i := by omega
      simp [hi']; omega
    · have hi' : 52 + 11 + (i - 52 - 11) = i := by omega
      simp [hi']; omega

theorem pack_subnormal (s : Sign) (m : BitVec 52) (hm : 0 < m.toNat) {e : Int} (he : e = -1074) :
    UnpackedFloat.pack Format.binary64 (.finite s m.toNat e hm) =
      packComponents Format.binary64 s 0#11 m := by
  subst he
  have hlog : m.toNat.log2 < 52 := (Nat.log2_lt (by omega)).2 m.isLt
  have hbias : Format.binary64.exponentBias = 1023 := by decide
  unfold UnpackedFloat.pack
  dsimp only
  rw [if_neg (by rw [hbias]; decide), if_neg (by simp only [Format.mantissaBits]; omega)]
  simp

theorem toNat_leading (m : BitVec 52) : (1#1 ++ m).toNat = 2 ^ 52 + m.toNat := by
  rw [BitVec.toNat_append, ← Nat.shiftLeft_add_eq_or_of_lt m.isLt]
  rfl

theorem pack_normal (s : Sign) (e : BitVec 11) (m : BitVec 52) (h0 : e ≠ 0#11) (h1 : e ≠ -1#11)
    (hm : 0 < (1#1 ++ m).toNat) :
    UnpackedFloat.pack Format.binary64 (.finite s (1#1 ++ m).toNat (e.toNat - 1075) hm) =
      packComponents Format.binary64 s e m := by
  have hlt := m.isLt
  have he := e.isLt
  have hval := toNat_leading m
  have hlog : (2 ^ 52 + m.toNat).log2 = 52 := by
    rw [Nat.log2_eq_iff (by omega)]
    omega
  have hbias : Format.binary64.exponentBias = 1023 := by decide
  have he0 : e.toNat ≠ 0 := fun h => h0 (BitVec.eq_of_toNat_eq h)
  have he1 : e.toNat ≠ 2047 := fun h => h1 (BitVec.eq_of_toNat_eq h)
  have hexp : ((e.toNat : Int) - 1075 + (1023 : Nat) + (52 : Nat)).toNat = e.toNat := by omega
  unfold UnpackedFloat.pack
  dsimp only
  rw [hbias, hexp, if_neg (by omega), if_pos (by rw [hval, hlog]; rfl), hval]
  congr 1
  · simp
  · apply BitVec.eq_of_toNat_eq
    simp only [BitVec.toNat_ofNat]
    omega

/-- Unpacking and packing changes no valid bits.  Of all patterns of a `NaN` only one is valid. -/
theorem pack_unpack {b : BitVec Format.binary64.numBits} (h : Format.binary64.Valid b) :
    UnpackedFloat.pack Format.binary64 (UnpackedFloat.unpack Format.binary64 b) = b := by
  have parts := packComponents_of_bits b
  have hbias : Format.binary64.exponentBias = 1023 := by decide
  unfold UnpackedFloat.unpack
  dsimp only
  split
  · next htop =>
    split
    · next hm =>
      rw [htop, hm] at parts
      exact parts
    · next hm => exact (h.eq_packedNaN htop hm).symm
  · next htop =>
    split
    · next hzero =>
      rw [hzero] at parts
      split
      · next hm =>
        rw [hm] at parts
        exact parts
      · next hm =>
        refine (pack_subnormal _ _ _ ?_).trans parts
        rw [hzero, hbias]
        rfl
    · next hzero => exact (pack_normal _ _ _ hzero htop _).trans parts

/-- **A float is given back by its bits.** -/
theorem ofBits_toBits (x : Float) : Float.ofBits x.toBits = x := by
  obtain ⟨⟨bits, valid⟩⟩ := x
  show Float.ofModel (Float.Model.pack _) = _
  congr 1
  simp only [Float.Model.pack, Float.toBits, pack_unpack valid]

/-! ### Bits that stand for no number -/

/-- The bits of a value that is not a number: the exponent is the greatest there is, and the
mantissa is not zero. -/
def IsNaNBits (bits : UInt64) : Prop :=
  0x7ff0000000000000 < bits.toNat % 2 ^ 63

instance (bits : UInt64) : Decidable (IsNaNBits bits) :=
  inferInstanceAs (Decidable (_ < _))

theorem toNat_unpackExponent (b : BitVec Format.binary64.numBits) :
    (unpackExponent b).toNat = b.toNat / 2 ^ 52 % 2 ^ 11 := by
  simp [unpackExponent, Format.binary64, BitVec.extractLsb, BitVec.extractLsb',
    Nat.shiftRight_eq_div_pow]

theorem toNat_unpackMantissa (b : BitVec Format.binary64.numBits) :
    (unpackMantissa b).toNat = b.toNat % 2 ^ 52 := by
  simp [unpackMantissa, Format.binary64, BitVec.extractLsb, BitVec.extractLsb']

theorem isNaNBits_iff (bits : UInt64) : IsNaNBits bits ↔
    @unpackExponent Format.binary64 bits.toBitVec = -1#11 ∧
      @unpackMantissa Format.binary64 bits.toBitVec ≠ 0#52 := by
  have hexponent := @toNat_unpackExponent bits.toBitVec
  have hmantissa := @toNat_unpackMantissa bits.toBitVec
  rw [UInt64.toNat_toBitVec] at hexponent hmantissa
  rw [IsNaNBits, ne_eq, ← BitVec.toNat_inj, ← BitVec.toNat_inj, hexponent, hmantissa]
  change _ ↔ _ = 2047 ∧ ¬_ = 0
  omega

theorem valid_of_not_isNaNBits {bits : UInt64} (h : ¬IsNaNBits bits) :
    Format.binary64.Valid bits.toBitVec :=
  ⟨fun htop hm => absurd ((isNaNBits_iff bits).2 ⟨htop, hm⟩) h⟩

theorem unpack_eq_nan_iff (bits : UInt64) :
    UnpackedFloat.unpack Format.binary64 bits.toBitVec = .notANumber ↔ IsNaNBits bits := by
  rw [isNaNBits_iff]
  unfold UnpackedFloat.unpack
  dsimp only
  split_ifs with htop hm <;> simp_all

/-- **Bits are given back by their float**, unless they stand for no number. -/
theorem toBits_ofBits {bits : UInt64} (h : ¬IsNaNBits bits) : (Float.ofBits bits).toBits = bits :=
  UInt64.toBitVec_inj.1 (pack_unpack (valid_of_not_isNaNBits h))

/-- Bits that stand for no number are read as a value that is not a number, and no others are. -/
theorem isNaN_ofBits (bits : UInt64) : (Float.ofBits bits).isNaN = true ↔ IsNaNBits bits := by
  have hunpack : (Float.ofBits bits).isNaN = (UnpackedFloat.unpack Format.binary64
      (UnpackedFloat.pack Format.binary64 (.unpack Format.binary64 bits.toBitVec))).isNaN := rfl
  rw [hunpack, ← unpack_eq_nan_iff]
  by_cases h : IsNaNBits bits
  · rw [(unpack_eq_nan_iff bits).2 h]
    exact iff_of_true rfl rfl
  · rw [pack_unpack (valid_of_not_isNaNBits h)]
    cases UnpackedFloat.unpack Format.binary64 bits.toBitVec <;> simp [UnpackedFloat.isNaN]

end TimeWeighted
