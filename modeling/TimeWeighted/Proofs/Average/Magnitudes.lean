import Mathlib
import TimeWeighted.Proofs.Average.Durations

/-!
# Magnitudes of sums

Every term that is added to a sum may make it larger by as much as the largest term, and hardly by
more because sums are rounded: if the terms are at most `2 ^ k`, the sum of `n` of them is at most
`n * 2 ^ k`, as long as that is a float itself.

* `Within` : numbers of absolute value at most `c * 2 ^ k`.
* `within_round` : **rounding does not pass a float.**
* `Below.mul`, `Within.add`, `Within.foldl` : **products and sums.**
-/

namespace TimeWeighted

open Float.Model Float.Model.UnpackedFloat

/-- A zero, or a number of absolute value at most `c * 2 ^ k`. -/
def Within (c : ℕ) (k : ℤ) (u : UnpackedFloat) : Prop :=
  (∃ s, u = .zero s) ∨
    ∃ s m e hm, u = .finite s m e hm ∧ e ≤ k ∧ m ≤ c * 2 ^ (k - e).toNat

variable {c d m : ℕ} {e k : ℤ} {s : Sign} {x y : Float}

theorem Within.isInf_eq_false (h : Within c k (unpacked x)) : x.isInf = false := by
  change (unpacked x).isInf = false
  rcases h with ⟨s, hx⟩ | ⟨s, m, e, hm, hx, -⟩ <;> rw [hx] <;> rfl

theorem le_mul_of_exponent_le {j : ℕ} (hj : e + j ≤ k) :
    c * 2 ^ (k - e).toNat = c * 2 ^ (k - (e + j)).toNat * 2 ^ j := by
  rw [Nat.mul_assoc, ← pow_add]
  congr 2
  omega

theorem shiftLeft_le {a : ℤ} (ha : a ≤ e) (he : e ≤ k) (hm : m ≤ c * 2 ^ (k - e).toNat) :
    m <<< (e - a).toNat ≤ c * 2 ^ (k - a).toNat := by
  have hexponent : a + (e - a).toNat = e := by omega
  rw [le_mul_of_exponent_le (e := a) (hexponent.trans_le he), hexponent, Nat.shiftLeft_eq]
  exact Nat.mul_le_mul_right _ hm

/-! ### Rounding -/

theorem add_shift_le (hc : c < 2 ^ 53) (hlow : -1074 ≤ k) (he : e ≤ k)
    (hm : m ≤ c * 2 ^ (k - e).toNat) : e + shift m e ≤ k := by
  have hlog : m.log2 < 53 + (k - e).toNat := by
    rcases Nat.eq_zero_or_pos m with rfl | hpos
    · exact Nat.add_pos_left (by decide) _
    · refine (Nat.log2_lt hpos.ne').2 (hm.trans_lt ?_)
      rw [pow_add]
      exact Nat.mul_lt_mul_of_pos_right hc (Nat.two_pow_pos _)
  rw [add_shift]
  omega

theorem within_packed_finite (hm : 0 < m) (hlt : m < 2 ^ 53) (hlow : -1074 ≤ e) (he : e ≤ k)
    (hhigh : k ≤ 971) (hle : m ≤ c * 2 ^ (k - e).toNat) :
    Within c k (unpacked (packed (.finite s m e hm))) := by
  rcases unpacked_packed_finite s hm hlt hlow with ⟨htop, -⟩ | ⟨e', he', -, h⟩
  · omega
  · refine .inr ⟨s, m, e', hm, h, he'.trans he, hle.trans (Nat.mul_le_mul_left c ?_)⟩
    exact Nat.pow_le_pow_right (by decide) (by omega)

/-- **Rounding does not pass a float.** -/
theorem within_round (hc : c < 2 ^ 53) (hlow : -1074 ≤ k) (hhigh : k ≤ 971) (he : e ≤ k)
    (hm : m ≤ c * 2 ^ (k - e).toNat) :
    Within c k (unpacked (packed (roundWithAccuracy Format.binary64 s m e .exact))) := by
  have hfirst := add_shift_le hc hlow he hm
  obtain ⟨r, hr⟩ : ∃ r, halfEven m (2 ^ shift m e) = r := ⟨_, rfl⟩
  have hrle : r ≤ c * 2 ^ (k - (e + shift m e)).toNat := by
    rw [le_mul_of_exponent_le hfirst] at hm
    rw [← hr, ← halfEven_mul (c * _) (Nat.two_pow_pos (shift m e))]
    exact halfEven_mono _ hm
  have hsecond := add_shift_le hc hlow hfirst hrle
  rw [roundWithAccuracy_eq s ((roundedMantissa_exact m _).trans hr)]
  split_ifs with hzero
  · exact .inl ⟨s, unpacked_packed_zero s⟩
  · refine within_packed_finite _ (shifted_lt r _) ?_ hsecond hhigh ?_
    · rw [add_shift]
      exact le_max_right _ _
    · rw [le_mul_of_exponent_le hsecond] at hrle
      exact Nat.div_le_of_le_mul (hrle.trans_eq (Nat.mul_comm _ _))

theorem within_normalize {n : ℤ} (t : Sign) (hc : c < 2 ^ 53) (hlow : -1074 ≤ k) (hhigh : k ≤ 971)
    (he : e ≤ k) (hn : n.natAbs ≤ c * 2 ^ (k - e).toNat) :
    Within c k (unpacked (packed (UnpackedFloat.normalize Format.binary64 n e t))) := by
  rcases normalize_eq n e t with ⟨-, h⟩ | ⟨s, j, -, -, h⟩
  · rw [h]
    exact .inl ⟨t, unpacked_packed_zero t⟩
  · rw [h]
    refine within_round hc hlow hhigh (by omega) ?_
    have hshift := shiftLeft_le (a := e - j) (by omega) he hn
    rwa [sub_sub_cancel, Int.toNat_natCast] at hshift

/-! ### Products and sums -/

theorem Below.within {a : ℤ} (hx : Below a (unpacked x)) : Within 1 (a + 53) (unpacked x) := by
  rcases hx with hzero | ⟨s, m, e, hm, hx, hlt, hle⟩
  · exact .inl hzero
  · refine .inr ⟨s, m, e, hm, hx, by omega, hlt.le.trans ?_⟩
    rw [Nat.one_mul]
    exact Nat.pow_le_pow_right (by decide) (by omega)

/-- **Products.** -/
theorem Below.mul {a b : ℤ} (hx : Below a (unpacked x)) (hy : Below b (unpacked y))
    (hlow : -1074 ≤ a + b + 106) (hhigh : a + b + 106 ≤ 971) :
    Within 1 (a + b + 106) (unpacked (x * y)) := by
  rw [mul_eq_packed]
  rcases hx with ⟨s, hx⟩ | ⟨s, m, e, hm, hx, hlt, hle⟩ <;>
    rcases hy with ⟨t, hy⟩ | ⟨t, n, d, hn, hy, hlt', hle'⟩ <;> rw [hx, hy, UnpackedFloat.mul]
  · exact .inl ⟨_, unpacked_packed_zero _⟩
  · exact .inl ⟨_, unpacked_packed_zero _⟩
  · exact .inl ⟨_, unpacked_packed_zero _⟩
  · refine within_round (by decide) hlow hhigh (by omega) ?_
    rw [Nat.one_mul]
    calc m * n ≤ 2 ^ 53 * 2 ^ 53 := Nat.mul_le_mul hlt.le hlt'.le
      _ = 2 ^ 106 := by rw [← pow_add]
      _ ≤ _ := Nat.pow_le_pow_right (by decide) (by omega)

/-- **Sums.** -/
theorem Within.add (hx : Within c k (unpacked x)) (hy : Within d k (unpacked y))
    (hlow : -1074 ≤ k) (hhigh : k ≤ 971) (hcd : c + d < 2 ^ 53) :
    Within (c + d) k (unpacked (x + y)) := by
  rw [add_eq_packed]
  rcases hx with ⟨s, hx⟩ | ⟨s, m, e, hm, hx, hle, hm'⟩ <;>
    rcases hy with ⟨t, hy⟩ | ⟨t, n, e', hn, hy, hle', hn'⟩
  · rw [hx, hy]
    cases s <;> cases t <;> exact .inl ⟨_, unpacked_packed_zero _⟩
  · obtain ⟨hlt, hlow', -⟩ := bounds_of_finite hy
    have hadd : UnpackedFloat.add Format.binary64 (.zero s) (.finite t n e' hn) =
        .finite t n e' hn := rfl
    rw [hx, hy, hadd]
    exact within_packed_finite hn hlt hlow' hle' hhigh
      (hn'.trans (Nat.mul_le_mul_right _ (Nat.le_add_left d c)))
  · obtain ⟨hlt, hlow', -⟩ := bounds_of_finite hx
    have hadd : UnpackedFloat.add Format.binary64 (.finite s m e hm) (.zero t) =
        .finite s m e hm := rfl
    rw [hx, hy, hadd]
    exact within_packed_finite hm hlt hlow' hle hhigh
      (hm'.trans (Nat.mul_le_mul_right _ (Nat.le_add_right c d)))
  · rw [hx, hy, UnpackedFloat.add]
    refine within_normalize _ hcd hlow hhigh (by omega) ?_
    have hx' := shiftLeft_le (min_le_left e e') hle hm'
    have hy' := shiftLeft_le (min_le_right e e') hle' hn'
    have hsum : ∀ a b : ℕ, (s.apply a + t.apply b).natAbs ≤ a + b := fun a b => by
      cases s <;> cases t <;> simp only [Sign.apply] <;> omega
    rw [Nat.add_mul]
    exact (hsum _ _).trans (Nat.add_le_add hx' hy')

/-- **Sums of many terms.** -/
theorem Within.foldl {l : List Float} (hx : Within c k (unpacked x))
    (hl : ∀ y ∈ l, Within 1 k (unpacked y)) (hlow : -1074 ≤ k) (hhigh : k ≤ 971)
    (hcount : c + l.length < 2 ^ 53) : Within (c + l.length) k (unpacked (l.foldl (· + ·) x)) := by
  induction l generalizing x c with
  | nil => exact hx
  | cons y rest ih =>
    rw [List.forall_mem_cons] at hl
    rw [List.length_cons, ← Nat.add_assoc, Nat.add_right_comm] at hcount ⊢
    exact ih (hx.add hl.1 hlow hhigh (by omega)) hl.2 hcount

end TimeWeighted
