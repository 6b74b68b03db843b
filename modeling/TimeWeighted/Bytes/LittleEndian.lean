/-!
# Little-endian numbers

A number is written as `w` bytes, least significant first, if it is below `span w`.

* `digits` / `ofDigits` : writing and reading, inverse to each other in both directions
  (`ofDigits_digits`, `digits_ofDigits`).
* `wordAt` : the 64-bit word at an offset of a byte array.
-/

namespace TimeWeighted

namespace LittleEndian

/-- The `w` lowest base-256 digits of `n`, least significant first. -/
def digits : Nat → Nat → List UInt8
  | 0, _ => []
  | w + 1, n => UInt8.ofNat n :: digits w (n / 256)

/-- The number with the given base-256 digits, least significant first. -/
def ofDigits : List UInt8 → Nat
  | [] => 0
  | b :: bs => b.toNat + 256 * ofDigits bs

/-- The number of numbers that `w` bytes can spell. -/
def span : Nat → Nat
  | 0 => 1
  | w + 1 => 256 * span w

@[simp] theorem length_digits (w n : Nat) : (digits w n).length = w := by
  induction w generalizing n with
  | zero => rfl
  | succ w ih => simp [digits, ih]

theorem ofDigits_digits (w n : Nat) : ofDigits (digits w n) = n % span w := by
  induction w generalizing n with
  | zero => simp [digits, ofDigits, span, Nat.mod_one]
  | succ w ih =>
    have hlow : (UInt8.ofNat n).toNat = n % 256 := UInt8.toNat_ofNat'
    rw [digits, ofDigits, ih, hlow, span, Nat.mod_mul]

theorem ofDigits_lt (bs : List UInt8) : ofDigits bs < span bs.length := by
  induction bs with
  | nil => simp [ofDigits, span]
  | cons b bs ih =>
    have hb := b.toNat_lt
    simp only [ofDigits, List.length_cons, span]
    omega

theorem digits_ofDigits (bs : List UInt8) : digits bs.length (ofDigits bs) = bs := by
  induction bs with
  | nil => rfl
  | cons b bs ih =>
    have hb := b.toNat_lt
    have hdiv : (b.toNat + 256 * ofDigits bs) / 256 = ofDigits bs := by omega
    have hlow : UInt8.ofNat (b.toNat + 256 * ofDigits bs) = b := by
      apply UInt8.toNat_inj.1
      simp only [UInt8.toNat_ofNat']
      omega
    simp only [List.length_cons, digits, ofDigits, hdiv, hlow, ih]

/-- The number spelled by the `w` bytes at offset `i`; bytes past the end are left out. -/
def natAt (bytes : ByteArray) (i w : Nat) : Nat :=
  ofDigits (bytes.extract i (i + w)).data.toList

/-- The 64-bit word at offset `i`. -/
def wordAt (bytes : ByteArray) (i : Nat) : UInt64 :=
  UInt64.ofNat (natAt bytes i 8)

end LittleEndian

end TimeWeighted
