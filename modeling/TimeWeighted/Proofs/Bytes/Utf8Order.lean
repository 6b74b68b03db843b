import Mathlib

/-!
# The order of strings and that of their bytes

Strings are ordered by their code points.  The bytes of their UTF-8 encodings are ordered in the
same way, since a greater code point has a greater encoding, and the two differ in a byte.

* `Utf8.append_lt_append` : a greater character, whatever follows it.
* `Utf8.bytes_lt_bytes` : a greater string.
-/

namespace TimeWeighted

namespace Utf8

/-- The bytes of the UTF-8 encoding of a string. -/
def bytes (s : String) : List UInt8 :=
  s.toByteArray.data.toList

theorem bytes_eq (s : String) : bytes s = s.toList.flatMap String.utf8EncodeChar := by
  rw [bytes, ← String.utf8Encode_toList, List.utf8Encode, List.data_toByteArray]

theorem toNat_lt (c : Char) : c.val.toNat < 0x110000 := by
  rcases c.valid with h | ⟨-, h⟩
  · exact h.trans (by decide)
  · exact h

theorem digits_lt {m n : ℕ} (h : m < n) : m / 64 < n / 64 ∨ m / 64 = n / 64 ∧ m % 64 < n % 64 := by
  omega

theorem four_bytes {c : Char} (h : 0xffff < c.val.toNat) :
    String.utf8EncodeChar c = [UInt8.ofNat (c.val.toNat / 64 / 64 / 64 + 0xf0),
      UInt8.ofNat (c.val.toNat / 64 / 64 % 64 + 0x80), UInt8.ofNat (c.val.toNat / 64 % 64 + 0x80),
      UInt8.ofNat (c.val.toNat % 64 + 0x80)] := by
  have hc := toNat_lt c
  unfold String.utf8EncodeChar
  rw [if_neg (by omega), if_neg (by omega), if_neg (by omega)]
  simp only [Nat.div_div_eq_div_mul, Nat.reduceMul]
  rw [Nat.mod_eq_of_lt (by omega)]

/-- **A greater character has a greater encoding**, whatever follows it: the first byte that is
different decides. -/
theorem append_lt_append {c d : Char} (h : c < d) (cs ds : List UInt8) :
    String.utf8EncodeChar c ++ cs < String.utf8EncodeChar d ++ ds := by
  have hlt : c.val.toNat < d.val.toNat := h
  have hd := toNat_lt d
  by_cases hwide : 0xffff < c.val.toNat
  · rw [four_bytes hwide, four_bytes (hwide.trans hlt)]
    simp only [List.cons_append, List.nil_append, List.cons_lt_cons_iff, UInt8.lt_iff_toNat_lt,
      ← UInt8.toNat_inj, UInt8.toNat_ofNat']
    generalize c.val.toNat = m at *
    generalize d.val.toNat = n at *
    rcases digits_lt hlt with hlt | ⟨heq, hlt⟩
    · rcases digits_lt hlt with hlt | ⟨heq, hlt⟩
      · rcases digits_lt hlt with hlt | ⟨heq, hlt⟩
        · omega
        · omega
      · omega
    · omega
  · unfold String.utf8EncodeChar
    generalize c.val.toNat = m at *
    generalize d.val.toNat = n at *
    simp only
    split_ifs <;>
      simp only [List.cons_append, List.nil_append, List.cons_lt_cons_iff, UInt8.lt_iff_toNat_lt,
        ← UInt8.toNat_inj, UInt8.toNat_ofNat'] <;>
      omega

theorem append_left_lt (bs : List UInt8) {cs ds : List UInt8} (h : cs < ds) :
    bs ++ cs < bs ++ ds := by
  induction bs with
  | nil => exact h
  | cons b bs ih => exact List.cons_lt_cons_iff.2 (.inr ⟨rfl, ih⟩)

theorem flatMap_lt_flatMap {cs ds : List Char} (h : cs < ds) :
    cs.flatMap String.utf8EncodeChar < ds.flatMap String.utf8EncodeChar := by
  induction h with
  | @nil d ds =>
    rw [List.flatMap_nil, List.flatMap_cons]
    cases hd : String.utf8EncodeChar d with
    | nil => exact absurd hd String.utf8EncodeChar_ne_nil
    | cons b bs => exact List.nil_lt_cons _ _
  | rel hlt =>
    rw [List.flatMap_cons, List.flatMap_cons]
    exact append_lt_append hlt _ _
  | cons _ ih =>
    rw [List.flatMap_cons, List.flatMap_cons]
    exact append_left_lt _ ih

/-- **A greater string has greater bytes.** -/
theorem bytes_lt_bytes {s t : String} (h : s < t) : bytes s < bytes t := by
  rw [bytes_eq, bytes_eq]
  exact flatMap_lt_flatMap h

end Utf8

end TimeWeighted
