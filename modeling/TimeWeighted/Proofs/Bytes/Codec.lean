import Mathlib
import TimeWeighted.Observation
import TimeWeighted.Proofs.Bytes.FloatBits

/-!
# Encoded observations

An entry is a run of `Observation.width` bytes.  What is read from an entry depends on these bytes
only, wherever they lie, and an encoded observation is read back unchanged.  The other way round,
the bytes of an entry are the encoded form of what is read from them, unless the value they hold is
no number.

* `Observation.ofEntry` : the observation in an entry.
* `Observation.ofBytesAt_extract` : reading inside a longer run of bytes.
* `Observation.ofEntry_encode` : **decoding undoes encoding.**
* `Observation.encode_ofBytesAt` : encoding undoes decoding.
* `Observation.round_trip` : **the format in both directions**, written over the start of a buffer.
-/

namespace TimeWeighted

namespace LittleEndian

theorem toList_data_extract (bytes : ByteArray) (i j : ℕ) :
    (bytes.extract i j).data.toList = (bytes.data.toList.drop i).take (j - i) := by
  rw [ByteArray.data_extract, Array.toList_extract, List.extract_eq_take_drop]

theorem wordAt_extract {bytes : ByteArray} {lo hi i : ℕ} (h : lo + i + 8 ≤ hi) :
    wordAt (bytes.extract lo hi) i = wordAt bytes (lo + i) := by
  have hmin : min (lo + (i + 8)) hi = lo + i + 8 := by omega
  rw [wordAt, wordAt, natAt, natAt, ByteArray.extract_extract, hmin]

theorem wordAt_digits (before after : List UInt8) (w : UInt64) :
    wordAt (before ++ digits 8 w.toNat ++ after).toByteArray before.length = w := by
  have hspan : span 8 = 2 ^ 64 := by decide
  have hcut : ((before ++ digits 8 w.toNat ++ after).drop before.length).take
      (before.length + 8 - before.length) = digits 8 w.toNat := by
    rw [List.append_assoc, List.drop_left, Nat.add_sub_cancel_left]
    exact List.take_left' (length_digits 8 _)
  rw [wordAt, natAt, toList_data_extract, List.toList_data_toByteArray, hcut, ofDigits_digits,
    hspan, Nat.mod_eq_of_lt w.toNat_lt]
  exact UInt64.ofNat_toNat

theorem digits_getElem? (w n k : ℕ) (hk : k < w) :
    (digits w n)[k]? = some (UInt8.ofNat (n / 256 ^ k)) := by
  induction w generalizing n k with
  | zero => omega
  | succ w ih =>
    cases k with
    | zero => simp [digits]
    | succ k =>
      rw [digits, List.getElem?_cons_succ, ih _ k (by omega), Nat.div_div_eq_div_mul, Nat.pow_succ']

theorem digits_wordAt {bytes : ByteArray} {i : ℕ} (h : i + 8 ≤ bytes.size) :
    digits 8 (wordAt bytes i).toNat = (bytes.extract i (i + 8)).data.toList := by
  have hlen : (bytes.extract i (i + 8)).data.toList.length = 8 := by
    rw [Array.length_toList, ByteArray.size_data, ByteArray.size_extract]
    omega
  have hspan : span 8 = 2 ^ 64 := by decide
  have hlt := ofDigits_lt (bytes.extract i (i + 8)).data.toList
  have hdigits := digits_ofDigits (bytes.extract i (i + 8)).data.toList
  rw [hlen] at hlt hdigits
  rw [wordAt, natAt, UInt64.toNat_ofNat', Nat.mod_eq_of_lt (hspan ▸ hlt), hdigits]

end LittleEndian

namespace Observation

open LittleEndian

/-- The observation in an entry. -/
def ofEntry (entry : ByteArray) : Observation :=
  ofBytesAt entry 0

theorem ofBytesAt_extract {bytes : ByteArray} {lo hi i : ℕ} (h : lo + i + width ≤ hi) :
    ofBytesAt (bytes.extract lo hi) i = ofBytesAt bytes (lo + i) := by
  simp only [width] at h
  rw [ofBytesAt, ofBytesAt, timestampAt, timestampAt, wordAt_extract (by omega),
    wordAt_extract (by omega), Nat.add_assoc]

theorem ofEntry_extract (bytes : ByteArray) (lo : ℕ) :
    ofEntry (bytes.extract lo (lo + width)) = ofBytesAt bytes lo :=
  ofBytesAt_extract (by omega)

/-- **Decoding undoes encoding**, whatever the time and the value are. -/
theorem ofEntry_encode (o : Observation) : ofEntry o.encode = o := by
  have hts : wordAt o.encode 0 = o.ts.toUInt64 := by
    have h := wordAt_digits [] (digits 8 o.value.toBits.toNat) o.ts.toUInt64
    rw [List.nil_append, List.length_nil] at h
    rw [encode, h]
  have hvalue : wordAt o.encode 8 = o.value.toBits := by
    have h := wordAt_digits (digits 8 o.ts.toUInt64.toNat) [] o.value.toBits
    rw [List.append_nil, length_digits] at h
    rw [encode, h]
  rw [ofEntry, ofBytesAt, timestampAt, Nat.zero_add, hts, hvalue, ofBits_toBits]
  rfl

/-- Encoding undoes decoding, unless the value that was decoded is no number. -/
theorem encode_ofBytesAt {bytes : ByteArray} {i : ℕ} (h : i + width ≤ bytes.size)
    (hvalue : ¬IsNaNBits (wordAt bytes (i + 8))) :
    (ofBytesAt bytes i).encode = bytes.extract i (i + width) := by
  have hts : (ofBytesAt bytes i).ts.toUInt64 = wordAt bytes i := rfl
  have hbits : (ofBytesAt bytes i).value.toBits = wordAt bytes (i + 8) := toBits_ofBits hvalue
  simp only [width] at h ⊢
  have hsplit : bytes.extract i (i + 16) =
      bytes.extract i (i + 8) ++ bytes.extract (i + 8) (i + 8 + 8) := by
    rw [ByteArray.extract_append_extract, Nat.min_eq_left (by omega), Nat.max_eq_right (by omega)]
  rw [encode, hts, hbits, digits_wordAt (by omega), digits_wordAt (by omega), hsplit]
  apply ByteArray.ext
  apply Array.toList_inj.1
  rw [List.toList_data_toByteArray, ByteArray.data_append, Array.toList_append]

/-! ### Over the start of a buffer -/

section

variable {o : Observation} {buffer bytes : ByteArray}

theorem encodeInto_of_le (o : Observation) (h : width ≤ buffer.size) :
    o.encodeInto buffer = .ok (o.encode ++ buffer.extract width buffer.size) := by
  have hmin : 0 + min width (o.encode.data.size - 0) = width := by
    rw [ByteArray.size_data, o.size_encode]
    rfl
  have hall : o.encode.extract 0 (0 + width) = o.encode := by
    have := o.encode.extract_zero_size
    rwa [o.size_encode] at this
  rw [encodeInto, if_pos h, ByteArray.copySlice_eq_append, hmin, hall, ByteArray.size_data,
    ByteArray.extract_eq_empty_iff.2 (by omega), ByteArray.empty_append]

theorem decode_of_le (h : width ≤ bytes.size) :
    decode bytes = .ok (ofEntry (bytes.extract 0 width)) := by
  rw [decode, if_pos h]
  exact congrArg Except.ok (ofEntry_extract bytes 0).symm

theorem decodeTimestamp_of_le (h : width ≤ bytes.size) :
    decodeTimestamp bytes = .ok (ofEntry (bytes.extract 0 width)).ts := by
  rw [decodeTimestamp, if_pos (Nat.le_trans (by decide) h)]
  exact congrArg (fun o : Observation => Except.ok o.ts) (ofEntry_extract bytes 0).symm

theorem ofEntry_encode_append (o : Observation) (rest : ByteArray) :
    ofEntry ((o.encode ++ rest).extract 0 width) = o := by
  rw [ByteArray.extract_append_eq_left o.size_encode.symm, ofEntry_encode]

theorem decode_encode_append (o : Observation) (rest : ByteArray) :
    decode (o.encode ++ rest) = .ok o ∧ decodeTimestamp (o.encode ++ rest) = .ok o.ts := by
  have hle : width ≤ (o.encode ++ rest).size := by
    rw [ByteArray.size_append, o.size_encode]
    exact Nat.le_add_right _ _
  rw [decode_of_le hle, decodeTimestamp_of_le hle, ofEntry_encode_append]
  exact ⟨rfl, rfl⟩

theorem ofEntry_of_encodeInto {result : ByteArray} (h : o.encodeInto buffer = .ok result) :
    ofEntry (result.extract 0 width) = o := by
  rcases Nat.lt_or_ge buffer.size width with hlt | hle
  · rw [encodeInto, if_neg (Nat.not_le.2 hlt)] at h
    cases h
  · cases (o.encodeInto_of_le hle).symm.trans h
    exact o.ofEntry_encode_append _

/-- The bytes of an encoded observation: those of the time, then those of the value, each with the
least significant first. -/
theorem getElem?_encode_append (o : Observation) (rest : ByteArray) {k : ℕ} (hk : k < 8) :
    (o.encode ++ rest)[k]? = some (UInt8.ofNat (o.ts.toUInt64.toNat / 256 ^ k)) ∧
      (o.encode ++ rest)[8 + k]? = some (UInt8.ofNat (o.value.toBits.toNat / 256 ^ k)) := by
  have hbyte : ∀ i, i < 16 → (o.encode ++ rest)[i]? =
      (digits 8 o.ts.toUInt64.toNat ++ digits 8 o.value.toBits.toNat)[i]? := by
    intro i hi
    change (o.encode ++ rest).data[i]? = _
    have hsize : i < o.encode.data.size := by
      rw [ByteArray.size_data, o.size_encode]
      exact hi
    rw [ByteArray.data_append, Array.getElem?_append_left hsize, ← Array.getElem?_toList, encode,
      List.toList_data_toByteArray]
  rw [hbyte k (by omega), hbyte (8 + k) (by omega), List.getElem?_append_left (by simpa using hk),
    List.getElem?_append_right (by simp), length_digits, Nat.add_sub_cancel_left,
    digits_getElem? _ _ _ hk, digits_getElem? _ _ _ hk]
  exact ⟨rfl, rfl⟩

end

/-- **The format of an entry, in both directions.**  An observation whose value is a number is
written over the first bytes of a buffer, time and value little-endian, and leaves the rest as it
is; it is read back with the same time and the same bits, and the time can be read alone.  Bytes
that hold a number as their value are the encoded form of the observation that is read from them,
and different observations have different encoded forms.  A value that is not a number stays one,
and so do all bits that stand for none. -/
theorem round_trip :
    (∀ (ts : Timestamp) (bits : UInt64) (buffer : ByteArray), ¬IsNaNBits bits →
      width ≤ buffer.size →
      ∃ (result : ByteArray) (o : Observation),
        encodeInto ⟨ts, .ofBits bits⟩ buffer = .ok result ∧ result.size = buffer.size ∧
        (∀ k < 8, result[k]? = some (UInt8.ofNat (ts.toUInt64.toNat / 256 ^ k)) ∧
          result[8 + k]? = some (UInt8.ofNat (bits.toNat / 256 ^ k))) ∧
        result.extract width result.size = buffer.extract width buffer.size ∧
        decode result = .ok o ∧ o.ts = ts ∧ o.value.toBits = bits ∧
        decodeTimestamp result = .ok o.ts) ∧
    (∀ bytes : ByteArray, width ≤ bytes.size → ¬IsNaNBits (wordAt bytes 8) →
      ∃ o, decode bytes = .ok o ∧ o.encodeInto bytes = .ok bytes) ∧
    (∀ (ts ts' : Timestamp) (bits bits' : UInt64) (buffer buffer' result result' : ByteArray),
      ¬IsNaNBits bits → ¬IsNaNBits bits' → encodeInto ⟨ts, .ofBits bits⟩ buffer = .ok result →
      encodeInto ⟨ts', .ofBits bits'⟩ buffer' = .ok result' →
      result.extract 0 width = result'.extract 0 width → ts = ts' ∧ bits = bits') ∧
    (∀ (o : Observation) (buffer : ByteArray), o.value.isNaN = true → width ≤ buffer.size →
      ∃ result o', o.encodeInto buffer = .ok result ∧ decode result = .ok o' ∧ o'.ts = o.ts ∧
        o'.value.isNaN = true) ∧
    ∀ bytes : ByteArray, width ≤ bytes.size → IsNaNBits (wordAt bytes 8) →
      ∃ o, decode bytes = .ok o ∧ o.value.isNaN = true := by
  refine ⟨?_, ?_, ?_, ?_, ?_⟩
  · intro ts bits buffer hbits hbuffer
    have hvalue : (Float.ofBits bits).toBits = bits := toBits_ofBits hbits
    set o : Observation := ⟨ts, .ofBits bits⟩ with ho
    obtain ⟨hdecode, htime⟩ := o.decode_encode_append (buffer.extract width buffer.size)
    have hsize : (o.encode ++ buffer.extract width buffer.size).size = buffer.size := by
      rw [ByteArray.size_append, o.size_encode, ByteArray.size_extract]
      omega
    refine ⟨_, o, o.encodeInto_of_le hbuffer, hsize, ?_, ?_, hdecode, rfl, hvalue, htime⟩
    · intro k hk
      have hbytes := o.getElem?_encode_append (buffer.extract width buffer.size) hk
      rwa [hvalue] at hbytes
    · refine ByteArray.extract_append_eq_right o.size_encode.symm ?_
      rw [ByteArray.size_append]
  · intro bytes hbytes hvalue
    have hentry : (ofBytesAt bytes 0).encode = bytes.extract 0 (0 + width) :=
      encode_ofBytesAt (by omega) hvalue
    refine ⟨_, if_pos hbytes, ?_⟩
    rw [encodeInto_of_le _ hbytes, hentry, Nat.zero_add, ByteArray.extract_append_extract,
      Nat.min_eq_left (Nat.zero_le _), Nat.max_eq_right hbytes, ByteArray.extract_zero_size]
  · intro ts ts' bits bits' buffer buffer' result result' hbits hbits' hresult hresult' heq
    have hentry := (ofEntry_of_encodeInto hresult).symm.trans
      ((congrArg ofEntry heq).trans (ofEntry_of_encodeInto hresult'))
    obtain ⟨rfl, hvalue⟩ := Sample.mk.inj hentry
    refine ⟨rfl, ?_⟩
    rw [← toBits_ofBits hbits, hvalue, toBits_ofBits hbits']
  · intro o buffer hnan hbuffer
    exact ⟨_, o, o.encodeInto_of_le hbuffer, (o.decode_encode_append _).1, rfl, hnan⟩
  · intro bytes hbytes hvalue
    exact ⟨_, if_pos hbytes, (isNaN_ofBits _).2 hvalue⟩

/-- A negative zero before the epoch, over the start of seventeen bytes; these bytes read as an
entry; the two zeros, which have different encoded forms; and a value with all bits set. -/
theorem round_trip_zeros :
    let buffer : ByteArray := ⟨Array.replicate 17 0xaa⟩
    (∃ result o, encodeInto ⟨-1, .ofBits 0x8000000000000000⟩ buffer = .ok result ∧
      result[7]? = some 0xff ∧ result[8]? = some 0 ∧ result[15]? = some 0x80 ∧
      result.extract 16 17 = buffer.extract 16 17 ∧
      decode result = .ok o ∧ o.ts = -1 ∧ o.value.toBits = 0x8000000000000000) ∧
    (∃ o, decode buffer = .ok o ∧ o.encodeInto buffer = .ok buffer) ∧
    (∀ result result', encodeInto ⟨0, .ofBits 0⟩ buffer = .ok result →
      encodeInto ⟨0, .ofBits 0x8000000000000000⟩ buffer = .ok result' →
      result.extract 0 width ≠ result'.extract 0 width) ∧
    (∃ result o', encodeInto ⟨7, missingValue⟩ buffer = .ok result ∧ decode result = .ok o' ∧
      o'.ts = 7 ∧ o'.value.isNaN = true) ∧
    ∃ o, decode ⟨Array.replicate 16 0xff⟩ = .ok o ∧ o.value.isNaN = true := by
  intro buffer
  obtain ⟨written, rewritten, distinct, missing, patterns⟩ := round_trip
  have hbuffer : width ≤ buffer.size := by decide
  refine ⟨?_, rewritten buffer hbuffer (by decide +kernel), ?_,
    missing ⟨7, missingValue⟩ buffer (by decide) hbuffer,
    patterns _ (by decide) (by decide +kernel)⟩
  · obtain ⟨result, o, hresult, hsize, hbytes, hrest, hdecode, hts, hvalue, -⟩ :=
      written (-1) 0x8000000000000000 buffer (by decide) hbuffer
    rw [hsize] at hrest
    exact ⟨result, o, hresult, (hbytes 7 (by decide)).1, (hbytes 0 (by decide)).2,
      (hbytes 7 (by decide)).2, hrest, hdecode, hts, hvalue⟩
  · intro result result' hresult hresult' heq
    have hzeros := distinct 0 0 0 0x8000000000000000 buffer buffer result result' (by decide)
      (by decide) hresult hresult' heq
    exact absurd hzeros.2 (by decide)

end Observation

end TimeWeighted
