import MiniLSM.Spec.Coding

/-!
# Integers are read back

* `decodeFixed32_encode`, `decodeFixed64_encode`: the fixed-width decoders undo the encoders.
* `varint32Encode_length`: the length function that sizes the blocks counts the bytes of the encoder.
* `varints_roundTrip`: the varint decoders undo the encoders, whatever follows.
-/

namespace MiniLSM

theorem toUInt32_toNat {n : ℕ} (h : n < 2 ^ 32) : (toUInt32 n).toNat = n := by
  rw [toUInt32, UInt32.toNat_ofNat']; exact Nat.mod_eq_of_lt h

/-! ## Fixed-width integers -/

@[simp] theorem encodeFixed32_length (v : UInt32) : (encodeFixed32 v).length = 4 := rfl

@[simp] theorem encodeFixed64_length (v : UInt64) : (encodeFixed64 v).length = 8 := rfl

/-- `DecodeFixed32` undoes `EncodeFixed32`, whatever follows. -/
@[simp] theorem decodeFixed32_encode (v : UInt32) (rest : Bytes) :
    decodeFixed32 (encodeFixed32 v ++ rest) = some v := by
  simp only [encodeFixed32, List.cons_append, List.nil_append, decodeFixed32, Option.some.injEq]
  rw [← UInt32.toBitVec_inj]
  ext i hi
  simp only [UInt32.toBitVec_or, UInt32.toBitVec_shiftLeft, UInt32.toBitVec_shiftRight,
    UInt8.toBitVec_toUInt32, UInt32.toBitVec_toUInt8, BitVec.getElem_or, BitVec.getElem_setWidth,
    BitVec.getLsbD_setWidth, UInt32.toBitVec_ofNat, BitVec.shiftLeft_eq', BitVec.ushiftRight_eq',
    BitVec.getElem_shiftLeft, BitVec.getLsbD_ushiftRight]
  grind

/-- `DecodeFixed64` undoes `EncodeFixed64`, whatever follows. -/
@[simp] theorem decodeFixed64_encode (v : UInt64) (rest : Bytes) :
    decodeFixed64 (encodeFixed64 v ++ rest) = some v := by
  simp only [encodeFixed64, List.cons_append, List.nil_append, decodeFixed64, Option.some.injEq]
  rw [← UInt64.toBitVec_inj]
  ext i hi
  simp only [UInt64.toBitVec_or, UInt64.toBitVec_shiftLeft, UInt64.toBitVec_shiftRight,
    UInt8.toBitVec_toUInt64, UInt64.toBitVec_toUInt8, BitVec.getElem_or, BitVec.getElem_setWidth,
    BitVec.getLsbD_setWidth, UInt64.toBitVec_ofNat, BitVec.shiftLeft_eq', BitVec.ushiftRight_eq',
    BitVec.getElem_shiftLeft, BitVec.getLsbD_ushiftRight]
  grind

/-! ## Varints -/

/-- `Varint32Length` counts the bytes of `Varint32Encode`. -/
theorem varint32Encode_length (v : UInt32) : (varint32Encode v).length = varint32Length v := by
  have hlt := v.toNat_lt
  have h7 : ((1 : UInt32) <<< 7).toNat = 2 ^ (7 * 1) := by decide
  have h14 : ((1 : UInt32) <<< 14).toNat = 2 ^ (7 * 2) := by decide
  have h21 : ((1 : UInt32) <<< 21).toNat = 2 ^ (7 * 3) := by decide
  have h28 : ((1 : UInt32) <<< 28).toNat = 2 ^ (7 * 4) := by decide
  simp only [varint32Encode, varint32Length, UInt32.lt_iff_toNat_lt, h7, h14, h21, h28]
  -- one case for each number of seven-bit groups
  split
  · exact Leb128.encode_length (k := 0) (by decide) (.inl rfl) ‹_›
  split
  · exact Leb128.encode_length (k := 1) (by decide) (.inr (not_lt.1 ‹_›)) ‹_›
  split
  · exact Leb128.encode_length (k := 2) (by decide) (.inr (not_lt.1 ‹_›)) ‹_›
  split
  · exact Leb128.encode_length (k := 3) (by decide) (.inr (not_lt.1 ‹_›)) ‹_›
  · exact Leb128.encode_length (k := 4) (by decide) (.inr (not_lt.1 ‹_›)) (by omega)

theorem varint32Length_bounds (v : UInt32) : 1 ≤ varint32Length v ∧ varint32Length v ≤ 5 := by
  rw [← varint32Encode_length]
  exact ⟨Leb128.encode_length_pos 4 _, Leb128.encode_length_le 5 _⟩

theorem varint32Decode_varint32Encode (v : UInt32) (rest : Bytes) :
    varint32Decode (varint32Encode v ++ rest) = some (v.toNat, (varint32Encode v).length) := by
  have hv := v.toNat_lt
  rw [varint32Decode, varint32Encode,
    Leb128.decodeFrom_encode 4 v.toNat 0 0 rest (by omega) (by decide) (by omega) (by decide)]
  simp

theorem varint64Decode_varint64Encode (v : UInt64) (rest : Bytes) :
    varint64Decode (varint64Encode v ++ rest) = some (v.toNat, (varint64Encode v).length) := by
  have hv := v.toNat_lt
  rw [varint64Decode, varint64Encode,
    Leb128.decodeFrom_encode 9 v.toNat 0 0 rest (by omega) (by decide) (by omega) (by decide)]
  simp

/-- **The varint decoders undo the encoders**, whatever follows, and the encoders stay inside their
buffers: with more room they write the same bytes. -/
theorem varints_roundTrip :
    (∀ (v : UInt32) (rest : Bytes),
      varint32Decode (varint32Encode v ++ rest) = some (v.toNat, varint32Length v) ∧
      (varint32Encode v).length = varint32Length v ∧ varint32Length v ≤ 5 ∧
      ∀ room, Leb128.encode (5 + room) v.toNat = varint32Encode v) ∧
    ∀ (v : UInt64) (rest : Bytes),
      varint64Decode (varint64Encode v ++ rest) = some (v.toNat, (varint64Encode v).length) ∧
      (varint64Encode v).length ≤ 10 ∧
      ∀ room, Leb128.encode (10 + room) v.toNat = varint64Encode v := by
  refine ⟨fun v rest => ⟨?_, varint32Encode_length v, (varint32Length_bounds v).2, ?_⟩,
    fun v rest => ⟨varint64Decode_varint64Encode v rest, Leb128.encode_length_le 10 _, ?_⟩⟩
  · rw [varint32Decode_varint32Encode, varint32Encode_length]
  · have hv := v.toNat_lt
    exact Leb128.encode_add (n := 4) (by omega)
  · have hv := v.toNat_lt
    exact Leb128.encode_add (n := 9) (by omega)

end MiniLSM
