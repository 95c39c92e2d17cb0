import MiniLSM.Lib.Leb128
import MiniLSM.Spec.Slice

/-!
# `coding.cc`: varints, fixed-width integers and CRC-32

Encoders return the bytes; decoders take the bytes from the read position on, and return
`none` where the C++ code would read past their end or shift by the width of its word or more,
which C++ leaves undefined. A shift by less drops the bits that find no place.
-/

namespace MiniLSM

/-! ## Varints -/

/-- `Varint32Encode`, into its five-byte buffer. -/
def varint32Encode (value : UInt32) : Bytes := Leb128.encode 5 value.toNat

/-- `Varint64Encode`, into its ten-byte buffer. -/
def varint64Encode (value : UInt64) : Bytes := Leb128.encode 10 value.toNat

/-- `Varint32Length`. -/
def varint32Length (v : UInt32) : ℕ :=
  if v < (1 : UInt32) <<< 7 then 1
  else if v < (1 : UInt32) <<< 14 then 2
  else if v < (1 : UInt32) <<< 21 then 3
  else if v < (1 : UInt32) <<< 28 then 4
  else 5

/-- `Varint32Decode`: the value and the number of bytes read. -/
def varint32Decode (data : Bytes) : Option (ℕ × ℕ) := Leb128.decodeFrom 32 data 0 0

/-- `Varint64Decode`. -/
def varint64Decode (data : Bytes) : Option (ℕ × ℕ) := Leb128.decodeFrom 64 data 0 0

/-- A `size_t` handed to a `uint32_t` parameter. -/
def toUInt32 (n : ℕ) : UInt32 := UInt32.ofNat n

/-! ## Fixed-width integers, little-endian -/

/-- `EncodeFixed32`. -/
def encodeFixed32 (value : UInt32) : Bytes :=
  [value.toUInt8, (value >>> 8).toUInt8, (value >>> 16).toUInt8, (value >>> 24).toUInt8]

/-- `EncodeFixed64`. -/
def encodeFixed64 (value : UInt64) : Bytes :=
  [value.toUInt8, (value >>> 8).toUInt8, (value >>> 16).toUInt8, (value >>> 24).toUInt8,
    (value >>> 32).toUInt8, (value >>> 40).toUInt8, (value >>> 48).toUInt8,
    (value >>> 56).toUInt8]

/-- `DecodeFixed32`. -/
def decodeFixed32 : Bytes → Option UInt32
  | b0 :: b1 :: b2 :: b3 :: _ =>
    some (b0.toUInt32 ||| b1.toUInt32 <<< 8 ||| b2.toUInt32 <<< 16 ||| b3.toUInt32 <<< 24)
  | _ => none

/-- `DecodeFixed64`. -/
def decodeFixed64 : Bytes → Option UInt64
  | b0 :: b1 :: b2 :: b3 :: b4 :: b5 :: b6 :: b7 :: _ =>
    some (b0.toUInt64 ||| b1.toUInt64 <<< 8 ||| b2.toUInt64 <<< 16 ||| b3.toUInt64 <<< 24 |||
      b4.toUInt64 <<< 32 ||| b5.toUInt64 <<< 40 ||| b6.toUInt64 <<< 48 ||| b7.toUInt64 <<< 56)
  | _ => none

/-! ## CRC-32 -/

/-- One bit of `InitCRCTable`'s inner loop. -/
def crcBit (crc : UInt32) : UInt32 :=
  if crc &&& 1 ≠ 0 then (0xEDB88320 : UInt32) ^^^ (crc >>> 1) else crc >>> 1

/-- The entry `i` of `crc_table`. -/
def crcTable (i : UInt32) : UInt32 := crcBit^[8] i

/-- One byte of `CRC32`'s loop. -/
def crcByte (crc : UInt32) (b : UInt8) : UInt32 :=
  crcTable ((crc ^^^ b.toUInt32) &&& 0xFF) ^^^ (crc >>> 8)

/-- `CRC32`. -/
def crc32 (data : Bytes) : UInt32 := data.foldl crcByte 0xFFFFFFFF ^^^ 0xFFFFFFFF

end MiniLSM
