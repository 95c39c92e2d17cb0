import MiniLSM.Spec.Coding

/-!
# `internal_key.h`: internal keys

An internal key is a user key followed by an eight-byte trailer, the little-endian
encoding of `(kMaxSequenceNumber - seq) << 8 | type`.
-/

namespace MiniLSM

/-- `SequenceNumber`. -/
abbrev SequenceNumber := UInt64

/-- `kMaxSequenceNumber`. -/
def kMaxSequenceNumber : SequenceNumber := (1 : UInt64) <<< 56 - 1

/-- `ValueType`. -/
inductive ValueType
  | deletion | value
  deriving DecidableEq, Repr

/-- The byte of a `ValueType`. -/
def ValueType.toByte : ValueType → UInt8
  | .deletion => 0x00
  | .value => 0x01

/-- `value.empty() ? kTypeDeletion : kTypeValue`. -/
def typeOf (value : Bytes) : ValueType := if value = [] then .deletion else .value

/-- `PackSequenceAndType`. -/
def packSequenceAndType (seq : SequenceNumber) (type : ValueType) : UInt64 :=
  ((kMaxSequenceNumber - seq) <<< 8) ||| type.toByte.toUInt64

/-- `UnpackSequence`. -/
def unpackSequence (packed : UInt64) : SequenceNumber := kMaxSequenceNumber - (packed >>> 8)

/-- `ExtractUserKey`. -/
def extractUserKey (internalKey : Bytes) : Bytes :=
  if internalKey.length < 8 then internalKey else internalKey.take (internalKey.length - 8)

/-- Stored entries under their user keys. -/
def userPairs (es : List (Bytes × Bytes)) : List (Bytes × Bytes) :=
  es.map fun e => (extractUserKey e.1, e.2)

/-- `ExtractPackedSeqType`. -/
def extractPackedSeqType (internalKey : Bytes) : UInt64 :=
  if internalKey.length < 8 then 0
  else (decodeFixed64 (internalKey.drop (internalKey.length - 8))).getD 0

/-- `ExtractSequence`. -/
def extractSequence (internalKey : Bytes) : SequenceNumber :=
  unpackSequence (extractPackedSeqType internalKey)

/-- `MakeInternalKey`. -/
def makeInternalKey (userKey : Bytes) (seq : SequenceNumber) (type : ValueType) : Bytes :=
  userKey ++ encodeFixed64 (packSequenceAndType seq type)

/-- `MakeLookupKey`. -/
def makeLookupKey (userKey : Bytes) : Bytes := makeInternalKey userKey kMaxSequenceNumber .deletion

end MiniLSM
