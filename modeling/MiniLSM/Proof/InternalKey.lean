import MiniLSM.Proof.Coding
import MiniLSM.Spec.InternalKey
import MiniLSM.Spec.Status

/-!
# How internal keys compare

Internal keys are compared byte by byte, so the trailer of a short key may meet the bytes
of a longer one.

* `makeLookupKey_le`: the lookup key of `k` is at or below every internal key of `k`.
* `makeLookupKey_lt`: it is below every internal key of a greater user key.
* `Apart u k`: `k` does not continue `u` by a byte that can be a type byte.
* `internalKey_lt_of_apart`: then `u < k` puts every internal key of `u` below whatever
  starts with `k`.
-/

namespace MiniLSM

/-! ## Trailers -/

/-- The eight bytes that `MakeInternalKey` puts behind the user key. -/
def trailer (seq : SequenceNumber) (type : ValueType) : Bytes :=
  encodeFixed64 (packSequenceAndType seq type)

theorem makeInternalKey_eq (u : Bytes) (seq : SequenceNumber) (type : ValueType) :
    makeInternalKey u seq type = u ++ trailer seq type := rfl

@[simp] theorem trailer_length (seq : SequenceNumber) (type : ValueType) :
    (trailer seq type).length = 8 := rfl

/-- The first byte of a trailer is the type byte. -/
theorem trailer_eq_cons (seq : SequenceNumber) (type : ValueType) :
    ∃ t, trailer seq type = type.toByte :: t := by
  have h : (packSequenceAndType seq type).toUInt8 = type.toByte := by
    rw [packSequenceAndType, ← UInt8.toBitVec_inj]
    ext i hi
    simp only [UInt64.toUInt8_or, UInt8.toBitVec_or, UInt64.toBitVec_toUInt8,
      UInt64.toBitVec_shiftLeft, UInt64.toBitVec_ofNat, BitVec.shiftLeft_eq', BitVec.getElem_or,
      BitVec.getElem_setWidth, BitVec.getLsbD_shiftLeft,
      UInt8.toBitVec_toUInt64, BitVec.getLsbD_setWidth]
    grind
  exact ⟨_, by rw [trailer, encodeFixed64, h]⟩

theorem ValueType.toByte_le_one (type : ValueType) : type.toByte ≤ 1 := by cases type <;> decide

@[simp] theorem makeInternalKey_length (u : Bytes) (seq : SequenceNumber) (type : ValueType) :
    (makeInternalKey u seq type).length = u.length + 8 := by simp [makeInternalKey_eq]

@[simp] theorem extractUserKey_makeInternalKey (u : Bytes) (seq : SequenceNumber)
    (type : ValueType) : extractUserKey (makeInternalKey u seq type) = u := by
  rw [extractUserKey, if_neg (by simp), makeInternalKey_length, makeInternalKey_eq]
  simp

theorem makeLookupKey_eq (u : Bytes) : makeLookupKey u = u ++ List.replicate 8 0 := rfl

theorem zero_le_byte (b : UInt8) : 0 ≤ b := by simp [UInt8.le_iff_toNat_le]

/-! ## Sequence numbers -/

/-- `UnpackSequence` undoes `PackSequenceAndType` below `kMaxSequenceNumber`. -/
theorem unpackSequence_pack {seq : SequenceNumber} (h : seq.toNat < 2 ^ 56) (type : ValueType) :
    unpackSequence (packSequenceAndType seq type) = seq := by
  have hk : kMaxSequenceNumber.toNat = 2 ^ 56 - 1 := by decide
  have hsub : (kMaxSequenceNumber - seq).toNat = 2 ^ 56 - 1 - seq.toNat := by
    rw [UInt64.toNat_sub_of_le _ _ (by rw [UInt64.le_iff_toNat_le, hk]; omega), hk]
  have hb : type.toByte.toUInt64.toNat < 2 ^ 8 := by cases type <;> decide
  have hpack : (packSequenceAndType seq type).toNat =
      (2 ^ 56 - 1 - seq.toNat) * 2 ^ 8 + type.toByte.toUInt64.toNat := by
    rw [packSequenceAndType, UInt64.toNat_or, UInt64.toNat_shiftLeft, hsub,
      show (8 : UInt64).toNat % 64 = 8 from rfl, Nat.mod_eq_of_lt, ← Nat.shiftLeft_add_eq_or_of_lt hb,
      Nat.shiftLeft_eq]
    rw [Nat.shiftLeft_eq]
    omega
  have hshift : ((packSequenceAndType seq type) >>> 8).toNat = 2 ^ 56 - 1 - seq.toNat := by
    rw [UInt64.toNat_shiftRight, hpack, show (8 : UInt64).toNat % 64 = 8 from rfl,
      Nat.shiftRight_eq_div_pow]
    omega
  rw [← UInt64.toNat_inj, unpackSequence, UInt64.toNat_sub_of_le, hshift, hk]
  · omega
  · rw [UInt64.le_iff_toNat_le, hshift, hk]
    omega

theorem extractSequence_makeInternalKey {seq : SequenceNumber} (h : seq.toNat < 2 ^ 56) (u : Bytes)
    (type : ValueType) : extractSequence (makeInternalKey u seq type) = seq := by
  have hdrop : (makeInternalKey u seq type).drop ((makeInternalKey u seq type).length - 8) =
      encodeFixed64 (packSequenceAndType seq type) ++ [] := by
    rw [makeInternalKey_length, makeInternalKey]
    simp
  rw [extractSequence, extractPackedSeqType, if_neg (by simp), hdrop, decodeFixed64_encode,
    Option.getD_some, unpackSequence_pack h]

/-! ## The lookup key -/

/-- **The lookup key of `k` is at or below every internal key of `k`.** -/
theorem makeLookupKey_le (k : Bytes) (seq : SequenceNumber) (type : ValueType) :
    makeLookupKey k ≤ makeInternalKey k seq type := by
  rw [makeLookupKey_eq, makeInternalKey_eq, LexOrder.append_le_append_iff]
  exact LexOrder.replicate_bot_le zero_le_byte 8 _ (by simp)

/-- **The lookup key of `k` is below every internal key of a greater user key.** -/
theorem makeLookupKey_lt {k u : Bytes} (h : k < u) (seq : SequenceNumber) (type : ValueType) :
    makeLookupKey k < makeInternalKey u seq type := by
  rw [makeLookupKey_eq, makeInternalKey_eq]
  rcases LexOrder.lt_append_cases h with ⟨c, x, rfl⟩ | hst
  · rw [List.append_assoc, LexOrder.append_lt_append_iff]
    exact LexOrder.replicate_bot_lt zero_le_byte (by simp)
  · exact hst _ _

/-! ## User keys whose internal keys do not mix -/

/-- The byte by which `k` continues `u`, if it does. -/
def nextByte : Bytes → Bytes → Option UInt8
  | [], c :: _ => some c
  | a :: u, b :: k => if a = b then nextByte u k else none
  | _, [] => none

theorem nextByte_eq_some {u k : Bytes} {c : UInt8} :
    nextByte u k = some c ↔ ∃ x, k = u ++ c :: x := by
  induction u generalizing k with
  | nil => cases k <;> simp [nextByte]
  | cons a u ih =>
    cases k with
    | nil => simp [nextByte]
    | cons b k =>
      rw [nextByte]
      split
      · rename_i hab; subst hab; simp [ih]
      · rename_i hab; simp [Ne.symm hab]

/-- `k` does not continue `u` by a byte that can be the type byte of a trailer. -/
def Apart (u k : Bytes) : Prop := ∀ c ∈ nextByte u k, 1 < c

instance (u k : Bytes) : Decidable (Apart u k) := by unfold Apart; exact Option.decidableForallMem _

/-- **Keys apart compare like their user keys**, whatever stands behind the greater one. -/
theorem internalKey_lt_of_apart {u k : Bytes} (h : u < k) (ha : Apart u k)
    (seq : SequenceNumber) (type : ValueType) (s : Bytes) : makeInternalKey u seq type < k ++ s := by
  rw [makeInternalKey_eq]
  rcases LexOrder.lt_append_cases h with ⟨c, x, rfl⟩ | hst
  · obtain ⟨t, ht⟩ := trailer_eq_cons seq type
    have hc : 1 < c := ha c (nextByte_eq_some.2 ⟨x, rfl⟩)
    rw [List.append_assoc, LexOrder.append_lt_append_iff, ht]
    exact LexOrder.cons_lt_cons_of_lt (lt_of_le_of_lt type.toByte_le_one hc) _ _
  · exact hst _ _

/-- The type byte comes first: a tombstone is below every value of its user key. -/
theorem deletion_lt_value (u : Bytes) (s s' : SequenceNumber) :
    makeInternalKey u s .deletion < makeInternalKey u s' .value := by
  obtain ⟨t, ht⟩ := trailer_eq_cons s .deletion
  obtain ⟨t', ht'⟩ := trailer_eq_cons s' .value
  rw [makeInternalKey_eq, makeInternalKey_eq, LexOrder.append_lt_append_iff, ht, ht']
  exact LexOrder.cons_lt_cons_of_lt (by decide) _ _

/-! ## Stored entries -/

/-- A stored entry: an internal key and its value. -/
def Stored (e : Bytes × Bytes) : Prop := ∃ u s, e.1 = makeInternalKey u s (typeOf e.2)

theorem Stored.le_of_le {e : Bytes × Bytes} (h : Stored e) {k : Bytes} (hk : k ≤ extractUserKey e.1) :
    makeLookupKey k ≤ e.1 := by
  obtain ⟨u, s, hu⟩ := h
  rw [hu, extractUserKey_makeInternalKey] at hk
  rw [hu]
  rcases lt_or_eq_of_le hk with hlt | rfl
  · exact (makeLookupKey_lt hlt _ _).le
  · exact makeLookupKey_le _ _ _

theorem Stored.lt_of_apart {e : Bytes × Bytes} (h : Stored e) {k : Bytes}
    (hk : extractUserKey e.1 < k) (ha : Apart (extractUserKey e.1) k) (s : Bytes) : e.1 < k ++ s := by
  obtain ⟨u, s', hu⟩ := h
  rw [hu, extractUserKey_makeInternalKey] at hk ha
  rw [hu]
  exact internalKey_lt_of_apart hk ha _ _ _

end MiniLSM
