import MiniLSM.Proof.Crc
import MiniLSM.Proof.Wal

/-!
# Logs that are cut, damaged or too long to read

* `readRecord_append`: bytes behind a record do not change how it is read. Read the other
  way round, a record of which only a part is there is not read at all.
* `readRecord_addRecord_iff`: `ReadRecord` undoes `AddRecord` just for the lengths of at most
  four varint bytes.
-/

namespace MiniLSM

open WALWriter WALReader

/-- The lengths of a record fit in 32 bits. -/
structure Record.Sized (r : Record) : Prop where
  key : r.key.length < 2 ^ 32
  value : r.value.length < 2 ^ 32

theorem Record.Short.sized {r : Record} (h : r.Short) : r.Sized :=
  ⟨lt_trans h.key (by decide), lt_trans h.value (by decide)⟩

namespace WALReader

/-! ## More bytes -/

theorem readLength_append {field : String} {fd : Bytes} {shift len : ℕ} {raw : Bytes} {v : ℕ}
    {raw' rest : Bytes} (h : readLength field fd shift len raw = .ok (v, raw', rest)) (more : Bytes) :
    readLength field (fd ++ more) shift len raw = .ok (v, raw', rest ++ more) := by
  induction fd generalizing shift len raw with
  | nil => rw [readLength] at h; cases h
  | cons b fd ih =>
    rw [List.cons_append, readLength]
    rw [readLength] at h
    split at h
    · cases h
    · rename_i hs
      rw [if_neg hs]
      split at h
      · rename_i hb
        rw [if_pos hb]
        cases h
        rfl
      · rename_i hb
        rw [if_neg hb]
        exact ih h

theorem readFull_eq_some {fd : Bytes} {n : ℕ} {a rest : Bytes} :
    readFull fd n = some (a, rest) ↔ fd = a ++ rest ∧ a.length = n := by
  unfold readFull
  constructor
  · intro h
    split at h
    · cases h
    · rename_i hn
      cases h
      exact ⟨(List.take_append_drop n fd).symm, by rw [List.length_take]; omega⟩
  · rintro ⟨rfl, rfl⟩
    rw [if_neg (by rw [List.length_append]; omega), List.take_left, List.drop_left]

theorem readFull_more {fd : Bytes} {n : ℕ} {a rest : Bytes} (h : readFull fd n = some (a, rest))
    (more : Bytes) : readFull (fd ++ more) n = some (a, rest ++ more) := by
  rw [readFull_eq_some] at h ⊢
  exact ⟨by rw [h.1, List.append_assoc], h.2⟩

/-- What `ReadRecord` has read when it delivers a record. -/
theorem fields_of_readRecord {fd rest : Bytes} {r : Record} (h : readRecord fd = .ok (some (r, rest))) :
    ∃ fd₀ fd₁ fd₂ fd₃ fd₄ raw raw' crcBuf keyLen valueLen, fd = r.type :: fd₀ ∧
      readLength "key_len" fd₀ 0 0 [r.type] = .ok (keyLen, raw, fd₁) ∧
      readFull fd₁ keyLen = some (r.key, fd₂) ∧
      readLength "value_len" fd₂ 0 0 (raw ++ r.key) = .ok (valueLen, raw', fd₃) ∧
      readFull fd₃ valueLen = some (r.value, fd₄) ∧ readFull fd₄ 4 = some (crcBuf, rest) ∧
      decodeFixed32 crcBuf = some (crc32 (raw' ++ r.value)) := by
  -- one case for each early return of `ReadRecord`
  cases fd with
  | nil => exact absurd h (stops_nil _)
  | cons type fd₀ =>
    simp only [readRecord, bind, Except.bind] at h
    cases hk : readLength "key_len" fd₀ 0 0 [type] with
    | error e => rw [hk] at h; cases h
    | ok x =>
      obtain ⟨keyLen, raw, fd₁⟩ := x
      simp only [hk] at h
      cases hkey : readFull fd₁ keyLen with
      | none => rw [hkey] at h; cases h
      | some x =>
        obtain ⟨key, fd₂⟩ := x
        simp only [hkey] at h
        cases hv : readLength "value_len" fd₂ 0 0 (raw ++ key) with
        | error e => rw [hv] at h; cases h
        | ok x =>
          obtain ⟨valueLen, raw', fd₃⟩ := x
          simp only [hv] at h
          cases hvalue : readFull fd₃ valueLen with
          | none => rw [hvalue] at h; cases h
          | some x =>
            obtain ⟨value, fd₄⟩ := x
            simp only [hvalue] at h
            cases hc : readFull fd₄ 4 with
            | none => rw [hc] at h; cases h
            | some x =>
              obtain ⟨crcBuf, fd₅⟩ := x
              simp only [hc] at h
              split at h
              · cases h
              · rename_i hcrc
                cases h
                exact ⟨fd₀, fd₁, fd₂, fd₃, fd₄, raw, raw', crcBuf, keyLen, valueLen, rfl, hk, hkey, hv,
                  hvalue, hc, not_not.1 hcrc⟩

/-- **Bytes behind a record do not change how it is read.** -/
theorem readRecord_append {fd rest : Bytes} {r : Record} (h : readRecord fd = .ok (some (r, rest)))
    (more : Bytes) : readRecord (fd ++ more) = .ok (some (r, rest ++ more)) := by
  obtain ⟨fd₀, fd₁, fd₂, fd₃, fd₄, raw, raw', crcBuf, keyLen, valueLen, rfl, hk, hkey, hv, hvalue, hc,
    hcrc⟩ := fields_of_readRecord h
  exact readRecord_of_fields (readLength_append hk more) (readFull_more hkey more)
    (readLength_append hv more) (readFull_more hvalue more) (readFull_more hc more) hcrc

/-! ## Lengths of five bytes -/

/-- The length loop refuses a fifth byte. -/
theorem readLength_long (field : String) (i m v s r : ℕ) (raw rest : Bytes) (him : i ≤ m)
    (hv : 2 ^ (7 * i) ≤ v) (hs : s + 7 * i = 28) :
    readLength field (Leb128.encode (m + 1) v ++ rest) s r raw =
      .error (.corruption ("WALReader: varint32 overflow in " ++ field)) := by
  -- `i` bytes may still be read before the fifth
  induction i generalizing m v s r raw with
  | zero =>
    obtain ⟨b, bs, hb⟩ := List.exists_cons_of_ne_nil (List.length_pos_iff.1 (Leb128.encode_length_pos m v))
    rw [hb, List.cons_append, readLength, if_pos (by omega)]
  | succ i ih =>
    obtain ⟨m, rfl⟩ : ∃ m', m = m' + 1 := ⟨m - 1, by omega⟩
    have hpow : 2 ^ (7 * (i + 1)) = 2 ^ (7 * i) * 128 := by rw [Nat.mul_succ, Nat.pow_add]
    have hone : 0 < 2 ^ (7 * i) := Nat.two_pow_pos _
    have hge : 128 ≤ v := by omega
    rw [Leb128.encode_of_le hge, List.cons_append, readLength, if_neg (by omega),
      if_neg (Leb128.more_byte v)]
    apply ih m (v / 128) (s + 7) _ _ (by omega) _ (by omega)
    rw [Nat.le_div_iff_mul_le (by decide)]
    omega

theorem readLength_varint32_long (field : String) {n : ℕ} (hn : n < 2 ^ 32) (hlong : 2 ^ 28 ≤ n)
    (raw rest : Bytes) :
    readLength field (varint32Encode (toUInt32 n) ++ rest) 0 0 raw =
      .error (.corruption ("WALReader: varint32 overflow in " ++ field)) := by
  rw [varint32Encode, toUInt32_toNat hn]
  exact readLength_long field 4 4 n 0 0 raw rest le_rfl (by simpa using hlong) rfl

/-- A record's body, field by field, with anything behind it. -/
theorem recordBody_append (r : Record) (rest : Bytes) :
    recordBody r ++ rest = r.type :: (varint32Encode (toUInt32 r.key.length) ++ (r.key ++
      (varint32Encode (toUInt32 r.value.length) ++ (r.value ++ rest)))) := by
  simp [recordBody]

/-- A record with a length of five varint bytes is not read. -/
theorem stops_of_long {r : Record} (hr : r.Sized) (hlong : ¬r.Short) (rest : Bytes) :
    Stops (addRecord r ++ rest) := by
  rintro ⟨⟨type, key, value⟩, rest'⟩ h
  rw [addRecord, List.append_assoc, recordBody_append] at h
  obtain ⟨fd₀, fd₁, fd₂, fd₃, fd₄, raw, raw', crcBuf, keyLen, valueLen, heq, hk, hkey, hv, -⟩ :=
    fields_of_readRecord h
  obtain ⟨-, rfl⟩ := List.cons.inj heq
  rcases Nat.lt_or_ge r.key.length (2 ^ 28) with hks | hkl
  · -- the key is read, the length of the value is not
    rw [readLength_varint32 _ hks] at hk
    cases hk
    rw [readFull_append] at hkey
    cases hkey
    have hvl : 2 ^ 28 ≤ r.value.length := by
      by_contra hvs
      exact hlong ⟨hks, by omega⟩
    rw [readLength_varint32_long _ hr.value hvl] at hv
    cases hv
  · rw [readLength_varint32_long _ hr.key hkl] at hk
    cases hk

/-- **`ReadRecord` undoes `AddRecord`** for the lengths of at most four varint bytes, and for
no others. -/
theorem readRecord_addRecord_iff {r : Record} (hr : r.Sized) (rest : Bytes) :
    readRecord (addRecord r ++ rest) = .ok (some (r, rest)) ↔ r.Short := by
  constructor
  · intro h
    by_contra hlong
    exact stops_of_long hr hlong rest _ h
  · intro h
    exact readRecord_addRecord h rest

/-- Lengths of five bytes are refused: a key of `2 ^ 28` bytes is written and not read. -/
theorem readRecord_refuses_long :
    ¬∀ r : Record, r.Sized → ∀ rest, readRecord (addRecord r ++ rest) = .ok (some (r, rest)) := by
  intro h
  have hlen : (List.replicate (2 ^ 28) (0 : UInt8)).length = 2 ^ 28 := List.length_replicate
  have hr : Record.Sized ⟨1, List.replicate (2 ^ 28) 0, []⟩ := ⟨by rw [hlen]; decide, by decide⟩
  refine stops_of_long hr ?_ [] _ (h _ hr [])
  intro hs
  have := hs.key
  rw [hlen] at this
  exact absurd this (by decide)

theorem readRecord_addRecord_iff_small :
    readRecord (addRecord ⟨1, [107], [118]⟩ ++ [9]) = .ok (some (⟨1, [107], [118]⟩, [9])) :=
  (readRecord_addRecord_iff ⟨by decide, by decide⟩ [9]).2 ⟨by decide, by decide⟩

/-! ## Logs that are cut -/

/-- A record of which a part is missing is not read. -/
theorem stops_of_part {r : Record} (hr : r.Sized) {p q : Bytes} (hpq : addRecord r = p ++ q)
    (hq : q ≠ []) : Stops p := by
  rintro ⟨r', rest⟩ h
  -- what reads a part would read the whole record, with more left over
  have hmore := readRecord_append h q
  rw [← hpq] at hmore
  by_cases hs : r.Short
  · have hwhole := readRecord_addRecord hs []
    rw [List.append_nil, hmore] at hwhole
    -- the whole record leaves nothing, so there is nothing behind its part
    have hrest : rest ++ q = [] := by injection hwhole with h; injection h with h; injection h
    exact hq (List.append_eq_nil_iff.1 hrest).2
  · have := stops_of_long hr hs []
    rw [List.append_nil] at this
    exact this _ hmore

/-- A log that is cut holds its leading records as far as they are whole, and a part of the
next. -/
theorem take_logBytes {rs : List Record} (hrs : ∀ r ∈ rs, r.Sized) (n : ℕ) :
    ∃ k ≤ rs.length, ∃ p, (logBytes rs).take n = logBytes (rs.take k) ++ p ∧ Stops p ∧
      ∀ j < rs.length, (j < k ↔ (logBytes (rs.take (j + 1))).length ≤ n) := by
  induction rs generalizing n with
  | nil => exact ⟨0, le_rfl, [], by simp, stops_nil, by simp⟩
  | cons r rs ih =>
    rcases Nat.lt_or_ge n (addRecord r).length with hn | hn
    · -- the cut falls into the first record
      refine ⟨0, Nat.zero_le _, (addRecord r).take n, ?_, ?_, ?_⟩
      · rw [logBytes_cons, List.take_append_of_le_length (by omega)]
        rfl
      · apply stops_of_part (hrs r List.mem_cons_self) (List.take_append_drop n _).symm
        intro h
        rw [List.drop_eq_nil_iff] at h
        omega
      · intro j _
        rw [List.take_succ_cons, logBytes_cons, List.length_append]
        omega
    · obtain ⟨k, hk, p, htake, hp, hcount⟩ :=
        ih (fun r' h => hrs r' (List.mem_cons_of_mem _ h)) (n - (addRecord r).length)
      refine ⟨k + 1, Nat.succ_le_succ hk, p, ?_, hp, ?_⟩
      · rw [logBytes_cons, List.take_append, List.take_of_length_le hn, htake, List.take_succ_cons,
          logBytes_cons, List.append_assoc]
      · intro j hj
        rw [List.take_succ_cons, logBytes_cons, List.length_append]
        cases j with
        | zero => simp only [List.take_zero, logBytes_nil, List.length_nil]; omega
        | succ j =>
          have := hcount j (by simpa using hj)
          omega

/-- **A log that is cut at any place** still delivers its leading records as far as they are
whole, unchanged and in order, and nothing else. -/
theorem recoverFile_take {rs : List Record} (hrs : ∀ r ∈ rs, r.Short) (n : ℕ) :
    ∃ k ≤ rs.length, recoverFile (some ((logBytes rs).take n)) = (.OK, rs.take k) ∧
      ∀ j < rs.length, (j < k ↔ (logBytes (rs.take (j + 1))).length ≤ n) := by
  obtain ⟨k, hk, p, htake, hp, hcount⟩ := take_logBytes (fun r h => (hrs r h).sized) n
  refine ⟨k, hk, ?_, hcount⟩
  rw [recoverFile, htake, recover_append (fun r h => hrs r (List.mem_of_mem_take h)) hp]

/-- A `Put` and a `Delete`. -/
def twoRecords : List Record := [⟨1, [107], [118]⟩, ⟨2, [107], []⟩]

theorem twoRecords_short : ∀ r ∈ twoRecords, r.Short := by
  intro r hr
  simp only [twoRecords, List.mem_cons, List.not_mem_nil, or_false] at hr
  rcases hr with rfl | rfl <;> exact ⟨by decide, by decide⟩

/-- The second record is cut in its CRC. -/
theorem recoverFile_take_twoRecords :
    ∃ k ≤ twoRecords.length, recoverFile (some ((logBytes twoRecords).take 16)) =
        (.OK, twoRecords.take k) ∧
      ∀ j < twoRecords.length, (j < k ↔ (logBytes (twoRecords.take (j + 1))).length ≤ 16) :=
  recoverFile_take twoRecords_short 16

/-! ## Logs that are damaged -/

/-- `xs` and `ys` differ, and only in at most four consecutive bytes. -/
def Burst (xs ys : Bytes) : Prop :=
  ∃ as ds es bs, xs = as ++ ds ++ bs ∧ ys = as ++ es ++ bs ∧ ds.length = es.length ∧
    ds.length ≤ 4 ∧ ds ≠ es

/-- The bytes of a record after at most four consecutive bytes of its type, its key, its value
or its CRC have changed. -/
def Damaged (r : Record) (bad : Bytes) : Prop :=
  ∃ i ∈ [0, 2, 4, 5], ∃ f f', (pieces r)[i]? = some f ∧ Burst f f' ∧
    bad = ((pieces r).set i f').flatten

theorem Burst.length_eq {xs ys : Bytes} (h : Burst xs ys) : xs.length = ys.length := by
  obtain ⟨as, ds, es, bs, rfl, rfl, hl, -⟩ := h
  simp [hl]

theorem Burst.ne {xs ys : Bytes} (h : Burst xs ys) : xs ≠ ys := by
  obtain ⟨as, ds, es, bs, rfl, rfl, -, -, hne⟩ := h
  simpa using hne

/-- A burst inside the bytes under a checksum changes it. -/
theorem Burst.crc32_ne {xs ys : Bytes} (h : Burst xs ys) (before behind : Bytes) :
    crc32 (before ++ xs ++ behind) ≠ crc32 (before ++ ys ++ behind) := by
  obtain ⟨as, ds, es, bs, rfl, rfl, hl, h4, hne⟩ := h
  have := @crc32_burst (before ++ as) ds es (bs ++ behind) hl h4 hne
  simpa [List.append_assoc] using this

/-- `DecodeFixed32` tells four bytes apart. -/
theorem eq_encodeFixed32 {bs : Bytes} {v : UInt32} (hl : bs.length = 4) (h : decodeFixed32 bs = some v) :
    bs = encodeFixed32 v := by
  match bs, hl with
  | [b0, b1, b2, b3], _ =>
    simp only [decodeFixed32, Option.some.injEq] at h
    subst h
    simp only [encodeFixed32, List.cons.injEq, and_true, ← UInt8.toBitVec_inj]
    refine ⟨?_, ?_, ?_, ?_⟩ <;> ext i hi <;>
      simp only [UInt32.toBitVec_or, UInt32.toBitVec_shiftLeft, UInt32.toBitVec_shiftRight,
        UInt8.toBitVec_toUInt32, UInt32.toBitVec_toUInt8, BitVec.getElem_setWidth,
        BitVec.getLsbD_setWidth, UInt32.toBitVec_ofNat, BitVec.shiftLeft_eq', BitVec.ushiftRight_eq',
        BitVec.getLsbD_ushiftRight, BitVec.getLsbD_or, BitVec.getLsbD_shiftLeft] <;>
      grind

/-- A record whose CRC is not that of its body is not read. -/
theorem stops_of_mismatch {r : Record} (hr : r.Short) {crcBuf : Bytes} (hc : crcBuf.length = 4)
    (hne : decodeFixed32 crcBuf ≠ some (crc32 (recordBody r))) (rest : Bytes) :
    Stops (recordBody r ++ crcBuf ++ rest) := by
  rintro ⟨⟨type, key, value⟩, rest'⟩ h
  rw [List.append_assoc, recordBody_append] at h
  obtain ⟨fd₀, fd₁, fd₂, fd₃, fd₄, raw, raw', buf, keyLen, valueLen, heq, hk, hkey, hv, hvalue, hbuf,
    hcrc⟩ := fields_of_readRecord h
  obtain ⟨htype, rfl⟩ := List.cons.inj heq
  rw [readLength_varint32 _ hr.key] at hk
  cases hk
  rw [readFull_append] at hkey
  cases hkey
  rw [readLength_varint32 _ hr.value] at hv
  cases hv
  rw [readFull_append] at hvalue
  cases hvalue
  rw [← hc, readFull_append] at hbuf
  cases hbuf
  apply hne
  rw [hcrc, ← htype]
  simp [recordBody]

/-- A damaged record is not read. -/
theorem stops_of_damaged {r : Record} (hr : r.Short) {bad : Bytes} (h : Damaged r bad) (rest : Bytes) :
    Stops (bad ++ rest) := by
  obtain ⟨i, hi, f, f', hf, hburst, rfl⟩ := h
  have hlen := hburst.length_eq
  -- a body with other bytes under the same lengths has another CRC than the one stored
  have hbody : ∀ r' : Record, r'.Short → crc32 (recordBody r') ≠ crc32 (recordBody r) →
      Stops (recordBody r' ++ encodeFixed32 (crc32 (recordBody r)) ++ rest) := by
    intro r' hr' hne
    apply stops_of_mismatch hr' rfl
    have := decodeFixed32_encode (crc32 (recordBody r)) []
    rw [List.append_nil] at this
    rw [this]
    exact fun h => hne (Option.some.inj h).symm
  simp only [List.mem_cons, List.not_mem_nil, or_false] at hi
  rcases hi with rfl | rfl | rfl | rfl
  · -- the type
    obtain rfl : [r.type] = f := by simpa [pieces] using hf
    obtain ⟨b, rfl⟩ : ∃ b, f' = [b] := List.length_eq_one_iff.1 hlen.symm
    have hne := hburst.crc32_ne [] ((recordBody r).drop 1)
    have := hbody { r with type := b } ⟨hr.key, hr.value⟩ fun h => hne (by simpa [recordBody] using h.symm)
    simpa [pieces, recordBody] using this
  · -- the key
    obtain rfl : r.key = f := by simpa [pieces] using hf
    have hne := hburst.crc32_ne ([r.type] ++ varint32Encode (toUInt32 r.key.length))
      (varint32Encode (toUInt32 r.value.length) ++ r.value)
    have := hbody { r with key := f' } ⟨hlen ▸ hr.key, hr.value⟩
      fun h => hne (by simpa [recordBody, hlen] using h.symm)
    simpa [pieces, recordBody, hlen] using this
  · -- the value
    obtain rfl : r.value = f := by simpa [pieces] using hf
    have hne := hburst.crc32_ne ([r.type] ++ varint32Encode (toUInt32 r.key.length) ++ r.key ++
      varint32Encode (toUInt32 r.value.length)) []
    have := hbody { r with value := f' } ⟨hr.key, hlen ▸ hr.value⟩
      fun h => hne (by simpa [recordBody, hlen] using h.symm)
    simpa [pieces, recordBody, hlen] using this
  · -- the CRC
    obtain rfl : encodeFixed32 (crc32 (recordBody r)) = f := by simpa [pieces] using hf
    have hne : decodeFixed32 f' ≠ some (crc32 (recordBody r)) :=
      fun h => hburst.ne (eq_encodeFixed32 hlen.symm h).symm
    have := stops_of_mismatch hr hlen.symm hne rest
    simpa [pieces, recordBody] using this

/-- **A burst of up to four bytes** in the type, the key, the value or the CRC of a record
ends the recovery just in front of that record. -/
theorem recoverFile_damaged {rs : List Record} (hrs : ∀ r ∈ rs, r.Short) {i : ℕ} {r : Record}
    (hr : rs[i]? = some r) {bad : Bytes} (hbad : Damaged r bad) :
    recoverFile (some (logBytes (rs.take i) ++ bad ++ logBytes (rs.drop (i + 1)))) =
      (.OK, rs.take i) := by
  have hstop := stops_of_damaged (hrs r (List.mem_of_getElem? hr)) hbad (logBytes (rs.drop (i + 1)))
  rw [recoverFile, List.append_assoc,
    recover_append (fun r h => hrs r (List.mem_of_mem_take h)) hstop]

/-- The key of the second record changed. -/
theorem recoverFile_damaged_twoRecords :
    recoverFile (some (logBytes (twoRecords.take 1) ++ [2, 1, 108, 0, 204, 207, 134, 12] ++
      logBytes (twoRecords.drop 2))) = (.OK, twoRecords.take 1) := by
  refine recoverFile_damaged twoRecords_short rfl
    ⟨2, by decide, [107], [108], rfl, ⟨[], [107], [108], [], rfl, rfl, rfl, ?_, ?_⟩, ?_⟩
  · decide
  · decide
  · decide +kernel

end WALReader

end MiniLSM
