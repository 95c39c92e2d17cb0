import MiniLSM.Spec.Wal
import MiniLSM.Proof.InternalKey
import Mathlib.Tactic.Linarith
import Mathlib.Tactic.Ring

/-!
# The log reads back what was appended to it

* `readLength_encode`: the reader's length loop undoes `Varint32Encode`, up to four bytes.
* `readRecord_addRecord`: `ReadRecord` undoes `AddRecord`, whatever follows the record.
* `recover_append`: `Recover` delivers the records of a log up to the first place where
  `ReadRecord` delivers none.
-/

namespace MiniLSM

open WALWriter WALReader

/-- The lengths of a record fit in four varint bytes, the most the reader takes. -/
structure Record.Short (r : Record) : Prop where
  key : r.key.length < 2 ^ 28
  value : r.value.length < 2 ^ 28

instance (r : Record) : Decidable r.Short :=
  decidable_of_iff (r.key.length < 2 ^ 28 ∧ r.value.length < 2 ^ 28)
    ⟨fun h => ⟨h.1, h.2⟩, fun h => ⟨h.key, h.value⟩⟩

/-- The bytes of a log with these records. -/
def logBytes (rs : List Record) : Bytes := (rs.map addRecord).flatten

@[simp] theorem logBytes_nil : logBytes [] = [] := rfl

@[simp] theorem logBytes_cons (r : Record) (rs : List Record) :
    logBytes (r :: rs) = addRecord r ++ logBytes rs := by simp [logBytes]

theorem logBytes_append (rs : List Record) (r : Record) :
    logBytes (rs ++ [r]) = logBytes rs ++ addRecord r := by simp [logBytes]

namespace WALReader

/-- The length loop undoes the varint encoder, as long as it stays within four bytes. -/
theorem readLength_encode (field : String) (n m v s r : ℕ) (raw rest : Bytes)
    (hm : n ≤ m) (hv : v < 2 ^ (7 * (n + 1))) (hs : s + 7 * (n + 1) ≤ 28) (hr : r < 2 ^ s) :
    readLength field (Leb128.encode (m + 1) v ++ rest) s r raw =
      .ok (r + v * 2 ^ s, raw ++ Leb128.encode (m + 1) v, rest) := by
  have hw : ∀ n v s, v < 2 ^ (7 * (n + 1)) → s + 7 * (n + 1) ≤ 28 → v * 2 ^ s < 2 ^ 32 := by
    intro n v s hv hs
    calc v * 2 ^ s < 2 ^ (7 * (n + 1)) * 2 ^ s := Nat.mul_lt_mul_of_pos_right hv (Nat.two_pow_pos s)
      _ = 2 ^ (7 * (n + 1) + s) := (Nat.pow_add 2 _ s).symm
      _ ≤ 2 ^ 32 := Nat.pow_le_pow_right (by decide) (by omega)
  have hlast : ∀ m v s r raw, v < 128 → s + 7 ≤ 28 → r < 2 ^ s →
      readLength field (Leb128.encode (m + 1) v ++ rest) s r raw =
        .ok (r + v * 2 ^ s, raw ++ Leb128.encode (m + 1) v, rest) := by
    intro m v s r raw hv hs hr
    rw [Leb128.encode_of_lt hv, List.singleton_append, readLength, if_neg (by omega),
      if_pos (Leb128.last_byte hv), Leb128.or_payload_last hv (hw 0 v s (by simpa using hv) hs) hr]
  induction n generalizing m v s r raw with
  | zero => exact hlast m v s r raw (by simpa using hv) (by omega) hr
  | succ n ih =>
    obtain ⟨m, rfl⟩ : ∃ m', m = m' + 1 := ⟨m - 1, by omega⟩
    rcases lt_or_ge v 128 with hlt | hge
    · exact hlast _ v s r raw hlt (by omega) hr
    · rw [Leb128.encode_of_le hge, List.cons_append, readLength, if_neg (by omega),
        if_neg (Leb128.more_byte v), Leb128.or_payload_more (hw _ v s hv hs) hr,
        ih m (v / 128) (s + 7) _ _ (by omega) (Leb128.div_lt_of_lt hv) (by omega)
          (Leb128.add_digit_lt hr v),
        List.append_assoc, List.singleton_append, Nat.add_assoc, ← Leb128.split_digit]

theorem readLength_varint32 (field : String) {n : ℕ} (hn : n < 2 ^ 28) (raw rest : Bytes) :
    readLength field (varint32Encode (toUInt32 n) ++ rest) 0 0 raw =
      .ok (n, raw ++ varint32Encode (toUInt32 n), rest) := by
  rw [varint32Encode, toUInt32_toNat (by omega),
    readLength_encode field 3 4 n 0 0 raw rest (by decide) hn (by decide) (by decide)]
  simp

@[simp] theorem readFull_append (a rest : Bytes) : readFull (a ++ rest) a.length = some (a, rest) := by
  simp [readFull]

/-- A record read field by field. -/
theorem readRecord_of_fields {type : UInt8} {key value crcBuf raw raw' fd fd₁ fd₂ fd₃ fd₄ fd₅ : Bytes}
    {keyLen valueLen : ℕ} (hk : readLength "key_len" fd 0 0 [type] = .ok (keyLen, raw, fd₁))
    (hkey : readFull fd₁ keyLen = some (key, fd₂))
    (hv : readLength "value_len" fd₂ 0 0 (raw ++ key) = .ok (valueLen, raw', fd₃))
    (hvalue : readFull fd₃ valueLen = some (value, fd₄))
    (hc : readFull fd₄ 4 = some (crcBuf, fd₅))
    (hcrc : decodeFixed32 crcBuf = some (crc32 (raw' ++ value))) :
    readRecord (type :: fd) = .ok (some (⟨type, key, value⟩, fd₅)) := by
  simp only [readRecord, hk, bind, Except.bind, hkey, hv, hvalue, hc, hcrc, ne_eq, not_true_eq_false,
    if_false, pure, Except.pure]

/-- **`ReadRecord` undoes `AddRecord`**, whatever follows the record. -/
theorem readRecord_addRecord {r : Record} (hr : r.Short) (rest : Bytes) :
    readRecord (addRecord r ++ rest) = .ok (some (r, rest)) := by
  set crcBuf := encodeFixed32 (crc32 (recordBody r)) with hcrcBuf
  have hsplit : addRecord r ++ rest = r.type :: (varint32Encode (toUInt32 r.key.length) ++ (r.key ++
      (varint32Encode (toUInt32 r.value.length) ++ (r.value ++ (crcBuf ++ rest))))) := by
    simp [addRecord, recordBody, hcrcBuf]
  rw [hsplit]
  refine readRecord_of_fields (readLength_varint32 _ hr.key _ _) (readFull_append _ _)
    (readLength_varint32 _ hr.value _ _) (readFull_append _ _) (readFull_append crcBuf rest) ?_
  rw [hcrcBuf]
  simpa [recordBody] using decodeFixed32_encode (crc32 (recordBody r)) []

theorem addRecord_ne_nil (r : Record) : addRecord r ≠ [] := by simp [addRecord, recordBody]

theorem addRecord_length_pos (r : Record) : 0 < (addRecord r).length :=
  List.length_pos_iff.2 (addRecord_ne_nil r)

/-- `ReadRecord` delivers no record from here. -/
def Stops (fd : Bytes) : Prop := ∀ x, readRecord fd ≠ .ok (some x)

theorem stops_nil : Stops [] := by
  intro x h
  simp [readRecord, pure, Except.pure] at h

theorem Stops.recoverLoop {fd : Bytes} (h : Stops fd) (n : ℕ) : recoverLoop n fd = [] := by
  cases n with
  | zero => rfl
  | succ n =>
    rw [WALReader.recoverLoop]
    split
    · rename_i r fd' heq; exact absurd heq (h (r, fd'))
    · rfl

/-- The loop delivers the records at the head of a log, and goes on behind them. -/
theorem recoverLoop_append {rs : List Record} (hrs : ∀ r ∈ rs, r.Short) {tail : Bytes}
    (htail : Stops tail) : ∀ n, (logBytes rs).length ≤ n → recoverLoop n (logBytes rs ++ tail) = rs := by
  induction rs with
  | nil => intro n _; exact htail.recoverLoop n
  | cons r rs ih =>
    intro n hn
    have hpos := addRecord_length_pos r
    rw [logBytes_cons, List.length_append] at hn
    obtain ⟨n, rfl⟩ : ∃ m, n = m + 1 := ⟨n - 1, by omega⟩
    rw [logBytes_cons, List.append_assoc, recoverLoop, readRecord_addRecord (hrs r List.mem_cons_self)]
    simp only
    rw [ih (fun r' h => hrs r' (List.mem_cons_of_mem _ h)) n (by omega)]

/-- **`Recover` delivers the records of a log in order**, up to the first place where no
record can be read. -/
theorem recover_append {rs : List Record} (hrs : ∀ r ∈ rs, r.Short) {tail : Bytes}
    (htail : Stops tail) : recover (logBytes rs ++ tail) = rs := by
  apply recoverLoop_append hrs htail
  rw [List.length_append]
  omega

theorem recover_addRecords {rs : List Record} (hrs : ∀ r ∈ rs, r.Short) :
    recover (logBytes rs) = rs := by
  simpa using recover_append hrs stops_nil

end WALReader

end MiniLSM
