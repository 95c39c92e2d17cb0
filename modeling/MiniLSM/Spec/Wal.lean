import MiniLSM.Spec.Coding
import MiniLSM.Spec.Status

/-!
# `wal.cc`: the write-ahead log

A record is a type byte, the key and the value behind their varint lengths, and a CRC over
all of that. `WALReader::Recover` delivers records until the first that cannot be read.
-/

namespace MiniLSM

/-- A record as the reader delivers it. -/
structure Record where
  type : UInt8
  key : Bytes
  value : Bytes
  deriving DecidableEq, Repr

namespace WALWriter

/-- `WALWriter::RecordType`. -/
inductive RecordType
  | put | delete
  deriving DecidableEq, Repr

/-- The byte of a `RecordType`. -/
def RecordType.toByte : RecordType → UInt8
  | .put => 0x01
  | .delete => 0x02

/-- The part of a record under the CRC. -/
def recordBody (r : Record) : Bytes :=
  [r.type] ++ varint32Encode (toUInt32 r.key.length) ++ r.key ++
    varint32Encode (toUInt32 r.value.length) ++ r.value

/-- The bytes that `WALWriter::AddRecord` writes. -/
def addRecord (r : Record) : Bytes := recordBody r ++ encodeFixed32 (crc32 (recordBody r))

/-- The same bytes, piece by piece: type, length and bytes of the key, length and bytes of the
value, CRC. -/
def pieces (r : Record) : List Bytes :=
  [[r.type], varint32Encode (toUInt32 r.key.length), r.key,
    varint32Encode (toUInt32 r.value.length), r.value, encodeFixed32 (crc32 (recordBody r))]

theorem pieces_flatten (r : Record) : (pieces r).flatten = addRecord r := by
  simp [pieces, addRecord, recordBody]

end WALWriter

namespace WALReader

/-- `ReadFull`: the next `n` bytes, or `none` at the end of the file. -/
def readFull (fd : Bytes) (n : ℕ) : Option (Bytes × Bytes) :=
  if fd.length < n then none else some (fd.take n, fd.drop n)

/-- The loop that reads a length byte by byte: the value, the bytes read and what is left. -/
def readLength (field : String) : Bytes → ℕ → ℕ → Bytes → Except Status (ℕ × Bytes × Bytes)
  | [], _, _, _ => .error (.corruption ("WALReader: unexpected EOF reading " ++ field))
  | b :: fd, shift, len, raw =>
    let len := len ||| Leb128.payload 32 shift b
    let shift := shift + 7
    -- comes before the look at the top bit, so a fifth byte never counts as the last
    if 35 ≤ shift then .error (.corruption ("WALReader: varint32 overflow in " ++ field))
    else if b &&& 0x80 = 0 then .ok (len, raw ++ [b], fd)
    else readLength field fd shift len (raw ++ [b])

/-- `WALReader::ReadRecord`: `none` at the end of the file, else a record and the rest. -/
def readRecord (fd : Bytes) : Except Status (Option (Record × Bytes)) := do
  match fd with
  | [] => return none
  | type :: fd =>
    let (keyLen, raw, fd) ← readLength "key_len" fd 0 0 [type]
    let some (key, fd) := readFull fd keyLen
      | throw (.corruption "WALReader: unexpected EOF reading key")
    let (valueLen, raw, fd) ← readLength "value_len" fd 0 0 (raw ++ key)
    let some (value, fd) := readFull fd valueLen
      | throw (.corruption "WALReader: unexpected EOF reading value")
    let raw := raw ++ value
    let some (crcBuf, fd) := readFull fd 4
      | throw (.corruption "WALReader: unexpected EOF reading CRC")
    if decodeFixed32 crcBuf ≠ some (crc32 raw) then
      throw (.corruption "WALReader: CRC mismatch")
    return some (⟨type, key, value⟩, fd)

/-- The loop of `WALReader::Recover`, for at most `n` records. -/
def recoverLoop : ℕ → Bytes → List Record
  | 0, _ => []
  | n + 1, fd =>
    match readRecord fd with
    | .ok (some (r, fd)) => r :: recoverLoop n fd
    -- whatever follows the first record that cannot be read is given up
    | _ => []

/-- `WALReader::Recover`: the records it hands to the callback. Every record takes at
least one byte, so the loop ends within the length of the file. -/
def recover (file : Bytes) : List Record := recoverLoop file.length file

/-- `WALReader::Recover` on a path: what it returns and what it hands to the callback. A file
that is not there is no error, and neither is a record that cannot be read. -/
def recoverFile : Option Bytes → Status × List Record
  | none => (.OK, [])
  | some file => (.OK, recover file)

end WALReader

/-! ## The history of one log file -/

/-- What the file holds of one call of `AddRecord`; `kept` when the call returned OK and no
crash has cut its record since. -/
structure Appended where
  record : Record
  bytes : Bytes
  kept : Bool
  deriving DecidableEq, Repr

/-- A log file, call by call. Calls that left nothing in it are not listed. -/
abbrev LogFile := List Appended

/-- A call on a log file, or a crash. -/
inductive LogEvent
  /-- `AddRecord`; with `some n`, `WriteFull` stops after `n` bytes and the call fails. -/
  | addRecord (r : Record) (fails : Option ℕ)
  /-- A crash that leaves `n` bytes of the last record in the file. -/
  | crash (n : ℕ)
  /-- `WALWriter::Open` on the file, with `O_APPEND`. -/
  | reopen
  deriving DecidableEq, Repr

namespace LogFile

/-- The bytes of the file. -/
def file (f : LogFile) : Bytes := (f.map (·.bytes)).flatten

/-- The records whose `AddRecord` returned OK and that no crash cut. -/
def kept (f : LogFile) : List Record := (f.filter (·.kept)).map (·.record)

/-- What is left of a record when only `bytes` of it are in the file. -/
def torn (r : Record) (bytes : Bytes) : LogFile := if bytes = [] then [] else [⟨r, bytes, false⟩]

/-- One event. `none`: it cannot happen here. -/
def step (f : LogFile) : LogEvent → Option LogFile
  | .addRecord r none => some (f ++ [⟨r, WALWriter.addRecord r, true⟩])
  | .addRecord r (some n) =>
    if n < (WALWriter.addRecord r).length then
      some (f ++ torn r ((WALWriter.addRecord r).take n))
    else none
  | .crash n =>
    match f.getLast? with
    | some a =>
      if n < a.bytes.length then some (f.dropLast ++ torn a.record (a.bytes.take n)) else none
    | none => none
  | .reopen => some f

end LogFile

end MiniLSM
