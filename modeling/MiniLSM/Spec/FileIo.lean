import MiniLSM.Spec.Wal
import MiniLSM.Spec.SSTableBuilder

/-!
# Reading and writing by system calls

`read` and `write` may fail, and may move fewer bytes than they are asked for. `WriteFull`,
`FdWriteFull` and `ReadFull` call them again until all bytes have been moved.
-/

namespace MiniLSM

/-- The most bytes that one `read` or `write` moves, so that an `int` holds what it returns. -/
def maxTransfer : ℕ := 0x7ffff000

/-! ## Writing -/

/-- A descriptor that is written at the end of its file, with what the coming calls of `write` will
do: `none` for one that fails, `some n` for one that takes at most `n` bytes. -/
structure WriteFd where
  file : Bytes := []
  calls : ℕ := 0
  results : ℕ → Option ℕ := fun _ => some maxTransfer

namespace WriteFd

/-- `os_write` of the first `count` bytes of `buf`: how many it takes, `none` for a failure. -/
def osWrite (fd : WriteFd) (buf : Bytes) (count : ℕ) : Option ℕ × WriteFd :=
  match fd.results fd.calls with
  | none => (none, { fd with calls := fd.calls + 1 })
  | some n =>
    let taken := buf.take (min (min n maxTransfer) count)
    (some taken.length, { fd with file := fd.file ++ taken, calls := fd.calls + 1 })

/-- `WriteFull` within `fuel` calls; `none` if they do not end it. -/
def writeFull : ℕ → WriteFd → Bytes → Option (Bool × WriteFd)
  | 0, fd, buf => if buf = [] then some (true, fd) else none
  | fuel + 1, fd, buf =>
    if buf = [] then some (true, fd)
    else
      match fd.osWrite buf buf.length with
      | (none, fd) => some (false, fd)
      -- also when the call has taken nothing
      | (some w, fd) => writeFull fuel fd (buf.drop w)

/-- `FdWriteFull` in at most `fuel` calls. Each call takes a byte or ends it, so that as many calls as
there are bytes are enough. -/
def fdWriteFull : ℕ → WriteFd → Bytes → Bool × WriteFd
  | 0, fd, buf => (buf = [], fd)
  | fuel + 1, fd, buf =>
    if buf = [] then (true, fd)
    else
      -- the count is an `unsigned int`
      match fd.osWrite buf (buf.length % 2 ^ 32) with
      | (none, fd) => (false, fd)
      | (some w, fd) => if w = 0 then (false, fd) else fdWriteFull fuel fd (buf.drop w)

end WriteFd

/-! ## Reading -/

/-- A descriptor that is read from the front, with what the coming calls of `read` will do: `none`
for one that fails, `some n` for one that gives at most `n + 1` bytes. Nothing is given only at the
end of the file. -/
structure ReadFd where
  rest : Bytes
  calls : ℕ := 0
  results : ℕ → Option ℕ := fun _ => some maxTransfer

/-- Code that reads from a descriptor and may return early with a status. -/
abbrev ReadM := ExceptT Status (StateM ReadFd)

namespace ReadFd

/-- `os_read` of `count` bytes: the bytes, or `none` for a failure. -/
def osRead (count : ℕ) : StateM ReadFd (Option Bytes) := fun fd =>
  match fd.results fd.calls with
  | none => (none, { fd with calls := fd.calls + 1 })
  | some n =>
    let k := min (min (n + 1) maxTransfer) count
    (some (fd.rest.take k), { fd with rest := fd.rest.drop k, calls := fd.calls + 1 })

/-- `ReadFull` of `n` bytes in at most `fuel` calls, behind the bytes `buf`. Each call gives a byte
or ends it, so that `n` calls are enough. -/
def readFull : ℕ → ℕ → Bytes → StateM ReadFd (Option Bytes)
  | 0, n, buf => pure (if n = 0 then some buf else none)
  | fuel + 1, n, buf => do
    if n = 0 then return some buf
    match ← osRead n with
    | none => return none
    | some bytes => if bytes = [] then return none else readFull fuel (n - bytes.length) (buf ++ bytes)

/-- `ReadFull` where `ReadRecord` calls it. -/
def readField (n : ℕ) (field : String) : ReadM Bytes := do
  match ← (readFull n n [] : StateM ReadFd (Option Bytes)) with
  | some bytes => return bytes
  | none => throw (.corruption ("WALReader: unexpected EOF reading " ++ field))

/-- The loop that reads a length byte by byte, in at most `fuel` turns: the value and all bytes
read. The fifth turn returns at the latest. -/
def readLength (field : String) : ℕ → ℕ → ℕ → Bytes → ReadM (ℕ × Bytes)
  | 0, _, _, _ => throw (.corruption ("WALReader: varint32 overflow in " ++ field))
  | fuel + 1, shift, len, raw => do
    match ← (osRead 1 : StateM ReadFd (Option Bytes)) with
    | some (b :: _) =>
      let len := len ||| Leb128.payload 32 shift b
      let shift := shift + 7
      if 35 ≤ shift then throw (.corruption ("WALReader: varint32 overflow in " ++ field))
      if b &&& 0x80 = 0 then return (len, raw ++ [b])
      readLength field fuel shift len (raw ++ [b])
    | _ => throw (.corruption ("WALReader: unexpected EOF reading " ++ field))

/-- `WALReader::ReadRecord`: `none` at the end of the file. -/
def readRecord : ReadM (Option Record) := do
  match ← (osRead 1 : StateM ReadFd (Option Bytes)) with
  | none => throw (.ioError "WALReader: read type failed")
  | some [] => return none
  | some (type :: _) =>
    let (keyLen, raw) ← readLength "key_len" 5 0 0 [type]
    let key ← readField keyLen "key"
    let (valueLen, raw) ← readLength "value_len" 5 0 0 (raw ++ key)
    let value ← readField valueLen "value"
    let crcBuf ← readField 4 "CRC"
    if decodeFixed32 crcBuf ≠ some (crc32 (raw ++ value)) then
      throw (.corruption "WALReader: CRC mismatch")
    return some ⟨type, key, value⟩

/-- The loop of `WALReader::Recover`, for at most `n` records. -/
def recoverLoop : ℕ → StateM ReadFd (List Record)
  | 0 => pure []
  | n + 1 => do
    match ← readRecord.run with
    | .ok (some r) => return r :: (← recoverLoop n)
    | _ => return []

/-- `WALReader::Recover` on an open file: what it returns and what it hands to the callback. A failed
`read` ends the loop as a damaged record does. -/
def recover (fd : ReadFd) : Status × List Record := (.OK, (recoverLoop fd.rest.length fd).1)

end ReadFd

/-! ## The history of one log file, call by call -/

/-- A call on a log file, or a crash. -/
inductive LogCall
  /-- `AddRecord`, with what its calls of `write` do. -/
  | addRecord (r : Record) (results : ℕ → Option ℕ)
  /-- A crash that leaves `n` bytes of the last record in the file. -/
  | crash (n : ℕ)
  /-- `WALWriter::Open` on the file. -/
  | reopen

namespace LogFile

/-- One call of `AddRecord` within `fuel` calls of `write`: whether it returns OK, and the file after it.
`none` if it does not return. -/
def addRecordBy (f : LogFile) (r : Record) (results : ℕ → Option ℕ) (fuel : ℕ) : Option (Bool × LogFile) := do
  let (ok, fd) ← WriteFd.writeFull fuel { file := f.file, results := results } (WALWriter.addRecord r)
  let written := fd.file.drop f.file.length
  return (ok, f ++ if ok then [⟨r, written, true⟩] else torn r written)

/-- One event. `none`: it cannot happen here, or does not end within `fuel` calls. -/
def stepBy (fuel : ℕ) (f : LogFile) : LogCall → Option LogFile
  | .addRecord r results => (f.addRecordBy r results fuel).map Prod.snd
  | .crash n => f.step (.crash n)
  | .reopen => f.step .reopen

end LogFile

end MiniLSM
