import MiniLSM.Spec.Manifest
import MiniLSM.Spec.DB

/-!
# `db.cc`: `DB::Open` of a directory that exists

The MANIFEST is bytes here, of any content, and so are the files of its tables. `Recover` calls
`ReadManifest`, replays the log and opens it for writing; of these three only the last has its
status looked at. A process that has no `DB` can never reach `WriteManifest`.
-/

namespace MiniLSM

namespace ManifestText

/-- The strings `line` of the loop: what `fgets` delivers, each up to a zero byte. -/
def lines (text : Bytes) : List Bytes := (fgetsAll text).map cString

/-- What `ReadManifest` makes of a text that may hold zero bytes. -/
def readLines (files : Bytes → Option Bytes) (text : Bytes) : Option Restored :=
  (lines text).foldlM (readLine files) {}

/-- What a line of a MANIFEST lists: a level and a path, whatever stands behind them. -/
def listing (line : Bytes) : Option (ℤ × Bytes) := do
  let (level, s) ← readInt line
  let (filepath, _) ← Text.nextWord isSpace s
  return (level, filepath)

/-- The tables that a MANIFEST lists. -/
def listed (text : Bytes) : List (ℤ × Bytes) :=
  (text.splitOn 10).filterMap fun line => listing (cString line)

/-- The number that a line sets `wal_number_` to. -/
def walLine (line : Bytes) : Option UInt64 :=
  if (ascii "wal_number:").isPrefixOf line then stoull (line.drop 12) else none

/-- The log that the lines of a MANIFEST name last, the first log without one. -/
def walNumberIn (text : Bytes) : UInt64 :=
  ((lines text).filterMap fun line => walLine (trim line)).getLast?.getD 1

end ManifestText

open ManifestText

/-- A database directory that exists, and how its files answer. -/
structure Directory where
  manifest : Bytes
  /-- What `fgets` gets of the MANIFEST before it stops, `none` where `fopen` fails. -/
  reads : Option Bytes
  files : Bytes → Option Bytes
  logs : UInt64 → Option Bytes
  /-- Whether `WALWriter::Open` can open a log. -/
  logOpens : UInt64 → Bool

/-- `ReadManifest`. Its status is IOError where `fopen` fails, and no caller asks for it: the
fields are left as the constructor set them. -/
def Directory.readManifest (dir : Directory) : Option Restored :=
  match dir.reads with
  | none => some {}
  | some text => readLines dir.files text

/-- What `Recover` leaves in a `DB` whose log is open. -/
structure Opened where
  levels : List (List OpenTable)
  nextFileNumber : UInt64
  walNumber : UInt64
  mem : MemTable
  lastSequence : SequenceNumber

/-- A process that has called `Open`: the directory, and `*dbptr` when it was set. -/
structure Session where
  dir : Directory
  db : Option Opened

/-- `Recover`: the directory behind it, and the `DB` or the status it fails with. `none` is a
call that throws, does not end, or that C++ leaves undefined. -/
def Directory.recover (dir : Directory) (heights : ℕ → ℕ) :
    Option (Except Status Opened × Directory) := do
  let m ← dir.readManifest
  -- the callback only adds to `mem_` and moves `last_sequence_`
  let records := ((dir.logs m.walNumber).map WALReader.recover).getD []
  let replayed := DB.replayAll { options := {} } records heights
  if dir.logOpens m.walNumber then
    -- `O_CREAT`
    let log := (dir.logs m.walNumber).getD []
    return (.ok
      { levels := m.levels
        nextFileNumber := m.nextFileNumber
        walNumber := m.walNumber
        mem := replayed.mem
        lastSequence := replayed.lastSequence },
      { dir with logs := Function.update dir.logs m.walNumber (some log) })
  else return (.error (.ioError "WALWriter::Open: cannot open "), dir)

/-- `DB::Open`. A `DB` that fails to recover is deleted, which writes nothing. -/
def Directory.openDB (dir : Directory) (errorIfExists : Bool) (heights : ℕ → ℕ) :
    Option (Status × Session) := do
  if errorIfExists then
    return (.ioError "DB::Open: db already exists: ", { dir := dir, db := none })
  match ← dir.recover heights with
  | (.error s, dir) => return (s, { dir := dir, db := none })
  | (.ok db, dir) => return (.OK, { dir := dir, db := some db })

/-- A section of a flush or a compaction that changes `levels_` and then calls `WriteManifest`. -/
structure Rewrite where
  change : List (List OpenTable) → List (List OpenTable)
  nextFileNumber : UInt64
  walNumber : UInt64

/-- Such a section in a process. Without a `DB` there is none to run it. -/
def Session.rewrite (s : Session) (w : Rewrite) : Session :=
  match s.db with
  | none => s
  | some db =>
    let levels := w.change db.levels
    { dir := { s.dir with manifest := ManifestText.print levels w.nextFileNumber w.walNumber }
      db := some
        { db with levels := levels, nextFileNumber := w.nextFileNumber, walNumber := w.walNumber } }

/-- A sequence of such sections. -/
def Session.run (s : Session) (ws : List Rewrite) : Session := ws.foldl Session.rewrite s

/-- The section that ends a flush: the new table goes into `levels_[0]`. -/
def Rewrite.flush (t : OpenTable) (nextFileNumber walNumber : UInt64) : Rewrite :=
  { change := fun levels => levels.modify 0 (· ++ [t])
    nextFileNumber := nextFileNumber
    walNumber := walNumber }

end MiniLSM
