import MiniLSM.Lib.Search
import MiniLSM.Spec.Iterator
import MiniLSM.Spec.Wal

/-!
# `db.cc`: the state of a database and its lock-protected sections

Files are known by their numbers. A section returns the new state and the file operations it
issues, in order; `none` marks a section that C++ leaves undefined, such as the use of a null
`wal_`. File and log numbers do not wrap, and writes to the log succeed.
-/

namespace MiniLSM

/-- `Options`, the fields that are read. -/
structure Options where
  writeBufferSize : ℕ := 4 * 1024 * 1024
  l0CompactionTrigger : ℤ := 4
  deriving DecidableEq, Repr

/-- `levels_`, which has at least two levels at all times. -/
structure Levels where
  l0 : List SSTable := []
  l1 : List SSTable := []
  deeper : List (List SSTable) := [[], []]
  deriving Repr

/-- `levels_` as the vector it is. -/
def Levels.toList (levels : Levels) : List (List SSTable) := levels.l0 :: levels.l1 :: levels.deeper

/-- All tables of `levels_`. -/
def Levels.tables (levels : Levels) : List SSTable := levels.toList.flatten

/-- `DB`. -/
structure DB where
  options : Options
  mem : MemTable := MemTable.new
  imm : Option MemTable := none
  levels : Levels := {}
  /-- The number of the log that `wal_` writes, `none` for the null pointer. -/
  wal : Option ℕ := none
  walNumber : ℕ := 1
  nextFileNumber : ℕ := 1
  lastSequence : SequenceNumber := 0
  immFlushing : Bool := false

/-! ## Files -/

/-- A line of the MANIFEST, kept as its fields. -/
inductive ManifestLine
  | table (level number : ℕ) (firstKey lastKey : Bytes)
  | nextFileNumber (n : ℕ)
  | walNumber (n : ℕ)
  deriving DecidableEq, Repr

/-- The files of a database directory. -/
structure Disk where
  logs : ℕ → Option Bytes := fun _ => none
  ssts : ℕ → Option Bytes := fun _ => none
  manifest : Option (List ManifestLine) := none

/-- A file operation. -/
inductive FsOp
  | openLog (number : ℕ)
  | appendLog (number : ℕ) (bytes : Bytes)
  | writeSst (number : ℕ) (bytes : Bytes)
  | unlinkSst (number : ℕ)
  | truncManifest
  | printManifest (line : ManifestLine)
  | closeManifest
  deriving DecidableEq, Repr

/-- What an operation does to the files. -/
def FsOp.apply (disk : Disk) : FsOp → Disk
  | openLog n => { disk with logs := Function.update disk.logs n (some ((disk.logs n).getD [])) }
  | appendLog n bytes =>
    { disk with logs := Function.update disk.logs n (some ((disk.logs n).getD [] ++ bytes)) }
  | writeSst n bytes => { disk with ssts := Function.update disk.ssts n (some bytes) }
  | unlinkSst n => { disk with ssts := Function.update disk.ssts n none }
  | truncManifest => { disk with manifest := some [] }
  | printManifest line => { disk with manifest := some (disk.manifest.getD [] ++ [line]) }
  | closeManifest => disk

/-- A sequence of operations. -/
def Disk.run (disk : Disk) (ops : List FsOp) : Disk := ops.foldl FsOp.apply disk

/-! ## The MANIFEST -/

/-- The lines that `WriteManifest` prints. -/
def DB.manifestLines (db : DB) : List ManifestLine :=
  db.levels.toList.zipIdx.flatMap (fun l => l.1.map fun t => .table l.2 t.number t.firstKey t.lastKey)
    ++ [.nextFileNumber db.nextFileNumber, .walNumber db.walNumber]

/-- `WriteManifest`. -/
def DB.writeManifest (db : DB) : List FsOp :=
  .truncManifest :: db.manifestLines.map .printManifest ++ [.closeManifest]

/-- What `ReadManifest` sets. -/
structure Manifest where
  levels : Levels := {}
  nextFileNumber : ℕ := 1
  walNumber : ℕ := 1

/-- `levels_[level].push_back(table)`, growing `levels_` first. -/
def Levels.push (levels : Levels) (level : ℕ) (t : SSTable) : Levels :=
  match level with
  | 0 => { levels with l0 := levels.l0 ++ [t] }
  | 1 => { levels with l1 := levels.l1 ++ [t] }
  | n + 2 =>
    let deeper := levels.deeper ++ List.replicate (n + 1 - levels.deeper.length) []
    { levels with deeper := deeper.modify n (· ++ [t]) }

/-- One line in the loop of `ReadManifest`. A table that does not open is passed over. -/
def Manifest.readLine (disk : Disk) (m : Manifest) : ManifestLine → Checked Manifest
  | .nextFileNumber n => return { m with nextFileNumber := n }
  | .walNumber n => return { m with walNumber := n }
  | .table level number _ _ =>
    match disk.ssts number with
    | none => return m
    | some data =>
      match SSTable.openFile number data with
      | .ok t => return { m with levels := m.levels.push level t }
      | .error (.status _) => return m
      | .error f => .error f

/-- `ReadManifest`. -/
def Disk.readManifest (disk : Disk) : Checked Manifest :=
  (disk.manifest.getD []).foldlM (Manifest.readLine disk) {}

namespace DB

/-! ## Opening -/

/-- The callback of `Recover`. -/
def replay (db : DB) (r : Record) (height : ℕ) : DB :=
  if 8 ≤ r.key.length then
    { db with
      lastSequence := max db.lastSequence (extractSequence r.key)
      mem := db.mem.add (extractUserKey r.key) r.value height }
  else
    { db with lastSequence := db.lastSequence + 1, mem := db.mem.add r.key r.value height }

/-- `WALReader::Recover` with the callback, `heights i` being the height for record `i`. -/
def replayAll (db : DB) (rs : List Record) (heights : ℕ → ℕ) : DB :=
  rs.zipIdx.foldl (fun db r => db.replay r.1 (heights r.2)) db

/-- `Recover`. -/
def recover (options : Options) (disk : Disk) (heights : ℕ → ℕ) : Checked (DB × List FsOp) := do
  let m ← disk.readManifest
  let db : DB :=
    { options := options
      levels := m.levels
      nextFileNumber := m.nextFileNumber
      walNumber := m.walNumber }
  let db :=
    match disk.logs db.walNumber with
    | some file => db.replayAll (WALReader.recover file) heights
    | none => db
  return ({ db with wal := some db.walNumber }, [.openLog db.walNumber])

/-! ## Writing -/

/-- A call of `Put` or `Delete`. -/
inductive WriteOp
  | put (key value : Bytes)
  | delete (key : Bytes)
  deriving DecidableEq, Repr

/-- The key written. -/
def WriteOp.key : WriteOp → Bytes
  | put key _ => key
  | delete key => key

/-- The value written, empty for `Delete`. -/
def WriteOp.value : WriteOp → Bytes
  | put _ value => value
  | delete _ => []

/-- The log record of a call under a sequence number. -/
def WriteOp.record (seq : SequenceNumber) : WriteOp → Record
  | put key value =>
    ⟨WALWriter.RecordType.put.toByte, makeInternalKey key seq .value, value⟩
  | delete key => ⟨WALWriter.RecordType.delete.toByte, makeInternalKey key seq .deletion, []⟩

/-- `Put` and `Delete` behind `MakeRoomForWrite`. -/
def write (db : DB) (op : WriteOp) (height : ℕ) : Option (DB × List FsOp) := do
  let n ← db.wal
  let seq := db.lastSequence + 1
  return ({ db with lastSequence := seq, mem := db.mem.add op.key op.value height },
    [.appendLog n (WALWriter.addRecord (op.record seq))])

/-- The test of `MakeRoomForWrite`'s fast path. -/
def hasRoom (db : DB) : Bool := db.mem.approximateMemoryUsage < db.options.writeBufferSize

/-- The switch of `MakeRoomForWrite`, once `imm_` is null. When the new log does not open,
`mem_` gets its memtable back, but `wal_` stays null. -/
def rotate (db : DB) (walOpens : Bool) : Option (DB × List FsOp) := do
  let _ ← db.wal
  if walOpens then
    return ({ db with
      mem := MemTable.new
      imm := some db.mem
      walNumber := db.walNumber + 1
      wal := some (db.walNumber + 1) }, [.openLog (db.walNumber + 1)])
  else return ({ db with walNumber := db.walNumber + 1, wal := none }, [])

/-! ## Reading -/

/-- The result for a value that was found: an empty one is a tombstone. -/
def found (value : Bytes) : Status × Option Bytes :=
  if value = [] then (.notFound "deleted", some value) else (.OK, some value)

/-- What a table's answer means for `Get`: `none` to go on. -/
def tableResult (r : Status × Option Bytes) : Option (Status × Option Bytes) :=
  if r.1.isOk then some (found (r.2.getD []))
  else if r.1.isNotFound then none
  else some r

/-- The loop of `Get` over tables, in the order given. -/
def getTables (key : Bytes) : List SSTable → Checked (Option (Status × Option Bytes))
  | [] => return none
  | t :: ts => do
    match tableResult (← t.get key) with
    | some r => return some r
    | none => getTables key ts

/-- On which side of a table the search of a level goes on. -/
def levelSide (key : Bytes) (files : List SSTable) (mid : ℕ) : Ordering :=
  match files[mid]? with
  | none => .eq
  | some t =>
    if Slice.compare key (extractUserKey t.firstKey) = .lt then .lt
    else if Slice.compare key (extractUserKey t.lastKey) = .gt then .gt
    else .eq

/-- The binary search of `Get` in a level from 1 on. -/
def getLevel (key : Bytes) (files : List SSTable) : Checked (Option (Status × Option Bytes)) := do
  match Search.bisect (levelSide key files) files.length 0 files.length with
  | none => return none
  | some mid =>
    let t ← Checked.ofOption files[mid]?
    return tableResult (← t.get key)

/-- The loop of `Get` over the levels from 1 on. -/
def getLevels (key : Bytes) : List (List SSTable) → Checked (Option (Status × Option Bytes))
  | [] => return none
  | files :: levels => do
    match ← getLevel key files with
    | some r => return some r
    | none => getLevels key levels

/-- `Get`: the status and what `*value` was set to. -/
def get (db : DB) (key : Bytes) : Checked (Status × Option Bytes) := do
  match db.mem.get key with
  | some value => return found value
  | none =>
    match db.imm.bind (·.get key) with
    | some value => return found value
    | none =>
      -- the newest table of L0 stands last
      match ← getTables key db.levels.l0.reverse with
      | some r => return r
      | none => return (← getLevels key (db.levels.l1 :: db.levels.deeper)).getD (.notFound "", none)

/-- The children of `NewIterator`, in its order. -/
def iterators (db : DB) : Checked (List ChildIterator) := do
  let tables ← db.levels.tables.mapM fun t => ChildIterator.sst <$> SSTableIterator.new t
  return .mem (.new db.mem) :: ((db.imm.map fun m => .mem (.new m)).toList ++ tables)

/-- `NewIterator`. -/
def newIterator (db : DB) : Checked (MergeIterator ChildIterator) := do
  MergeIterator.new (← db.iterators)

/-! ## Flushing -/

/-- The table that a flush builds from a memtable: the status of `Finish` and the file. -/
def buildTable (m : MemTable) (faults : ℕ → Option ℕ) : Status × Bytes :=
  let r := ((SSTableBuilder.new { faults := faults }).addAll m.pairs).finish
  (r.1, r.2.fd.file)

/-- The first section of a flush: `imm_` and the number for its table. -/
def flushBegin (db : DB) : Option (MemTable × ℕ × DB) :=
  match db.imm with
  | some m =>
    if db.immFlushing then none
    else some (m, db.nextFileNumber,
      { db with immFlushing := true, nextFileNumber := db.nextFileNumber + 1 })
  | none => none

/-- The section that puts the table of a flush into `levels_[0]`. -/
def flushCommit (db : DB) (t : SSTable) : Option (DB × List FsOp) := do
  let _ ← db.imm
  let levels := { db.levels with l0 := db.levels.l0 ++ [t] }
  return ({ db with levels := levels, imm := none, immFlushing := false },
    { db with levels := levels }.writeManifest)

/-- The last section of `BackgroundFlush` without a table: `imm_` is kept. -/
def flushFail (db : DB) : DB := { db with immFlushing := false }

/-- The last section of `CompactRange` and `~DB` without a table: `imm_` is dropped. -/
def flushDrop (db : DB) : Option (DB × List FsOp) := do
  let _ ← db.imm
  let db := { db with imm := none, immFlushing := false }
  return (db, db.writeManifest)

/-! ## Compaction -/

/-- `NeedCompaction`. -/
def needCompaction (db : DB) : Bool := db.options.l0CompactionTrigger ≤ (db.levels.l0.length : ℤ)

/-- `min_key` of the L0 snapshot. -/
def minKey : List SSTable → Bytes
  | [] => []
  | t :: ts => ts.foldl
    (fun k t => if Slice.compare t.firstKey k = .lt then t.firstKey else k) t.firstKey

/-- `max_key` of the L0 snapshot. -/
def maxKey : List SSTable → Bytes
  | [] => []
  | t :: ts => ts.foldl
    (fun k t => if Slice.compare t.lastKey k = .gt then t.lastKey else k) t.lastKey

/-- The range test for an L1 table. -/
def meetsRange (lo hi : Bytes) (t : SSTable) : Bool :=
  !(Slice.compare hi t.firstKey = .lt || Slice.compare t.lastKey lo = .lt)

/-- `l1_indices` of the snapshot. -/
def l1Indices (l0 l1 : List SSTable) : List ℕ :=
  (List.range l1.length).filter fun i => (l1[i]?.map (meetsRange (minKey l0) (maxKey l0))).getD false

/-- The entries that the merge iterator over the inputs yields. -/
def mergeInputs (inputs : List SSTable) : Checked (List (Bytes × Bytes)) := do
  let its ← inputs.mapM fun t => ChildIterator.sst <$> SSTableIterator.new t
  drain ((inputs.map fun t => t.data.length).sum) (← MergeIterator.new its)

/-- The size from which a compaction starts the next output file. -/
def maxOutputSize : ℕ := 2 * 1024 * 1024

/-- The part of the merge loop that fills one output file: the builder, and the entries from
the one on that needs the next file. -/
def fillOutput (b : SSTableBuilder) : List (Bytes × Bytes) → SSTableBuilder × List (Bytes × Bytes)
  | [] => (b, [])
  | (k, v) :: rest =>
    if v = [] then fillOutput b rest
    else if maxOutputSize ≤ b.fileSize then (b, (k, v) :: rest)
    else fillOutput (b.add (extractUserKey k) v) rest

/-- Removing the snapshot's L0 tables: what is left and the files unlinked. -/
def removeL0 (l0 : List SSTable) : List SSTable → List SSTable × List FsOp
  | [] => (l0, [])
  | t :: ts =>
    let (l0, ops) := removeL0 (l0.erase t) ts
    (l0, .unlinkSst t.number :: ops)

/-- Removing the L1 tables at the given indices, the greatest first. -/
def removeL1 (l1 : List SSTable) : List ℕ → List SSTable × List FsOp
  | [] => (l1, [])
  | i :: is =>
    match l1[i]? with
    | some t =>
      let (l1, ops) := removeL1 (l1.eraseIdx i) is
      (l1, .unlinkSst t.number :: ops)
    | none => removeL1 l1 is

/-- `std::sort` of L1 by first key. Tables with one first key stay in order. -/
def sortLevel (l1 : List SSTable) : List SSTable :=
  l1.insertionSort fun a b => Slice.compare b.firstKey a.firstKey ≠ .lt

/-- The commit section of a compaction. -/
def compactCommit (db : DB) (l0Snapshot : List SSTable) (indices : List ℕ)
    (newLevel1 : List SSTable) : DB × List FsOp :=
  let (l0, ops0) := removeL0 db.levels.l0 l0Snapshot
  let (l1, ops1) := removeL1 db.levels.l1 (indices.insertionSort fun a b => b ≤ a)
  let levels := { db.levels with l0 := l0, l1 := sortLevel (l1 ++ newLevel1) }
  ({ db with levels := levels }, ops0 ++ ops1 ++ { db with levels := levels }.writeManifest)

end DB

end MiniLSM
