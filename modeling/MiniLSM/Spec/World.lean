import MiniLSM.Spec.DB

/-!
# A database, its files and the calls under way

`World.step` takes one label: a lock-protected section of a call, or the I/O that a flush or
a compaction does between its sections. Calls that have dropped the lock are kept as jobs, so
that the labels may come in any order.
-/

namespace MiniLSM

/-- Who runs a flush. -/
inductive FlushPath
  | background | compactRange | destructor
  deriving DecidableEq, Repr

/-- How far a flush has come. -/
inductive FlushResult
  | building | failed
  | opened (t : SSTable)

/-- A flush that has dropped the lock. -/
structure FlushJob where
  path : FlushPath
  imm : MemTable
  number : ℕ
  result : FlushResult := .building

/-- A compaction that has dropped the lock: its snapshot, the entries of the merge that are
left, the outputs so far, and whether one of them failed. -/
structure CompactionJob where
  l0Snapshot : List SSTable
  l1Snapshot : List SSTable
  l1Indices : List ℕ
  rest : List (Bytes × Bytes)
  newLevel1 : List SSTable := []
  failed : Bool := false

/-- The tables of a compaction's snapshot. -/
def CompactionJob.inputs (job : CompactionJob) : List SSTable := job.l0Snapshot ++ job.l1Snapshot

/-- Whether a compaction has another entry to write. -/
def CompactionJob.busy (job : CompactionJob) : Bool :=
  !job.failed && job.rest.any fun e => e.2 != []

/-- A database directory with the `DB` object opened on it. `waiting` holds the writers blocked
in `MakeRoomForWrite`, and `acked` the acknowledged writes, newest first. -/
structure World where
  db : DB
  disk : Disk := {}
  flushes : List FlushJob := []
  compactions : List CompactionJob := []
  waiting : List DB.WriteOp := []
  acked : List (Bytes × Bytes) := []

/-- One section, or one piece of I/O. -/
inductive Label
  /-- A call of `Put` or `Delete`, up to its end or to its wait for `imm_`. -/
  | write (op : DB.WriteOp) (height : ℕ) (walOpens : Bool)
  /-- A waiting writer goes on. -/
  | wake (i : ℕ) (height : ℕ) (walOpens : Bool)
  | flushBegin (path : FlushPath)
  | flushBuild (i : ℕ) (faults : ℕ → Option ℕ) (opens : Bool)
  | flushEnd (i : ℕ)
  | compactBegin
  | compactOutput (i : ℕ) (faults : ℕ → Option ℕ) (opens : Bool)
  | compactEnd (i : ℕ)
  /-- The end of the destructor, and `DB::Open` on the same directory. -/
  | reopen (options : Options) (heights : ℕ → ℕ)

namespace World

/-- `DB::Open` on an empty directory. -/
def fresh (options : Options) : World :=
  { db := { options := options, wal := some 1 }
    disk := Disk.run {} [.openLog 1] }

/-- A section's new state, with its file operations done. -/
def commit (w : World) (r : DB × List FsOp) : World := { w with db := r.1, disk := w.disk.run r.2 }

/-- A write that found room, with its acknowledgement. -/
def writeNow (w : World) (op : DB.WriteOp) (height : ℕ) : Option World := do
  let r ← w.db.write op height
  return { w.commit r with acked := (op.key, op.value) :: w.acked }

/-- The switch of memtables and the write behind it. When the new log does not open, the call
ends with an error. -/
def rotateAndWrite (w : World) (op : DB.WriteOp) (height : ℕ) (walOpens : Bool) : Option World := do
  let r ← w.db.rotate walOpens
  if walOpens then (w.commit r).writeNow op height else return w.commit r

/-- `Open` on a file just written: the table, or `none` for a status other than OK. -/
def openBuilt (number : ℕ) (file : Bytes) (opens : Bool) : Option (Option SSTable) :=
  if opens then
    match SSTable.openFile number file with
    | .ok t => some (some t)
    | .error (.status _) => some none
    | .error _ => none
  else some none

/-- Building and opening the table of a flush. `BackgroundFlush` unlinks a table that does not
open. -/
def buildFlush (w : World) (i : ℕ) (faults : ℕ → Option ℕ) (opens : Bool) : Option World := do
  let job ← w.flushes[i]?
  let .building := job.result | none
  let (status, file) := DB.buildTable job.imm faults
  let written := w.disk.run [.writeSst job.number file]
  let done := fun (result : FlushResult) (disk : Disk) =>
    some { w with disk := disk, flushes := w.flushes.set i { job with result := result } }
  if !status.isOk then done .failed written
  else
    match ← openBuilt job.number file opens with
    | some t => done (.opened t) written
    | none =>
      done .failed (if job.path = .background then written.run [.unlinkSst job.number] else written)

/-- The last section of a flush. -/
def endFlush (w : World) (i : ℕ) : Option World := do
  let job ← w.flushes[i]?
  let w := { w with flushes := w.flushes.eraseIdx i }
  match job.result with
  | .building => none
  | .opened t => return w.commit (← w.db.flushCommit t)
  | .failed =>
    -- the other two paths give up the memtable
    if job.path = .background then return { w with db := w.db.flushFail }
    else return w.commit (← w.db.flushDrop)

/-- The snapshot section of a compaction, and its merge. -/
def beginCompaction (w : World) : Option World := do
  if !w.db.needCompaction then none
  else if w.db.levels.l0 = [] then none
  else
    let l0 := w.db.levels.l0
    let indices := DB.l1Indices l0 w.db.levels.l1
    let l1 := indices.filterMap fun i => w.db.levels.l1[i]?
    let .ok rest := DB.mergeInputs (l0 ++ l1) | none
    return { w with compactions := w.compactions ++ [⟨l0, l1, indices, rest, [], false⟩] }

/-- Writing one output file of a compaction. -/
def writeOutput (w : World) (i : ℕ) (faults : ℕ → Option ℕ) (opens : Bool) : Option World := do
  let job ← w.compactions[i]?
  if !job.busy then none
  else
    let number := w.db.nextFileNumber
    let (b, rest) := DB.fillOutput (SSTableBuilder.new { faults := faults }) job.rest
    let (status, b) := b.finish
    let done := fun (job : CompactionJob) (ops : List FsOp) =>
      some { w with
        db := { w.db with nextFileNumber := number + 1 }
        disk := w.disk.run ops
        compactions := w.compactions.set i job }
    let failed := { job with rest := rest, failed := true }
    if !status.isOk then done failed [.writeSst number b.fd.file, .unlinkSst number]
    else
      match ← openBuilt number b.fd.file opens with
      | some t =>
        done { job with rest := rest, newLevel1 := job.newLevel1 ++ [t] }
          [.writeSst number b.fd.file]
      | none => done failed [.writeSst number b.fd.file, .unlinkSst number]

/-- The commit of a compaction, or its clean-up after a failure. -/
def endCompaction (w : World) (i : ℕ) : Option World := do
  let job ← w.compactions[i]?
  let w := { w with compactions := w.compactions.eraseIdx i }
  if job.failed then
    -- the output that failed has been unlinked already
    return { w with disk := w.disk.run (job.newLevel1.map fun t => .unlinkSst t.number) }
  else if job.busy then none
  else return w.commit (w.db.compactCommit job.l0Snapshot job.l1Indices job.newLevel1)

/-- One step. `none`: the label cannot be taken here. -/
def step (w : World) : Label → Option World
  | .write op height walOpens =>
    if w.db.hasRoom then w.writeNow op height
    else if w.db.imm.isSome then some { w with waiting := w.waiting ++ [op] }
    else w.rotateAndWrite op height walOpens
  | .wake i height walOpens => do
    let op ← w.waiting[i]?
    if w.db.imm.isSome then none
    else ({ w with waiting := w.waiting.eraseIdx i } : World).rotateAndWrite op height walOpens
  | .flushBegin path => do
    let (m, number, db) ← w.db.flushBegin
    return { w with db := db, flushes := w.flushes ++ [{ path := path, imm := m, number := number }] }
  | .flushBuild i faults opens => w.buildFlush i faults opens
  | .flushEnd i => w.endFlush i
  | .compactBegin => w.beginCompaction
  | .compactOutput i faults opens => w.writeOutput i faults opens
  | .compactEnd i => w.endCompaction i
  | .reopen options heights =>
    if w.db.imm.isSome || !w.flushes.isEmpty || !w.compactions.isEmpty || !w.waiting.isEmpty then none
    else
      match DB.recover options w.disk heights with
      | .ok r => some (w.commit r)
      | .error _ => none

end World

end MiniLSM
