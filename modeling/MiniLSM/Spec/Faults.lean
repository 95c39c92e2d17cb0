import MiniLSM.Spec.World

/-!
# Faults

In `World` a compaction takes the number of an output and builds it in one step, and reads find
what was written. Here taking the number is a step of its own, the reads of a compaction find
any bytes, `WriteManifest` may fail to open its file, and a crash leaves the MANIFEST that was
last written completely next to any other files.
-/

namespace MiniLSM

/-- A table whose reads through `file_` find other bytes. -/
def SSTable.reading (reads : SSTable → Bytes) (t : SSTable) : SSTable := { t with data := reads t }

/-- The entries that the merge iterator over the inputs yields. A short read leaves a block of
the size the index gives, so the sizes bound the number of entries. -/
def DB.mergeReads (reads : SSTable → Bytes) (inputs : List SSTable) : Checked (List (Bytes × Bytes)) := do
  let its ← inputs.mapM fun t => ChildIterator.sst <$> SSTableIterator.new (t.reading reads)
  drain ((inputs.map fun t => (t.index.map (·.blockSize)).sum).sum) (← MergeIterator.new its)

/-- What the model adds to a compaction: the bytes its reads find, and the number taken for an
output that has not been built yet. -/
structure Merging where
  reads : SSTable → Bytes
  number : Option ℕ := none

/-- A database under faults. `merging` goes with `compactions`. -/
structure Faulty where
  world : World
  merging : List Merging := []

namespace Faulty

/-- The number of a flush whose builder is not done. -/
def numberOf (job : FlushJob) : Option ℕ :=
  match job.result with
  | .building => some job.number
  | _ => none

/-- The numbers on which a builder may still be opened. -/
def pending (s : Faulty) : List ℕ :=
  s.world.flushes.filterMap numberOf ++ s.merging.filterMap Merging.number

/-- One section, or one piece of I/O. -/
inductive Label
  /-- A step of the database, with `manifestOpens` for the `fopen` of `WriteManifest`. -/
  | base (l : MiniLSM.Label) (manifestOpens : Bool)
  | compactBegin (reads : SSTable → Bytes)
  /-- `next_file_number_++` of a compaction. -/
  | takeNumber (i : ℕ)
  | compactOutput (i : ℕ) (faults : ℕ → Option ℕ) (opens : Bool)
  /-- A crash that leaves these files, and `DB::Open`. -/
  | crash (disk : Disk) (options : Options) (heights : ℕ → ℕ)

/-- `DB::Open` on an empty directory. -/
def fresh (options : Options) : Faulty := { world := World.fresh options }

/-- A section whose `WriteManifest` returns early keeps the MANIFEST. -/
def keepManifest (w w' : World) (manifestOpens : Bool) : World :=
  if manifestOpens then w' else { w' with disk := { w'.disk with manifest := w.disk.manifest } }

/-- The snapshot section of a compaction, and its merge. -/
def beginCompaction (s : Faulty) (reads : SSTable → Bytes) : Option Faulty := do
  let w := s.world
  if !w.db.needCompaction then none
  else if w.db.levels.l0 = [] then none
  else
    let l0 := w.db.levels.l0
    let indices := DB.l1Indices l0 w.db.levels.l1
    let l1 := indices.filterMap fun i => w.db.levels.l1[i]?
    let .ok rest := DB.mergeReads reads (l0 ++ l1) | none
    return {
      world := { w with compactions := w.compactions ++ [⟨l0, l1, indices, rest, [], false⟩] }
      merging := s.merging ++ [{ reads := reads }] }

/-- A compaction takes the number of its next output. -/
def takeNumber (s : Faulty) (i : ℕ) : Option Faulty := do
  let job ← s.world.compactions[i]?
  let m ← s.merging[i]?
  if !job.busy || m.number.isSome then none
  else
    let n := s.world.db.nextFileNumber
    return {
      world := { s.world with db := { s.world.db with nextFileNumber := n + 1 } }
      merging := s.merging.set i { m with number := some n } }

/-- Writing one output file under the number taken, whatever the counter has come to. -/
def writeOutput (s : Faulty) (i : ℕ) (faults : ℕ → Option ℕ) (opens : Bool) : Option Faulty := do
  let m ← s.merging[i]?
  let n ← m.number
  let w := s.world
  let w' ← ({ w with db := { w.db with nextFileNumber := n } } : World).writeOutput i faults opens
  return {
    world := { w' with db := { w'.db with nextFileNumber := w.db.nextFileNumber } }
    merging := s.merging.set i { m with number := none } }

/-- One step. `none`: the label cannot be taken here. -/
def step (s : Faulty) : Label → Option Faulty
  | .base (.compactOutput ..) _ => none
  | .base .compactBegin _ => none
  | .base (.compactEnd i) manifestOpens => do
    let w' ← s.world.endCompaction i
    return { world := keepManifest s.world w' manifestOpens, merging := s.merging.eraseIdx i }
  | .base (.reopen options heights) _ => do
    let w' ← s.world.step (.reopen options heights)
    return { world := w' }
  | .base l manifestOpens => do
    let w' ← s.world.step l
    return { s with world := keepManifest s.world w' manifestOpens }
  | .compactBegin reads => s.beginCompaction reads
  | .takeNumber i => s.takeNumber i
  | .compactOutput i faults opens => s.writeOutput i faults opens
  | .crash disk options heights =>
    if disk.manifest = s.world.disk.manifest then
      match DB.recover options disk heights with
      | .ok r => some { world := World.commit { db := r.1, disk := disk } r }
      | .error _ => none
    else none

end Faulty

end MiniLSM
