import MiniLSM.Spec.Faults
import MiniLSM.Spec.RefCount

/-!
# `BackgroundCompaction` statement by statement

`World` writes an output of a compaction in one step. Here the merge loop runs statement by
statement between the sections of all other calls, and `current_builder` points to a builder on
the heap, which may have been deleted. No second compaction is under way.
-/

namespace MiniLSM

open RefCount

/-- An `SSTableBuilder` on the heap: the number of its file, and whether `fd_` is open. -/
structure BuilderObject where
  number : ℕ
  builder : SSTableBuilder
  isOpen : Bool

/-- `SSTableBuilder::SSTableBuilder`. Every write to an `fd_` that did not open fails. -/
def BuilderObject.new (number : ℕ) (opens : Bool) (faults : ℕ → Option ℕ) : BuilderObject where
  number := number
  builder := SSTableBuilder.new { faults := if opens then faults else fun _ => some 0 }
  isOpen := opens

/-- The file as the builder has written it, where there is one. -/
def BuilderObject.writes (o : BuilderObject) : List FsOp :=
  if o.isOpen then [.writeSst o.number o.builder.fd.file] else []

/-- `SSTableBuilder::Finish`, which closes the file when it succeeds: the status, what it has
written, and the object behind it. -/
def BuilderObject.finish (o : BuilderObject) : Status × List FsOp × BuilderObject :=
  let r := o.builder.finish
  let o := { o with builder := r.2 }
  (r.1, o.writes, { o with isOpen := o.isOpen && !r.1.isOk })

/-- `SSTableBuilder::Abandon`. -/
def BuilderObject.abandon (o : BuilderObject) : List FsOp × BuilderObject :=
  ([.unlinkSst o.number], { o with builder := { o.builder with finished := true }, isOpen := false })

/-- `SSTableBuilder::~SSTableBuilder`. -/
def BuilderObject.destroy (o : BuilderObject) : List FsOp :=
  if !o.builder.finished && o.isOpen then [.unlinkSst o.number] else []

/-- `SSTable::Open` on a path: a table, a status, or `none` where it does not return. -/
def Disk.openPath (disk : Disk) (number : ℕ) (opens : Bool) : Option (Except Status SSTable) :=
  match disk.ssts number, opens with
  | some file, true =>
    match SSTable.openFile number file with
    | .ok t => some (.ok t)
    | .error (.status s) => some (.error s)
    | .error _ => none
  | _, _ => some (.error (.ioError "SSTable::Open: cannot open "))

/-- The two blocks that finish an output: the one at a switch of files, and the one behind the loop. -/
inductive FinishBlock
  | switch | last
  deriving DecidableEq, Repr

/-- Where a compaction stands. -/
inductive CompactionPlace
  | iterators
  /-- The head of the loop, up to its choice. -/
  | loop
  | finish (b : FinishBlock)
  | abandon (b : FinishBlock)
  | openTable (b : FinishBlock)
  /-- `delete current_builder`, at a switch of files perhaps with the file still to unlink. -/
  | delete (b : FinishBlock) (unlinks : Bool)
  | unlink (b : FinishBlock)
  /-- `current_builder = nullptr`. -/
  | null (b : FinishBlock)
  | make
  | add
  | next
  /-- Behind the loop. -/
  | last
  | deleteIterators
  | cleanUp
  | commit
  | cleanedUp
  | committed
  deriving DecidableEq, Repr

/-- The locals of `BackgroundCompaction` behind its first section, and all that it has done. `rest`
is what the merge iterator yields from its position on. -/
structure CompactionRun where
  l0Snapshot : List SSTable
  l1Snapshot : List SSTable
  l1Indices : List ℕ
  rest : List (Bytes × Bytes)
  place : CompactionPlace := .iterators
  heap : List (Option BuilderObject) := []
  currentBuilder : Option ℕ := none
  currentBuilderPath : ℕ := 0
  newLevel1 : List SSTable := []
  compactionStatus : Status := .OK
  /-- The numbers of the outputs. -/
  outputs : List ℕ := []
  fileOps : List FsOp := []
  refOps : List (Op ℕ) := []

namespace CompactionRun

/-- The tables of the snapshot. -/
def inputs (c : CompactionRun) : List SSTable := c.l0Snapshot ++ c.l1Snapshot

/-- The builder that `current_builder` points to, if it is there. -/
def builder (c : CompactionRun) : Option BuilderObject :=
  c.currentBuilder.bind fun p => (c.heap[p]?).join

/-- The builder changed through the pointer, or deleted. -/
def setBuilder (c : CompactionRun) (o : Option BuilderObject) : CompactionRun :=
  { c with heap := match c.currentBuilder with | some p => c.heap.set p o | none => c.heap }

/-- The job as `World` has it. -/
def job (c : CompactionRun) : CompactionJob :=
  { l0Snapshot := c.l0Snapshot
    l1Snapshot := c.l1Snapshot
    l1Indices := c.l1Indices
    rest := c.rest
    newLevel1 := c.newLevel1 }

/-- What a statement does. -/
structure Effect where
  run : CompactionRun
  db : DB
  files : List FsOp := []
  refs : List (Op ℕ) := []

/-- One statement. `opens` is the outcome of opening a file, and `faults` are those of a new
builder. `none`: C++ leaves the statement undefined, or the compaction has ended. -/
def exec (c : CompactionRun) (db : DB) (disk : Disk) (opens : Bool) (faults : ℕ → Option ℕ) :
    Option Effect :=
  match c.place with
  | .iterators =>
    some { run := { c with place := .loop }, db := db, refs := c.inputs.map fun t => .ref t.number }
  | .loop =>
    match c.rest with
    | [] => some { run := { c with place := .last }, db := db }
    | (_, v) :: _ =>
      if !c.compactionStatus.isOk then some { run := { c with place := .last }, db := db }
      else if v = [] then some { run := { c with place := .next }, db := db }
      else if c.currentBuilder.isNone then some { run := { c with place := .make }, db := db }
      else do
        let o ← c.builder
        let place := if DB.maxOutputSize ≤ o.builder.fileSize then .finish .switch else .add
        return { run := { c with place := place }, db := db }
  | .finish b => do
    let o ← c.builder
    let (status, files, o) := o.finish
    let place := if status.isOk then .openTable b else .abandon b
    return { run := { c.setBuilder (some o) with compactionStatus := status, place := place }
             db := db, files := files }
  | .abandon b => do
    let o ← c.builder
    let (files, o) := o.abandon
    return { run := { c.setBuilder (some o) with place := .delete b false }, db := db, files := files }
  | .openTable b => do
    match ← disk.openPath c.currentBuilderPath opens with
    | .ok t =>
      return { run := { c with newLevel1 := c.newLevel1 ++ [t], place := .delete b false }
               db := db, refs := [.make t.number] }
    | .error status =>
      -- the file is unlinked behind the builder at a switch, and before it at the end
      let place := match b with | .switch => .delete .switch true | .last => .unlink .last
      return { run := { c with compactionStatus := status, place := place }, db := db }
  | .delete b unlinks => do
    let o ← c.builder
    let place := if unlinks then .unlink b else .null b
    return { run := { c.setBuilder none with place := place }, db := db, files := o.destroy }
  | .unlink b =>
    let place := match b with | .switch => .null .switch | .last => .delete .last false
    some { run := { c with place := place }, db := db, files := [.unlinkSst c.currentBuilderPath] }
  | .null b =>
    let place := match b with
      | .switch => if c.compactionStatus.isOk then .make else .next
      | .last => .deleteIterators
    some { run := { c with currentBuilder := none, place := place }, db := db }
  | .make =>
    let number := db.nextFileNumber
    let o := BuilderObject.new number opens faults
    some {
      run := { c with
        currentBuilderPath := number
        currentBuilder := some c.heap.length
        heap := c.heap ++ [some o]
        outputs := c.outputs ++ [number]
        place := .add }
      db := { db with nextFileNumber := number + 1 }
      files := o.writes }
  | .add => do
    let o ← c.builder
    let (k, v) ← c.rest.head?
    let o := { o with builder := o.builder.add (extractUserKey k) v }
    return { run := { c.setBuilder (some o) with place := .next }, db := db, files := o.writes }
  | .next => some { run := { c with rest := c.rest.tail, place := .loop }, db := db }
  | .last =>
    let place := if c.currentBuilder.isSome && c.compactionStatus.isOk then .finish .last
      else .deleteIterators
    some { run := { c with place := place }, db := db }
  | .deleteIterators =>
    let place := if c.compactionStatus.isOk then .commit else .cleanUp
    some { run := { c with place := place }, db := db, refs := c.inputs.map fun t => .unref t.number }
  | .cleanUp =>
    some {
      run := { c with place := .cleanedUp }
      db := db
      files := c.newLevel1.map fun t => .unlinkSst t.number
      refs := (c.newLevel1 ++ c.inputs).map fun t => .unref t.number }
  | .commit =>
    let r := db.compactCommit c.l0Snapshot c.l1Indices c.newLevel1
    some {
      run := { c with place := .committed }
      db := r.1
      files := r.2
      refs := (db.commitUnrefs c.job).map fun t => .unref t.number }
  | .cleanedUp => none
  | .committed => none

end CompactionRun

/-- A database with the counts of its tables, and at most one compaction under way. -/
structure Compacting where
  base : RefWorld
  run : Option CompactionRun := none

/-- A section of another call, or a statement of `BackgroundCompaction`. -/
inductive CompactingLabel
  | other (l : RefLabel)
  /-- The first section, and the reads of the merge. -/
  | begin (reads : SSTable → Bytes)
  | exec (opens : Bool) (faults : ℕ → Option ℕ)
  | returns

namespace Compacting

/-- Sections of writes, flushes, `Get` and iterators. -/
def isOther : RefLabel → Bool
  | .db (.write ..) | .db (.wake ..) | .db (.flushBegin _) | .db (.flushBuild ..) | .db (.flushEnd _) => true
  | .acquire | .release _ | .newIterator | .deleteIterator _ => true
  | _ => false

/-- One step. `none`: the label cannot be taken here. -/
def step (s : Compacting) : CompactingLabel → Option Compacting
  | .other l => if isOther l then (s.base.step l).map fun base => { s with base := base } else none
  | .begin reads => do
    let w := s.base.world
    if s.run.isSome || !w.db.needCompaction || w.db.levels.l0.isEmpty then none
    else
      let l0 := w.db.levels.l0
      let indices := DB.l1Indices l0 w.db.levels.l1
      let l1 := indices.filterMap fun i => w.db.levels.l1[i]?
      let .ok rest := DB.mergeReads reads (l0 ++ l1) | none
      let refs := (l0 ++ l1).map fun t => .ref t.number
      return {
        base := { s.base with refs := s.base.refs.run refs }
        run := some { l0Snapshot := l0, l1Snapshot := l1, l1Indices := indices, rest := rest, refOps := refs } }
  | .exec opens faults => do
    let c ← s.run
    let w := s.base.world
    let e ← c.exec w.db w.disk opens faults
    return {
      base := { s.base with
        world := { w with db := e.db, disk := w.disk.run e.files }
        refs := s.base.refs.run e.refs }
      run := some { e.run with fileOps := c.fileOps ++ e.files, refOps := c.refOps ++ e.refs } }
  | .returns => do
    let c ← s.run
    if c.place = .cleanedUp ∨ c.place = .committed then return { s with run := none } else none

end Compacting

end MiniLSM
