import MiniLSM.Spec.OpenDatabase
import MiniLSM.Spec.World

/-!
# The files of a database, by their paths

`Disk` knows the files of a database by their numbers and keeps the lines of the MANIFEST as fields.
In a `FileTree` a file is the bytes under a path, and the MANIFEST is the text that `fprintf` has
left so far. `ByteWorld` does the file operations of every section on both, and
`FileTree.directory` is what `DB::Open` finds there.
-/

namespace MiniLSM

/-- The files that a process can reach, by their paths. -/
abbrev FileTree := Bytes → Option Bytes

/-- The table that a line of the MANIFEST names, as far as the line says. -/
def namedTable (dbPath : Bytes) (number : ℕ) (firstKey lastKey : Bytes) : OpenTable :=
  { filePath := sstableFileName dbPath number
    table := { number := number, data := [], firstKey := firstKey, lastKey := lastKey } }

/-- What `fprintf` prints for a line. -/
def ManifestLine.text (dbPath : Bytes) : ManifestLine → Bytes
  | table level number firstKey lastKey =>
    ManifestText.tableLine level (namedTable dbPath number firstKey lastKey)
  | nextFileNumber n => ascii "next_file_number: " ++ Text.decimal (UInt64.ofNat n).toNat ++ [10]
  | walNumber n => ascii "wal_number: " ++ Text.decimal (UInt64.ofNat n).toNat ++ [10]

/-- The path that `WriteManifest` and `ReadManifest` hand to `fopen`. -/
def manifestPath (dbPath : Bytes) : Bytes := cString (manifestFileName dbPath)

/-- What an operation does to the files. -/
def FsOp.applyTree (dbPath : Bytes) (tree : FileTree) : FsOp → FileTree
  | openLog n =>
    Function.update tree (walFileName dbPath n) (some ((tree (walFileName dbPath n)).getD []))
  | appendLog n bytes =>
    Function.update tree (walFileName dbPath n) (some ((tree (walFileName dbPath n)).getD [] ++ bytes))
  | writeSst n bytes => Function.update tree (sstableFileName dbPath n) (some bytes)
  | unlinkSst n => Function.update tree (sstableFileName dbPath n) none
  | truncManifest => Function.update tree (manifestPath dbPath) (some [])
  | printManifest line =>
    Function.update tree (manifestPath dbPath)
      (some ((tree (manifestPath dbPath)).getD [] ++ line.text dbPath))
  | closeManifest => tree

/-- An append that ends behind its first `k` bytes. -/
def FsOp.torn (k : ℕ) : FsOp → FsOp
  | appendLog n bytes => appendLog n (bytes.take k)
  | op => op

namespace FileTree

/-- A sequence of operations. -/
def run (dbPath : Bytes) (tree : FileTree) (ops : List FsOp) : FileTree :=
  ops.foldl (FsOp.applyTree dbPath) tree

/-- The directory as `DB::Open` finds it, when its files can be opened. -/
def directory (dbPath : Bytes) (tree : FileTree) : Directory where
  manifest := (tree (manifestPath dbPath)).getD []
  reads := tree (manifestPath dbPath)
  files := tree
  logs n := tree (walFileName dbPath n.toNat)
  logOpens _ := true

end FileTree

/-- The database that `Recover` leaves, its tables without their paths. -/
def Opened.toDB (options : Options) (o : Opened) : DB :=
  let levels := o.levels.map fun tables => tables.map (·.table)
  { options := options
    mem := o.mem
    levels := { l0 := levels.getD 0 [], l1 := levels.getD 1 [], deeper := levels.drop 2 }
    wal := some o.walNumber.toNat
    walNumber := o.walNumber.toNat
    nextFileNumber := o.nextFileNumber.toNat
    lastSequence := o.lastSequence }

/-! ## The operations of a step -/

/-- The operations of a section, none if it cannot be taken. -/
def opsOf (r : Option (DB × List FsOp)) : List FsOp := (r.map Prod.snd).getD []

namespace World

/-- The switch of memtables and the write behind it. -/
def rotateOps (w : World) (op : DB.WriteOp) (height : ℕ) (walOpens : Bool) : List FsOp :=
  match w.db.rotate walOpens with
  | none => []
  | some r => if walOpens then r.2 ++ opsOf (r.1.write op height) else r.2

/-- Building and opening a table. What does not open is unlinked where `unlinks` says so. -/
def tableOps (number : ℕ) (built : Status × Bytes) (opens unlinks : Bool) : List FsOp :=
  let opened := built.1.isOk && ((openBuilt number built.2 opens).map (·.isSome)).getD false
  if opened || !unlinks then [.writeSst number built.2]
  else [.writeSst number built.2, .unlinkSst number]

/-- The file operations of a step, in order. -/
def issued (w : World) : Label → List FsOp
  | .write op height walOpens =>
    if w.db.hasRoom then opsOf (w.db.write op height)
    else if w.db.imm.isSome then []
    else w.rotateOps op height walOpens
  | .wake i height walOpens =>
    match w.waiting[i]? with
    | some op => w.rotateOps op height walOpens
    | none => []
  | .flushBegin _ => []
  | .flushBuild i faults opens =>
    match w.flushes[i]? with
    | some job =>
      let built := DB.buildTable job.imm faults
      -- a file that `Finish` fails to write is left behind
      tableOps job.number built opens (job.path = .background && built.1.isOk)
    | none => []
  | .flushEnd i =>
    match w.flushes[i]? with
    | some job =>
      match job.result with
      | .building => []
      | .opened t => opsOf (w.db.flushCommit t)
      | .failed => if job.path = .background then [] else opsOf w.db.flushDrop
    | none => []
  | .compactBegin => []
  | .compactOutput i faults opens =>
    match w.compactions[i]? with
    | some job =>
      let built := (DB.fillOutput (SSTableBuilder.new { faults := faults }) job.rest).1.finish
      tableOps w.db.nextFileNumber (built.1, built.2.fd.file) opens true
    | none => []
  | .compactEnd i =>
    match w.compactions[i]? with
    | some job =>
      if job.failed then job.newLevel1.map fun t => .unlinkSst t.number
      else (w.db.compactCommit job.l0Snapshot job.l1Indices job.newLevel1).2
    | none => []
  | .reopen options heights =>
    match DB.recover options w.disk heights with
    | .ok r => r.2
    | .error _ => []

end World

/-- A database with the bytes of its files. -/
structure ByteWorld where
  world : World
  tree : FileTree

namespace ByteWorld

/-- `DB::Open` on an empty directory. -/
def fresh (dbPath : Bytes) (options : Options) : ByteWorld :=
  { world := World.fresh options
    tree := FileTree.run dbPath (fun _ => none) [.openLog 1] }

/-- One step, with its operations done on the files. -/
def step (dbPath : Bytes) (s : ByteWorld) (l : Label) : Option ByteWorld := do
  let w ← s.world.step l
  return { world := w, tree := s.tree.run dbPath (s.world.issued l) }

/-- A crash in the course of a step, behind its first `k` operations. -/
def crash (dbPath : Bytes) (s : ByteWorld) (l : Label) (k : ℕ) : FileTree :=
  s.tree.run dbPath ((s.world.issued l).take k)

/-- A crash in the course of a step's append to the log, of which `n` bytes have reached the file. -/
def tear (dbPath : Bytes) (s : ByteWorld) (l : Label) (n : ℕ) : FileTree :=
  s.tree.run dbPath ((s.world.issued l).map (FsOp.torn n))

end ByteWorld

end MiniLSM
