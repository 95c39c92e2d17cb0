import MiniLSM.Lib.RefCount
import MiniLSM.Spec.World

/-!
# `ref_count_` of the tables

The sections of `World` with the calls of `SSTable::Ref` and `Unref` they make, beside the
snapshots of `Get` and the live iterators. A table goes by its number, which no other table
object of one opening has, and counts do not wrap.
-/

namespace MiniLSM

open RefCount

/-- The table of a flush, once it is open. -/
def FlushJob.table (job : FlushJob) : Option SSTable :=
  match job.result with
  | .opened t => some t
  | _ => none

namespace DB

/-- The tables that a compaction's commit takes out of L1, in its order. -/
def removedL1 (l1 : List SSTable) : List ℕ → List SSTable
  | [] => []
  | i :: is =>
    match l1[i]? with
    | some t => t :: removedL1 (l1.eraseIdx i) is
    | none => removedL1 l1 is

/-- The tables that a compaction's commit calls `Unref` on: its L0 inputs once with their
removal and once at the end. -/
def commitUnrefs (db : DB) (job : CompactionJob) : List SSTable :=
  job.l0Snapshot ++ removedL1 db.levels.l1 (job.l1Indices.insertionSort fun a b => b ≤ a) ++
    job.l0Snapshot ++ job.l1Snapshot

end DB

/-- The tables that a compaction holds: its snapshot and its outputs. -/
def CompactionJob.held (job : CompactionJob) : List SSTable :=
  job.l0Snapshot ++ (job.l1Snapshot ++ job.newLevel1)

/-- The tables that `levels_`, flushes and compactions hold, once for each holder. -/
def World.held (w : World) : List SSTable :=
  w.db.levels.tables ++ (w.flushes.filterMap FlushJob.table ++ w.compactions.flatMap CompactionJob.held)

/-- A database with the counts of its tables, the snapshots that calls of `Get` hold, and the
tables of the live iterators. -/
structure RefWorld where
  world : World
  refs : Counts ℕ := {}
  gets : List (List SSTable) := []
  iterators : List (List SSTable) := []

/-- A section that changes counts, or any other section. -/
inductive RefLabel
  | db (l : Label)
  /-- The first section of `Get`. -/
  | acquire
  /-- The end of `Get`. -/
  | release (i : ℕ)
  | newIterator
  /-- The iterators over the inputs of a compaction. -/
  | mergeIterator (i : ℕ)
  | deleteIterator (i : ℕ)

namespace RefWorld

/-- The calls of `Ref` and `Unref`, and the tables made, in a section from `w` to `w'`. -/
def refOps (w w' : World) : Label → List (Op ℕ)
  | .flushBuild i _ _ => ((w'.flushes[i]?.bind FlushJob.table).toList).map fun t => .make t.number
  | .compactBegin =>
    match w'.compactions.getLast? with
    | some job => (job.l0Snapshot ++ job.l1Snapshot).map fun t => .ref t.number
    | none => []
  | .compactOutput i _ _ =>
    match w.compactions[i]?, w'.compactions[i]? with
    | some job, some job' =>
      (job'.newLevel1.drop job.newLevel1.length).map fun t => .make t.number
    | _, _ => []
  | .compactEnd i =>
    match w.compactions[i]? with
    | some job =>
      if job.failed then
        (job.newLevel1 ++ job.l0Snapshot ++ job.l1Snapshot).map fun t => .unref t.number
      else (w.db.commitUnrefs job).map fun t => .unref t.number
    | none => []
  | _ => []

/-- Taking references to tables. -/
def hold (s : RefWorld) (ts : List SSTable) : Counts ℕ := s.refs.run (ts.map fun t => .ref t.number)

/-- Giving references to tables back. -/
def drop (s : RefWorld) (ts : List SSTable) : Counts ℕ := s.refs.run (ts.map fun t => .unref t.number)

/-- One section. A second opening makes new tables and is left out. -/
def step (s : RefWorld) : RefLabel → Option RefWorld
  | .db (.reopen _ _) => none
  | .db l => do
    let w ← s.world.step l
    return { s with world := w, refs := s.refs.run (refOps s.world w l) }
  | .acquire =>
    let ts := s.world.db.levels.tables
    some { s with refs := s.hold ts, gets := s.gets ++ [ts] }
  | .release i => do
    let ts ← s.gets[i]?
    return { s with refs := s.drop ts, gets := s.gets.eraseIdx i }
  | .newIterator =>
    let ts := s.world.db.levels.tables
    some { s with refs := s.hold ts, iterators := s.iterators ++ [ts] }
  | .mergeIterator i => do
    let job ← s.world.compactions[i]?
    let ts := job.l0Snapshot ++ job.l1Snapshot
    return { s with refs := s.hold ts, iterators := s.iterators ++ [ts] }
  | .deleteIterator i => do
    let ts ← s.iterators[i]?
    return { s with refs := s.drop ts, iterators := s.iterators.eraseIdx i }

/-- The holders of tables, one number for each. -/
def holders (s : RefWorld) : List ℕ :=
  (s.world.held ++ (s.gets.flatten ++ s.iterators.flatten)).map (·.number)

end RefWorld

end MiniLSM
