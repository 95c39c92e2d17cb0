import MiniLSM.Lib.Monitor
import MiniLSM.Spec.DB

/-!
# The threads of a database and `bg_cv_`

Any number of callers of `Put`, `Delete` and `CompactRange` and the background thread, each at a
place of its code between two sections under `mutex_`. A section is one step. What is read and
written without the lock is left out: the tables that flushes and compactions make come with the
label, `none` for a failure, and so does whether `AddRecord` succeeds. New logs open, and the
destructor does not run.
-/

namespace MiniLSM

/-- A thread. -/
inductive Thread
  | background
  | caller (id : ℕ)
  deriving DecidableEq, Repr

/-- Where a thread is between two sections. -/
inductive Place
  /-- A caller outside of calls. -/
  | idle
  /-- In the wait of `MakeRoomForWrite`. -/
  | room (op : DB.WriteOp)
  /-- In the wait of `CompactRange`. -/
  | range
  /-- At the top of the loop of `BackgroundWork`. -/
  | top
  /-- In the wait of `BackgroundWork`. -/
  | work
  /-- At `BackgroundFlush`. -/
  | flush
  /-- In a flush, without the lock. -/
  | building
  /-- At `BackgroundCompaction`. -/
  | compact
  /-- In a compaction, without the lock. -/
  | merging (l0Snapshot : List SSTable) (l1Indices : List ℕ)
  deriving DecidableEq, Repr

/-- A database with its threads. `blocked` are the threads in a wait on `bg_cv_` that have not been
woken; a thread in a wait that is not blocked is about to take the lock again. -/
structure Threads where
  db : DB
  place : Thread → Place
  blocked : List Thread := []
  /-- `background_work_pending_`. -/
  pending : Bool := false

/-- A section of a thread, or a wake-up without a notification. `pick` is the thread that a
`notify_one` wakes. -/
inductive ThreadLabel
  /-- `Put` or `Delete`, up to its end or its wait. -/
  | write (id : ℕ) (op : DB.WriteOp) (height : ℕ) (appended : Bool) (pick : Option Thread)
  /-- A woken writer. -/
  | writeOn (id : ℕ) (height : ℕ) (appended : Bool) (pick : Option Thread)
  | compactRange (id : ℕ)
  /-- A woken caller of `CompactRange`. -/
  | compactRangeOn (id : ℕ)
  | work
  /-- The background thread, woken. -/
  | workOn
  | backgroundFlush
  | flushEnd (t : Thread) (table : Option SSTable)
  | compactBegin (t : Thread)
  | compactEnd (t : Thread) (outputs : Option (List SSTable))
  | wake (t : Thread)

namespace Threads

/-- The background thread has started, and no call has. -/
def opened (db : DB) : Threads :=
  { db := db
    place := fun t =>
      match t with
      | .background => .top
      | .caller _ => .idle }

/-- A thread goes on to a place. -/
def go (s : Threads) (t : Thread) (p : Place) : Threads :=
  { s with place := Function.update s.place t p }

/-- `bg_cv_.wait`. -/
def wait (s : Threads) (t : Thread) (p : Place) : Threads :=
  { s.go t p with blocked := t :: s.blocked }

/-- `bg_cv_.notify_all`. -/
def notifyAll (s : Threads) : Threads := { s with blocked := [] }

/-- `MaybeScheduleBackgroundWork`. -/
def maybeScheduleBackgroundWork (s : Threads) (pick : Option Thread) : Option Threads :=
  if s.pending then some s
  else (Monitor.notifyOne s.blocked pick).map fun blocked =>
    { s with pending := true, blocked := blocked }

/-- The write behind `MakeRoomForWrite`, and the end of the call. -/
def writeNow (s : Threads) (t : Thread) (op : DB.WriteOp) (height : ℕ) (appended : Bool) :
    Option Threads := do
  let (db, _) ← s.db.write op height
  if appended then return ({ s with db := db } : Threads).go t .idle
  else
    -- last_sequence_ has grown before AddRecord
    let db := { s.db with lastSequence := s.db.lastSequence + 1 }
    return ({ s with db := db } : Threads).go t .idle

/-- `MakeRoomForWrite` from its loop on. The new log opens. -/
def makeRoom (s : Threads) (t : Thread) (op : DB.WriteOp) (height : ℕ) (appended : Bool)
    (pick : Option Thread) : Option Threads :=
  if s.db.imm.isSome then some (s.wait t (.room op))
  else do
    let (db, _) ← s.db.rotate true
    let s ← ({ s with db := db } : Threads).maybeScheduleBackgroundWork pick
    s.writeNow t op height appended

/-- `CompactRange` from its loop to where it leaves the lock. -/
def flushRange (s : Threads) (t : Thread) : Threads :=
  if s.db.immFlushing then s.wait t .range
  else
    match s.db.flushBegin with
    | some (_, _, db) => { s.go t .building with db := db }
    | none => s.go t .compact

/-- What a thread does behind `BackgroundCompaction`. -/
def afterCompaction : Thread → Place
  | .background => .top
  | .caller _ => .idle

/-- What the last section of a flush makes of the database. -/
def flushed (db : DB) (t : Thread) : Option SSTable → Option DB
  | some table => (db.flushCommit table).map Prod.fst
  | none =>
    match t with
    | .background => some db.flushFail
    | .caller _ => db.flushDrop.map Prod.fst

/-- The last section of a flush. -/
def endFlush (s : Threads) (t : Thread) (table : Option SSTable) : Option Threads :=
  (flushed s.db t table).map fun db => { s.notifyAll.go t .compact with db := db }

/-- The snapshot section of `BackgroundCompaction`. -/
def beginCompaction (s : Threads) (t : Thread) : Option Threads :=
  if !s.db.needCompaction then some (s.go t (afterCompaction t))
  else if s.db.levels.l0 = [] then none
  else some (s.go t (.merging s.db.levels.l0 (DB.l1Indices s.db.levels.l0 s.db.levels.l1)))

/-- The end of `BackgroundCompaction`, which takes the lock only if it has not failed. -/
def endCompaction (s : Threads) (t : Thread) (l0Snapshot : List SSTable) (l1Indices : List ℕ) :
    Option (List SSTable) → Threads
  | none => s.go t (afterCompaction t)
  | some newLevel1 =>
    { s.notifyAll.go t (afterCompaction t) with
      db := (s.db.compactCommit l0Snapshot l1Indices newLevel1).1 }

/-- One step. `none`: the label cannot be taken here. -/
def step (s : Threads) : ThreadLabel → Option Threads
  | .write id op height appended pick =>
    match s.place (.caller id) with
    | .idle =>
      if s.db.hasRoom then s.writeNow (.caller id) op height appended
      else s.makeRoom (.caller id) op height appended pick
    | _ => none
  | .writeOn id height appended pick =>
    match s.place (.caller id) with
    | .room op =>
      if .caller id ∈ s.blocked then none else s.makeRoom (.caller id) op height appended pick
    | _ => none
  | .compactRange id =>
    match s.place (.caller id) with
    | .idle => some (s.flushRange (.caller id))
    | _ => none
  | .compactRangeOn id =>
    match s.place (.caller id) with
    | .range => if .caller id ∈ s.blocked then none else some (s.flushRange (.caller id))
    | _ => none
  | .work =>
    match s.place .background with
    | .top =>
      let s := { s with pending := false }
      if s.db.imm.isNone && !s.db.needCompaction then some (s.wait .background .work)
      else some (s.go .background .flush)
    | _ => none
  | .workOn =>
    match s.place .background with
    | .work =>
      if .background ∈ s.blocked then none
      else some (({ s with pending := false } : Threads).go .background .flush)
    | _ => none
  | .backgroundFlush =>
    match s.place .background with
    | .flush =>
      match s.db.flushBegin with
      | some (_, _, db) => some { s.go .background .building with db := db }
      | none => some (s.go .background .compact)
    | _ => none
  | .flushEnd t table =>
    match s.place t with
    | .building => s.endFlush t table
    | _ => none
  | .compactBegin t =>
    match s.place t with
    | .compact => s.beginCompaction t
    | _ => none
  | .compactEnd t outputs =>
    match s.place t with
    | .merging l0Snapshot l1Indices => some (s.endCompaction t l0Snapshot l1Indices outputs)
    | _ => none
  | .wake t => if t ∈ s.blocked then some { s with blocked := s.blocked.erase t } else none

end Threads

end MiniLSM
