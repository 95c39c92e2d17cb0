import MiniLSM.Lib.RefCount
import MiniLSM.Spec.World

/-!
# `ref_count_` of the memtables

The sections of `World` with the memtables they make and the calls of `MemTable::Ref` and
`Unref`, beside the references that calls of `Get` hold, the iterators of `NewIterator` and those
of flushes. Memtables go by the order in which they were made. References are given back one at a
time, and counts do not wrap.
-/

namespace MiniLSM

open RefCount

/-- `iter` of a flush: it is made, and deleted, without the lock. -/
inductive FlushIterator
  | none | live | deleted
  deriving DecidableEq, Repr

/-- `imm_ptr` and `iter` of a flush. -/
structure FlushPointers where
  immPtr : ℕ
  iter : FlushIterator := .none
  deriving DecidableEq, Repr

/-- A database with the pointers to its memtables. `made` counts the calls of `new MemTable`, and
`flushes` is beside the flushes of `world`. -/
structure MemRefWorld where
  world : World
  mem : ℕ := 0
  imm : Option ℕ := none
  made : ℕ := 1
  refs : Counts ℕ := Counts.run {} [.make 0]
  gets : List ℕ := []
  iterators : List ℕ := []
  flushes : List FlushPointers := []

/-- A section that moves a pointer to a memtable or counts a reference, or any other section. -/
inductive MemRefLabel
  | db (l : Label)
  /-- The first section of `Get`. -/
  | acquire
  /-- `Unref` at the end of `Get`. -/
  | release (i : ℕ)
  | newIterator
  | deleteIterator (i : ℕ)
  /-- `imm_ptr->NewIterator()` of a flush. -/
  | flushIterator (i : ℕ)
  /-- `delete iter` of a flush. -/
  | flushDelete (i : ℕ)

namespace MemRefWorld

/-- `Ref`. -/
def ref (s : MemRefWorld) (n : ℕ) : MemRefWorld := { s with refs := s.refs.run [.ref n] }

/-- `Unref`. -/
def unref (s : MemRefWorld) (n : ℕ) : MemRefWorld := { s with refs := s.refs.run [.unref n] }

/-- The memtables that `mem_` and `imm_` point to. -/
def pointed (s : MemRefWorld) : List ℕ := s.mem :: s.imm.toList

/-- The switch of `MakeRoomForWrite`, and its way back when the new log does not open. -/
def rotate (s : MemRefWorld) (walOpens : Bool) : MemRefWorld :=
  -- imm_ = mem_; mem_ = new MemTable()
  let s' := { s with
    imm := some s.mem, mem := s.made, made := s.made + 1, refs := s.refs.run [.make s.made] }
  if walOpens then s'
  else
    -- mem_->Unref(); mem_ = imm_; imm_ = nullptr
    { s'.unref s'.mem with mem := s.mem, imm := none }

/-- The last section of a flush: only `BackgroundFlush` without a table keeps `imm_`. -/
def flushEnd (s : MemRefWorld) (i : ℕ) (job : FlushJob) : MemRefWorld :=
  let s' := { s with flushes := s.flushes.eraseIdx i }
  match job.result, job.path with
  | .failed, .background => s'
  | _, _ => { s' with imm := none, refs := s.refs.run (s.imm.toList.map .unref) }

/-- `~DB` and `Recover` of the next opening. -/
def reopen (s : MemRefWorld) : MemRefWorld :=
  { s with
    mem := s.made, imm := none, made := s.made + 1
    refs := s.refs.run [.unref s.mem, .make s.made] }

/-- What a section of the database does to the pointers and the counts. -/
def effect (s : MemRefWorld) : Label → Option MemRefWorld
  | .write _ _ walOpens =>
    if s.world.db.hasRoom || s.world.db.imm.isSome then some s else some (s.rotate walOpens)
  | .wake _ _ walOpens => some (s.rotate walOpens)
  | .flushBegin _ => s.imm.map fun n => { s with flushes := s.flushes ++ [{ immPtr := n }] }
  | .flushBuild i _ _ => do
    let f ← s.flushes[i]?
    if f.iter = .deleted then some s else none
  | .flushEnd i => (s.world.flushes[i]?).map (s.flushEnd i)
  | .reopen _ _ => some s.reopen
  | _ => some s

/-- One step. -/
def step (s : MemRefWorld) : MemRefLabel → Option MemRefWorld
  | .db l => do
    let w ← s.world.step l
    let s' ← s.effect l
    return { s' with world := w }
  | .acquire =>
    some { s with refs := s.refs.run (s.pointed.map .ref), gets := s.pointed ++ s.gets }
  | .release i => do
    let n ← s.gets[i]?
    return { s.unref n with gets := s.gets.eraseIdx i }
  | .newIterator =>
    some { s with refs := s.refs.run (s.pointed.map .ref), iterators := s.pointed ++ s.iterators }
  | .deleteIterator i => do
    let n ← s.iterators[i]?
    return { s.unref n with iterators := s.iterators.eraseIdx i }
  | .flushIterator i => do
    let f ← s.flushes[i]?
    if f.iter = .none then
      some { s.ref f.immPtr with flushes := s.flushes.set i { f with iter := .live } }
    else none
  | .flushDelete i => do
    let f ← s.flushes[i]?
    if f.iter = .live then
      some { s.unref f.immPtr with flushes := s.flushes.set i { f with iter := .deleted } }
    else none

/-- The memtables with a live iterator of a flush. -/
def flushIterators (s : MemRefWorld) : List ℕ :=
  (s.flushes.filter (·.iter = .live)).map FlushPointers.immPtr

/-- The live iterators over memtables: those of `NewIterator` and those of flushes. -/
def liveIterators (s : MemRefWorld) : List ℕ := s.iterators ++ s.flushIterators

/-- The holders of memtables: the database, calls of `Get`, and iterators. -/
def holders (s : MemRefWorld) : List ℕ := s.pointed ++ (s.gets ++ s.liveIterators)

end MemRefWorld

end MiniLSM
