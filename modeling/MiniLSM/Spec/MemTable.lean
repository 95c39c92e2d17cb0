import MiniLSM.Spec.SkipList
import MiniLSM.Spec.InternalKey

/-!
# `memtable.cc`: the memtable

A memtable files each value under the internal key of its user key and of a sequence number
of its own.
-/

namespace MiniLSM

/-- `MemTable`. The arena is the one its skip list holds. -/
structure MemTable where
  table : SkipList
  lastSeq : SequenceNumber
  deriving Repr

namespace MemTable

/-- `MemTable::MemTable`. -/
def new : MemTable := { table := SkipList.new {}, lastSeq := 0 }

/-- `MemTable::ApproximateMemoryUsage`. -/
def approximateMemoryUsage (m : MemTable) : ℕ := m.table.arena.memoryUsage

/-- `MemTable::Add`, with the height of the skip-list node. -/
def add (m : MemTable) (userKey value : Bytes) (height : ℕ) : MemTable :=
  let lastSeq := m.lastSeq + 1
  let ik := makeInternalKey userKey lastSeq (typeOf value)
  { table := m.table.insert ik value height, lastSeq := lastSeq }

/-- `MemTable::Get`: the value found, or `none` for `false`. -/
def get (m : MemTable) (userKey : Bytes) : Option Bytes :=
  match m.table.findGreaterOrEqual (makeLookupKey userKey) with
  | none => none
  | some node =>
    if Slice.compare (extractUserKey node.key) userKey ≠ .eq then none else some node.value

/-- `Add` for each user key, value and node height in turn. -/
def addAll (m : MemTable) (adds : List (Bytes × Bytes × ℕ)) : MemTable :=
  adds.foldl (fun m a => m.add a.1 a.2.1 a.2.2) m

/-- What a fresh `MemTableIterator` yields, in its order. -/
def entries (m : MemTable) : List (Bytes × Bytes) := m.table.nodes.map fun n => (n.key, n.value)

/-- What the flush loop hands to the table builder: user keys and values. -/
def pairs (m : MemTable) : List (Bytes × Bytes) := userPairs m.entries

end MemTable

end MiniLSM
