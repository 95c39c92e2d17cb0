import MiniLSM.Spec.World

/-!
# An iterator over a database that is being written

`NewIterator` pins tables and memtables, but `mem_` goes on being written while its child keeps
a pointer to one of the nodes. Behind that node the child finds what is inserted later, until a
rotation takes the memtable out of use.
-/

namespace MiniLSM

/-- The nodes from the current one on, as they are linked now. -/
def MemTableIterator.refresh (m : MemTable) (it : MemTableIterator) : MemTableIterator :=
  match it.rest with
  | [] => it
  | n :: _ => ⟨m.table.nodes.dropWhile fun x => x.key ≠ n.key⟩

/-- A child over a memtable finds the nodes of now, other children what they have pinned. -/
def ChildIterator.refresh (m : MemTable) : ChildIterator → ChildIterator
  | .mem it => .mem (it.refresh m)
  | .sst it => .sst it

/-- A database and an iterator on it. The first child is the one over the memtable that was
`mem_` at `NewIterator`, and `walksMem` tells whether it still is. `output` holds the entries
read so far. -/
structure LiveScan where
  world : World
  it : MergeIterator ChildIterator
  walksMem : Bool := true
  output : List (Bytes × Bytes) := []

namespace LiveScan

/-- A step of the database, or a turn of the reader's loop: key and value are read, then
`Next` is called. -/
inductive Label
  | db (l : MiniLSM.Label)
  | next

/-- Whether a section has turned `mem_` into `imm_`. -/
def rotates (w w' : World) : Bool := w.db.imm.isNone && w'.db.imm.isSome

/-- One step. `none`: the label cannot be taken here. -/
def step (s : LiveScan) : Label → Option LiveScan
  | .db (.reopen ..) => none
  | .db l => do
    let w' ← s.world.step l
    if s.walksMem && !rotates s.world w' then
      return { s with
        world := w'
        it := { s.it with children := s.it.children.modify 0 (ChildIterator.refresh w'.db.mem) } }
    else return { s with world := w', walksMem := false }
  | .next =>
    if s.it.valid then
      match s.it.next with
      | .ok it => some { s with it := it, output := s.output ++ [(s.it.currentKeyBuf, s.it.currentValueBuf)] }
      | .error _ => none
    else none

/-- The nodes that the first child has before it. -/
def cursor (s : LiveScan) : List Node :=
  match s.it.children[0]? with
  | some (ChildIterator.mem it) => it.rest
  | _ => []

/-- The internal key of the entry that a label adds to the memtable of the first child. -/
def added (s : LiveScan) : MiniLSM.Label → Option Bytes
  | .write op _ _ =>
    if s.walksMem && s.world.db.hasRoom then
      some (makeInternalKey op.key (s.world.db.mem.lastSeq + 1) (typeOf op.value))
    else none
  | _ => none

/-- The condition: entries go before the node on which the first child stands. -/
def Before (s : LiveScan) : Label → Prop
  | .db l => ∀ k ∈ s.added l, ∀ n ∈ s.cursor.head?, Slice.compare k n.key = .lt
  | .next => True

instance (s : LiveScan) (l : Label) : Decidable (s.Before l) := by
  rcases l with _ | _ <;> unfold Before <;> infer_instance

end LiveScan

end MiniLSM
