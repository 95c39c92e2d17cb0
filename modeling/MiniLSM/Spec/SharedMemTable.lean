import MiniLSM.Spec.MemTable
import MiniLSM.Spec.NodeHeap

/-!
# A memtable that is written and searched at once

`DB::Get` drops the lock before it searches `mem_`, so a writer, which holds the lock, links its
node while others walk along the pointers. Each read or write of a pointer of a linked node is a
step of its own here, in one order that all threads see. Everything else is no step: the search of
`Insert` follows pointers that its own thread wrote, nobody reads a node before it is linked, and
key and value of a linked node stay.
-/

namespace MiniLSM

/-- An `Insert` that has made its node: the node is linked below `level`, and `set` tells whether
it has its own pointer of `level`. -/
structure Insertion where
  node : ℕ
  height : ℕ
  level : ℕ := 0
  set : Bool := false
  deriving DecidableEq, Repr

/-- A call of `MemTable::Get`, which stands at node `x` of a level until it has a result.
`ended` calls of `Add` had ended when it began, and it has made `reads` reads of a pointer. -/
structure PendingGet where
  userKey : Bytes
  ended : ℕ
  x : ℕ := NodeHeap.head
  level : ℕ := SkipList.kMaxHeight - 1
  reads : ℕ := 0
  result : Option (Option Bytes) := none
  deriving DecidableEq, Repr

/-- A memtable, its one writer and any number of readers. `added` lists the calls of `Add` that
have begun, with the heights of their nodes. -/
structure SharedMemTable where
  heap : NodeHeap
  lastSeq : SequenceNumber
  insertion : Option Insertion := none
  gets : List PendingGet := []
  added : List (Bytes × Bytes × ℕ) := []

/-- A step of the writer or of a reader. -/
inductive MemTableLabel
  /-- `Add` up to the end of `NewNode`, with the height that `RandomHeight` returned. -/
  | add (userKey value : Bytes) (height : ℕ)
  /-- The next pointer that `Insert` writes. -/
  | link
  /-- A call of `Get`. -/
  | get (userKey : Bytes)
  /-- The next pointer that a `Get` reads. -/
  | read (i : ℕ)

/-- What `Get` makes of the node where its search ends. -/
def NodeHeap.valueOf (t : NodeHeap) (userKey : Bytes) : Option ℕ → Checked (Option Bytes)
  | none => return none
  | some y => do
    let node ← Checked.ofOption t.nodes[y]?
    return if Slice.compare (extractUserKey node.key) userKey ≠ .eq then none else some node.value

/-- One turn of the loop of `FindGreaterOrEqual`. -/
def PendingGet.read (t : NodeHeap) (g : PendingGet) : Checked PendingGet := do
  let y ← t.next g.x g.level
  let g := { g with reads := g.reads + 1 }
  if ← t.isBelow (makeLookupKey g.userKey) y then return { g with x := ← Checked.ofOption y }
  else if g.level = 0 then return { g with result := some (← t.valueOf g.userKey y) }
  else return { g with level := g.level - 1 }

namespace SharedMemTable

/-- `MemTable::MemTable`. -/
def new : SharedMemTable := { heap := NodeHeap.new {}, lastSeq := 0 }

/-- `Add` up to the end of `NewNode`. An `Insert` of a key that is there, which writes the two words
of a value, cannot be taken. -/
def add (s : SharedMemTable) (userKey value : Bytes) (height : ℕ) : Option SharedMemTable := do
  if s.insertion.isSome || height = 0 || SkipList.kMaxHeight < height then none
  else
    let lastSeq := s.lastSeq + 1
    let ik := makeInternalKey userKey lastSeq (typeOf value)
    let (x, prev) ← (s.heap.search ik).toOption
    if (x.bind fun x => s.heap.nodes[x]?).any fun node => Slice.compare node.key ik = .eq then none
    else
      return { s with
        heap :=
          { arena := SkipList.newNode s.heap.arena ik value height
            nodes := s.heap.nodes ++ [NodeHeap.newNode ik value height]
            prev := prev }
        lastSeq := lastSeq
        insertion := some { node := s.heap.nodes.length, height := height }
        added := s.added ++ [(userKey, value, height)] }

/-- The next pointer that `Insert` writes: that of the new node, then that of its predecessor. -/
def link (s : SharedMemTable) : Option SharedMemTable := do
  let w ← s.insertion
  let p ← (s.heap.prev[w.level]?).join
  if w.set then
    let heap ← (s.heap.setNext p w.level (some w.node)).toOption
    let w' := { w with level := w.level + 1, set := false }
    return { s with heap := heap, insertion := if w'.level < w'.height then some w' else none }
  else
    let y ← (s.heap.next p w.level).toOption
    let heap ← (s.heap.setNext w.node w.level y).toOption
    return { s with heap := heap, insertion := some { w with set := true } }

/-- How many calls of `Add` have ended. -/
def ended (s : SharedMemTable) : ℕ :=
  if s.insertion.isSome then s.added.length - 1 else s.added.length

/-- One step. `none`: the label cannot be taken here. -/
def step (s : SharedMemTable) : MemTableLabel → Option SharedMemTable
  | .add userKey value height => s.add userKey value height
  | .link => s.link
  | .get userKey => some { s with gets := s.gets ++ [{ userKey := userKey, ended := s.ended }] }
  | .read i => do
    let g ← s.gets[i]?
    if g.result.isSome then none
    else
      let g ← (g.read s.heap).toOption
      return { s with gets := s.gets.set i g }

end SharedMemTable

end MiniLSM
