import MiniLSM.Spec.Arena
import MiniLSM.Spec.Slice

/-!
# `skiplist.cc`: the skip list

The list is kept as its level-0 chain: the nodes in key order, each with its height. The
higher levels only speed up the descent of `FindGreaterOrEqual`, which stops at the first
node of level 0 that is not below the target.
-/

namespace MiniLSM

/-- `SkipList::Node`. -/
structure Node where
  key : Bytes
  value : Bytes
  height : ℕ
  deriving DecidableEq, Repr

/-- `SkipList`. -/
structure SkipList where
  arena : Arena
  nodes : List Node
  deriving Repr

namespace SkipList

/-- `kMaxHeight`. -/
def kMaxHeight : ℕ := 12

/-- The bytes of a `Node` with `height` next pointers. -/
def nodeSize (height : ℕ) : ℕ := 48 + (height - 1) * 8

/-- `SkipList::SkipList`: the head node and its one-byte key and value. -/
def new (arena : Arena) : SkipList :=
  let a := (arena.allocateAligned (nodeSize kMaxHeight)).2
  { arena := ((a.allocate 1).2.allocate 1).2, nodes := [] }

/-- `SkipList::NewNode`, seen from the arena. -/
def newNode (arena : Arena) (key value : Bytes) (height : ℕ) : Arena :=
  (((arena.allocateAligned (nodeSize height)).2.allocate key.length).2.allocate value.length).2

/-- `SkipList::FindGreaterOrEqual`: the first node whose key is not below `key`. -/
def findGreaterOrEqual (t : SkipList) (key : Bytes) : Option Node :=
  t.nodes.find? fun n => Slice.compare n.key key ≠ .lt

/-- The level-0 chain after `SkipList::Insert`. -/
def insertChain (key value : Bytes) (height : ℕ) : List Node → List Node
  | [] => [⟨key, value, height⟩]
  | x :: xs =>
    match Slice.compare x.key key with
    | .lt => x :: insertChain key value height xs
    | .eq => { x with value := value } :: xs
    | .gt => ⟨key, value, height⟩ :: x :: xs

/-- `SkipList::Insert`, with the height that `RandomHeight` returned. -/
def insert (t : SkipList) (key value : Bytes) (height : ℕ) : SkipList :=
  let arena :=
    match t.findGreaterOrEqual key with
    | some x =>
      if Slice.compare x.key key = .eq then (t.arena.allocate value.length).2
      else newNode t.arena key value height
    | none => newNode t.arena key value height
  { arena := arena, nodes := insertChain key value height t.nodes }

end SkipList

end MiniLSM
