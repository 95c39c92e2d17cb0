import MiniLSM.Spec.SkipList
import MiniLSM.Spec.Status

/-!
# `skiplist.cc`: the nodes of the skip list

The skip list as it lies in memory: nodes with an array of next pointers each, the twelve levels
that run through them, the descent of `FindGreaterOrEqual` and the splicing of `Insert`. A
pointer is the place of a node in the order in which the nodes were made; the head node is the
first. Following a null pointer or a level that a node does not have is out of bounds.
-/

namespace MiniLSM

/-- `SkipList::Node`, with `next[0]` to `next[height - 1]`. -/
structure HeapNode where
  key : Bytes
  value : Bytes
  height : ℕ
  next : List (Option ℕ)
  deriving DecidableEq, Repr

/-- `SkipList`. `prev` is `prev_`, whose entries hold nothing before the first search. -/
structure NodeHeap where
  arena : Arena
  nodes : List HeapNode
  prev : List (Option ℕ)
  deriving Repr

namespace NodeHeap

/-- `head_`. -/
def head : ℕ := 0

/-- `NewNode` with null pointers. -/
def newNode (key value : Bytes) (height : ℕ) : HeapNode :=
  ⟨key, value, height, List.replicate height none⟩

/-- `SkipList::SkipList`. -/
def new (arena : Arena) : NodeHeap :=
  { arena := (SkipList.new arena).arena
    nodes := [newNode [] [] SkipList.kMaxHeight]
    prev := List.replicate SkipList.kMaxHeight none }

/-- `x->next[level]`. -/
def next (t : NodeHeap) (x level : ℕ) : Checked (Option ℕ) := do
  let node ← Checked.ofOption t.nodes[x]?
  Checked.ofOption node.next[level]?

/-- `next != nullptr && compare_(next->key, key) < 0`. -/
def isBelow (t : NodeHeap) (key : Bytes) : Option ℕ → Checked Bool
  | none => return false
  | some y => do
    let node ← Checked.ofOption t.nodes[y]?
    return Slice.compare node.key key = .lt

/-- The loop of `FindGreaterOrEqual` at `x` on `level`, for at most `n` turns: the node found and
the predecessors it noted. -/
def descend (t : NodeHeap) (key : Bytes) :
    ℕ → ℕ → ℕ → List (Option ℕ) → Checked (Option ℕ × List (Option ℕ))
  | 0, _, _, _ => .error .outOfBounds
  | n + 1, x, level, prev => do
    let y ← t.next x level
    if ← t.isBelow key y then descend t key n (← Checked.ofOption y) level prev
    else
      let prev := prev.set level (some x)
      if level = 0 then return (y, prev) else descend t key n x (level - 1) prev

/-- `FindGreaterOrEqual` with an array of predecessors. Every turn goes on along a level or
goes down one. -/
def search (t : NodeHeap) (key : Bytes) : Checked (Option ℕ × List (Option ℕ)) :=
  descend t key (t.nodes.length + SkipList.kMaxHeight) head (SkipList.kMaxHeight - 1) t.prev

/-- `SkipList::FindGreaterOrEqual`. -/
def findGreaterOrEqual (t : NodeHeap) (key : Bytes) : Checked (Option ℕ) := do
  let (x, _) ← t.search key
  return x

/-- `p->next[level] = y`. -/
def setNext (t : NodeHeap) (p level : ℕ) (y : Option ℕ) : Checked NodeHeap := do
  let node ← Checked.ofOption t.nodes[p]?
  let _ ← Checked.ofOption node.next[level]?
  return { t with nodes := t.nodes.set p { node with next := node.next.set level y } }

/-- One turn of the loop that puts node `n` into a level. -/
def link (n : ℕ) (t : NodeHeap) (level : ℕ) : Checked NodeHeap := do
  let p ← Checked.ofOption (t.prev[level]?).join
  let y ← t.next p level
  let t ← t.setNext n level y
  t.setNext p level (some n)

/-- `SkipList::Insert`, with the height that `RandomHeight` returned. -/
def insert (t : NodeHeap) (key value : Bytes) (height : ℕ) : Checked NodeHeap := do
  let (x, prev) ← t.search key
  let t := { t with prev := prev }
  let found ←
    match x with
    | none => pure none
    | some x => do
      let node ← Checked.ofOption t.nodes[x]?
      pure (if Slice.compare node.key key = .eq then some (x, node) else none)
  match found with
  | some (x, node) =>
    return { t with
      arena := (t.arena.allocate value.length).2
      nodes := t.nodes.set x { node with value := value } }
  | none =>
    let n := t.nodes.length
    let t := { t with
      arena := SkipList.newNode t.arena key value height
      nodes := t.nodes ++ [newNode key value height] }
    (List.range height).foldlM (link n) t

/-- The loop of `Contains` at `x` on `level`, for at most `n` turns. -/
def containsLoop (t : NodeHeap) (key : Bytes) : ℕ → ℕ → ℕ → Checked (Option Bytes)
  | 0, _, _ => .error .outOfBounds
  | n + 1, x, level => do
    let y ← t.next x level
    if ← t.isBelow key y then containsLoop t key n (← Checked.ofOption y) level
    else if level = 0 then
      match y with
      | none => return none
      | some y => do
        let node ← Checked.ofOption t.nodes[y]?
        return if Slice.compare node.key key = .eq then some node.value else none
    else containsLoop t key n x (level - 1)

/-- `SkipList::Contains`: the value it stored, or `none` for `false`. -/
def contains (t : NodeHeap) (key : Bytes) : Checked (Option Bytes) :=
  containsLoop t key (t.nodes.length + SkipList.kMaxHeight) head (SkipList.kMaxHeight - 1)

/-- The loop over an `Iterator` that stands on `x`, for at most `n` nodes. -/
def iterate (t : NodeHeap) : ℕ → Option ℕ → Checked (List (Bytes × Bytes))
  | 0, _ => return []
  | _ + 1, none => return []
  | n + 1, some x => do
    let node ← Checked.ofOption t.nodes[x]?
    let rest ← iterate t n (← t.next x 0)
    return (node.key, node.value) :: rest

/-- `SkipList::NewIterator` and the loop over it, for at most `n` nodes. -/
def enumerate (t : NodeHeap) (n : ℕ) : Checked (List (Bytes × Bytes)) := do
  t.iterate n (← t.next head 0)

/-- The nodes to which the pointers of a level lead from `x`, at most `n`. -/
def follow (t : NodeHeap) (level : ℕ) : ℕ → ℕ → Checked (List ℕ)
  | 0, _ => return []
  | n + 1, x => do
    match ← t.next x level with
    | none => return []
    | some y => do
      let rest ← follow t level n y
      return y :: rest

/-- The chain of a level, from the head on. -/
def level (t : NodeHeap) (i : ℕ) : Checked (List ℕ) := t.follow i t.nodes.length head

/-- `Insert` for each key, value and node height in turn. -/
def insertAll (t : NodeHeap) (ops : List (Bytes × Bytes × ℕ)) : Checked NodeHeap :=
  ops.foldlM (fun t op => t.insert op.1 op.2.1 op.2.2) t

end NodeHeap

end MiniLSM
