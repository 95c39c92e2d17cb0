import MiniLSM.Spec.SSTable
import MiniLSM.Spec.MemTable

/-!
# `iterator.cc`: the iterators

`MemTableIterator` walks the level-0 chain, `SSTableIterator` loads one block after the
other, and `MergeIterator` takes the least current key of its children from a heap.
-/

namespace MiniLSM

/-- `Iterator`, the interface. -/
class Iterator (α : Type) where
  valid : α → Bool
  seekToFirst : α → Checked α
  seek : α → Bytes → Checked α
  next : α → Checked α
  key : α → Bytes
  value : α → Bytes

/-! ## `MemTableIterator` -/

/-- `MemTableIterator`: the nodes from the current one on. -/
structure MemTableIterator where
  rest : List Node
  deriving Repr

namespace MemTableIterator

/-- `MemTable::NewIterator`. -/
def new (m : MemTable) : MemTableIterator := ⟨m.table.nodes⟩

/-- `MemTableIterator::Next`. -/
def next (it : MemTableIterator) : Checked MemTableIterator :=
  match it.rest with
  | [] => .error .outOfBounds
  | _ :: rest => .ok ⟨rest⟩

/-- `MemTableIterator::Seek`, from the current node on. -/
def seek (it : MemTableIterator) (target : Bytes) : MemTableIterator :=
  ⟨it.rest.dropWhile fun n => Slice.compare n.key target = .lt⟩

instance : Iterator MemTableIterator where
  valid it := !it.rest.isEmpty
  seekToFirst it := .ok it
  seek it target := .ok (it.seek target)
  next := next
  key it := (it.rest.head?.map Node.key).getD []
  value it := (it.rest.head?.map Node.value).getD []

end MemTableIterator

/-! ## `SSTableIterator` -/

/-- `SSTableIterator`. -/
structure SSTableIterator where
  table : SSTable
  currentBlockIdx : ℕ := 0
  blockData : Bytes := []
  pos : ℕ := 0
  entriesEnd : ℕ := 0
  valid : Bool := false
  keyBuf : Bytes := []
  valueBuf : Bytes := []
  deriving Repr

namespace SSTableIterator

/-- `len` bytes at `p`. -/
def sliceAt (buf : Bytes) (p len : ℕ) : Checked Bytes :=
  if buf.length < p + len then .error .outOfBounds else .ok ((buf.drop p).take len)

/-- What `ReadBlock` leaves in a buffer that held `old`. A short read leaves the tail. -/
def readBlockInto (t : SSTable) (old : Bytes) (offset size : ℕ) : Bytes :=
  let resized := old.take size ++ List.replicate (size - old.length) 0
  let read := (fileRead t.data size offset).getD []
  read ++ resized.drop read.length

/-- `SSTableIterator::LoadCurrentBlock`. The status of `ReadBlock` is not looked at. -/
def loadCurrentBlock (it : SSTableIterator) : Checked SSTableIterator := do
  let entry ← Checked.ofOption it.table.index[it.currentBlockIdx]?
  if 2 ^ 63 ≤ entry.blockSize then throw .lengthError
  else
    let block := readBlockInto it.table it.blockData entry.blockOffset entry.blockSize
    return { it with
      blockData := block
      entriesEnd := if 8 ≤ block.length then MiniLSM.entriesEnd block else 0 }

/-- `SSTableIterator::ParseCurrentEntry`. -/
def parseCurrentEntry (it : SSTableIterator) : Checked SSTableIterator :=
  if it.entriesEnd ≤ it.pos then return { it with valid := false }
  else do
    let (_, n) ← varint32At it.blockData it.pos
    let p := it.pos + n
    let (keyLen, n) ← varint32At it.blockData p
    let p := p + n
    let key ← sliceAt it.blockData p keyLen
    let p := p + keyLen
    let (valueLen, n) ← varint32At it.blockData p
    let value ← sliceAt it.blockData (p + n) valueLen
    return { it with keyBuf := key, valueBuf := value, valid := true }

/-- Loading block `i` and parsing its first entry. -/
def enterBlock (it : SSTableIterator) (i : ℕ) : Checked SSTableIterator := do
  let it ← { it with currentBlockIdx := i }.loadCurrentBlock
  { it with pos := 0 }.parseCurrentEntry

/-- `SSTableIterator::SeekToFirst`. -/
def seekToFirst (it : SSTableIterator) : Checked SSTableIterator :=
  if it.table.index = [] then return { it with currentBlockIdx := 0, valid := false }
  else it.enterBlock 0

/-- The position behind the entry at `p`, as `Next` finds it. -/
def skipEntry (buf : Bytes) (p : ℕ) : Checked ℕ := do
  let (_, n) ← varint32At buf p
  let p := p + n
  let (keyLen, n) ← varint32At buf p
  let p := p + n + keyLen
  let (valueLen, n) ← varint32At buf p
  return p + n + valueLen

/-- `SSTableIterator::Next`. -/
def next (it : SSTableIterator) : Checked SSTableIterator := do
  let pos ← if it.pos < it.entriesEnd then skipEntry it.blockData it.pos else pure it.pos
  let it := { it with pos := pos }
  if it.pos < it.entriesEnd then it.parseCurrentEntry
  else if it.table.index.length ≤ it.currentBlockIdx + 1 then
    return { it with currentBlockIdx := it.currentBlockIdx + 1, valid := false }
  else it.enterBlock (it.currentBlockIdx + 1)

/-- The scan of `Seek` inside a block, for at most `n` entries. -/
def seekInBlock (lookupKey : Bytes) : ℕ → SSTableIterator → Checked SSTableIterator
  -- the block has no such entry, so the next one is entered
  | 0, it => { it with valid := false }.next
  | n + 1, it =>
    if it.entriesEnd ≤ it.pos then { it with valid := false }.next
    else do
      let (_, k) ← varint32At it.blockData it.pos
      let p := it.pos + k
      let (keyLen, k) ← varint32At it.blockData p
      let p := p + k
      let key ← sliceAt it.blockData p keyLen
      let p := p + keyLen
      let (valueLen, k) ← varint32At it.blockData p
      if Slice.compare key lookupKey ≠ .lt then it.parseCurrentEntry
      else seekInBlock lookupKey n { it with pos := p + k + valueLen }

/-- `SSTableIterator::Seek`. -/
def seek (it : SSTableIterator) (target : Bytes) : Checked SSTableIterator := do
  let lookupKey := makeLookupKey target
  let index := it.table.index
  let left := SSTable.findBlock index lookupKey index.length 0 (index.length - 1)
  let it ← { it with currentBlockIdx := left }.loadCurrentBlock
  seekInBlock lookupKey it.blockData.length { it with pos := 0 }

/-- `SSTable::NewIterator`. -/
def new (t : SSTable) : Checked SSTableIterator := seekToFirst { table := t }

instance : Iterator SSTableIterator where
  valid := valid
  seekToFirst := seekToFirst
  seek := seek
  next := next
  key := keyBuf
  value := valueBuf

end SSTableIterator

/-! ## `MergeIterator` -/

/-- A child of a merge iterator. -/
inductive ChildIterator
  | mem (it : MemTableIterator)
  | sst (it : SSTableIterator)
  deriving Repr

instance : Iterator ChildIterator where
  valid
    | .mem it => Iterator.valid it
    | .sst it => Iterator.valid it
  seekToFirst
    | .mem it => ChildIterator.mem <$> Iterator.seekToFirst it
    | .sst it => ChildIterator.sst <$> Iterator.seekToFirst it
  seek
    | .mem it, target => ChildIterator.mem <$> Iterator.seek it target
    | .sst it, target => ChildIterator.sst <$> Iterator.seek it target
  next
    | .mem it => ChildIterator.mem <$> Iterator.next it
    | .sst it => ChildIterator.sst <$> Iterator.next it
  key
    | .mem it => Iterator.key it
    | .sst it => Iterator.key it
  value
    | .mem it => Iterator.value it
    | .sst it => Iterator.value it

/-- `MergeIterator`. A heap element is the index of its child, which also tells the
iterator it points to. -/
structure MergeIterator (α : Type) where
  children : List α
  heap : List ℕ := []
  current : Option ℕ := none
  currentKeyBuf : Bytes := []
  currentValueBuf : Bytes := []

namespace MergeIterator

variable {α : Type} [Iterator α]

/-- The current key of child `i`. -/
def childKey (children : List α) (i : ℕ) : Bytes := (children[i]?.map Iterator.key).getD []

/-- `IterWrapper::operator<` with its arguments turned round: `i` leaves the heap before `j`. -/
def before (children : List α) (i j : ℕ) : Bool :=
  match Slice.compare (childKey children i) (childKey children j) with
  | .lt => true
  | .eq => i < j
  | .gt => false

/-- `heap_.top()`. -/
def top (children : List α) : List ℕ → Option ℕ
  | [] => none
  | i :: heap =>
    match top children heap with
    | none => some i
    | some j => if before children j i then some j else some i

/-- The loop of `MergeIterator::Advance`, for at most `n` turns. -/
def advanceLoop : ℕ → MergeIterator α → Checked (MergeIterator α)
  | 0, it => return it
  | n + 1, it =>
    match top it.children it.heap with
    | none => return it
    | some i => do
      let it := { it with heap := it.heap.erase i }
      let child ← Checked.ofOption it.children[i]?
      -- current_ is null at every turn, so no version is ever skipped here
      if it.current ≠ none ∧ Slice.compare (extractUserKey (Iterator.key child))
          (extractUserKey it.currentKeyBuf) = .eq then
        let child ← Iterator.next child
        let it := { it with children := it.children.set i child }
        advanceLoop n (if Iterator.valid child then { it with heap := it.heap ++ [i] } else it)
      else
        return { it with
          current := some i
          currentKeyBuf := Iterator.key child
          currentValueBuf := Iterator.value child }

/-- `MergeIterator::Advance`. -/
def advance (it : MergeIterator α) : Checked (MergeIterator α) :=
  advanceLoop (it.heap.length + 1) { it with current := none }

/-- Seeking every child, and the heap of those that are valid. -/
def fillHeap (seek : α → Checked α) (children : List α) : Checked (List α × List ℕ) := do
  let children ← children.mapM seek
  return (children, (List.range children.length).filter fun i =>
    (children[i]?.map Iterator.valid).getD false)

/-- `MergeIterator::MergeIterator`. -/
def new (children : List α) : Checked (MergeIterator α) := do
  let (children, heap) ← fillHeap Iterator.seekToFirst children
  advance { children := children, heap := heap }

/-- `MergeIterator::Seek`. -/
def seek (it : MergeIterator α) (target : Bytes) : Checked (MergeIterator α) := do
  let (children, heap) ← fillHeap (fun c => Iterator.seek c target) it.children
  advance { it with children := children, heap := heap }

/-- `MergeIterator::Next`. -/
def next (it : MergeIterator α) : Checked (MergeIterator α) :=
  match it.current with
  | none => return it
  | some i => do
    let child ← Checked.ofOption it.children[i]?
    let child ← Iterator.next child
    let it := { it with children := it.children.set i child }
    advance (if Iterator.valid child then { it with heap := it.heap ++ [i] } else it)

/-- `MergeIterator::Valid`. -/
def valid (it : MergeIterator α) : Bool := it.current.isSome

/-- `for (; it->Valid(); it->Next())`, collecting at most `n` entries, each with the index of
the child that `current_` points to. -/
def drainTagged : ℕ → MergeIterator α → Checked (List (ℕ × Bytes × Bytes))
  | 0, _ => return []
  | n + 1, it =>
    match it.current with
    | none => return []
    | some i => do
      let rest ← drainTagged n (← next it)
      return (i, it.currentKeyBuf, it.currentValueBuf) :: rest

instance : Iterator (MergeIterator α) where
  valid := valid
  seekToFirst it := .ok it
  seek := seek
  next := next
  key := currentKeyBuf
  value := currentValueBuf

end MergeIterator

/-- `for (; it->Valid(); it->Next())`, collecting at most `n` entries. -/
def drain {α : Type} [Iterator α] : ℕ → α → Checked (List (Bytes × Bytes))
  | 0, _ => return []
  | n + 1, it =>
    if Iterator.valid it then do
      let rest ← drain n (← Iterator.next it)
      return (Iterator.key it, Iterator.value it) :: rest
    else return []

end MiniLSM
