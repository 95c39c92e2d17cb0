import MiniLSM.Spec.Iterator

/-!
# `sstable.cc`, `iterator.cc`: tables from any bytes

What `SSTable::Open` asks memory for before it reads, and the calls that an `SSTableIterator`
takes in any order.
-/

namespace MiniLSM

/-- The field of the footer at offset `i`. -/
def footerWord (data : Bytes) (i : ℕ) : UInt64 :=
  (decodeFixed64 ((data.drop (data.length - 48)).drop i)).getD 0

/-- The sizes of the strings that `Open` makes for the reads behind the footer: the index block,
the first data block, the Bloom block. Behind the index no status fails `Open` any more; what it asked
for there before it threw or left a buffer is not listed. -/
def SSTable.openRequests (number : ℕ) (data : Bytes) : List ℕ :=
  if data.length < 48 ∨ footerWord data 32 ≠ SSTableBuilder.magic then []
  else
    (footerWord data 8).toNat ::
      match SSTable.openFile number data with
      | .ok t => (t.index.head?.map (·.blockSize)).toList ++ [(footerWord data 24).toNat]
      | .error _ => []

namespace SSTableIterator

/-- A call of an iterator. -/
inductive Call
  | seekToFirst
  | next
  | seek (target : Bytes)
  deriving DecidableEq, Repr

/-- The call. -/
def call (it : SSTableIterator) : Call → Checked SSTableIterator
  | .seekToFirst => it.seekToFirst
  | .next => it.next
  | .seek target => it.seek target

/-- A sequence of calls. -/
def calls (it : SSTableIterator) (cs : List Call) : Checked SSTableIterator := cs.foldlM call it

/-- A fresh iterator of a table and the calls on it. -/
def session (t : SSTable) (cs : List Call) : Checked SSTableIterator := do
  (← SSTableIterator.new t).calls cs

end SSTableIterator

end MiniLSM
