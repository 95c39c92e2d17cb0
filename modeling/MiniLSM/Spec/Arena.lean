import Mathlib.Tactic.Common

/-!
# `arena.cc`: the memory pool

The arena hands out ranges of blocks it got from `new[]`. A pointer is a block and an offset
in it; fresh blocks are 8-byte aligned, so the alignment of a pointer is that of its offset.
-/

namespace MiniLSM

/-- A pointer into the arena: the index of a block and an offset. -/
structure ArenaPtr where
  block : ℕ
  offset : ℕ
  deriving DecidableEq, Repr

/-- `Arena`. `allocPtr` is `none` for the null pointer. -/
structure Arena where
  allocPtr : Option ArenaPtr := none
  allocBytesRemaining : ℕ := 0
  blocks : List ℕ := []
  memoryUsage : ℕ := 0
  deriving Repr

namespace Arena

/-- `kBlockSize`. -/
def kBlockSize : ℕ := 4096

/-- `Arena::AllocateNewBlock`. -/
def allocateNewBlock (a : Arena) (blockBytes : ℕ) : Option ArenaPtr × Arena :=
  (some ⟨a.blocks.length, 0⟩,
    { a with blocks := a.blocks ++ [blockBytes], memoryUsage := a.memoryUsage + blockBytes })

/-- `Arena::AllocateFallback`. -/
def allocateFallback (a : Arena) (n : ℕ) : Option ArenaPtr × Arena :=
  if kBlockSize / 4 < n then a.allocateNewBlock n
  else
    (some ⟨a.blocks.length, 0⟩,
      { blocks := a.blocks ++ [kBlockSize]
        memoryUsage := a.memoryUsage + kBlockSize
        allocPtr := some ⟨a.blocks.length, n⟩
        allocBytesRemaining := kBlockSize - n })

/-- Moving `alloc_ptr_` forward by `n`. -/
def advance (a : Arena) (n : ℕ) : Arena :=
  { a with
    allocPtr := a.allocPtr.map fun p => { p with offset := p.offset + n }
    allocBytesRemaining := a.allocBytesRemaining - n }

/-- `Arena::Allocate`. No range is handed out for `n = 0`. -/
def allocate (a : Arena) (n : ℕ) : Option ArenaPtr × Arena :=
  if n = 0 then (none, a)
  else if n ≤ a.allocBytesRemaining then (a.allocPtr, a.advance n)
  else a.allocateFallback n

/-- `Arena::AllocateAligned`. The sum of padding and size is a `size_t`. -/
def allocateAligned (a : Arena) (n : ℕ) : Option ArenaPtr × Arena :=
  let misalign := (a.allocPtr.elim 0 ArenaPtr.offset) % 8
  let padding := if misalign = 0 then 0 else 8 - misalign
  if (padding + n) % UInt64.size ≤ a.allocBytesRemaining then (a.advance padding).allocate n
  else a.allocateFallback n

/-- A call on an arena. -/
inductive Call
  | allocate (n : ℕ)
  | allocateAligned (n : ℕ)
  deriving DecidableEq, Repr

/-- The bytes that a call asks for. -/
def Call.size : Call → ℕ
  | .allocate n => n
  | .allocateAligned n => n

/-- The pointer that a call returns, and the arena behind it. -/
def call (a : Arena) : Call → Option ArenaPtr × Arena
  | .allocate n => a.allocate n
  | .allocateAligned n => a.allocateAligned n

/-- The calls of a list, each with the pointer it returns, and the arena behind them. -/
def calls (a : Arena) : List Call → List (Call × Option ArenaPtr) × Arena
  | [] => ([], a)
  | c :: cs =>
    let r := a.call c
    let rest := r.2.calls cs
    ((c, r.1) :: rest.1, rest.2)

end Arena

end MiniLSM
