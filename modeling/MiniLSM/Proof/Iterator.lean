import MiniLSM.Spec.Iterator
import MiniLSM.Proof.TableGet

/-!
# What the iterators yield

`Yields it es`: walking `it` with `Next` gives the entries `es` and then ends, with every
access inside its buffer.

* `drain_of_yields`: then the loop over the iterator collects `es`.
* `MemTableIterator.yields`: a memtable iterator yields the nodes of its chain.
* `SSTableIterator.new_yields`: the iterator of a table yields its entries in order.
-/

namespace MiniLSM

/-- Walking `it` gives the entries `es` and ends. -/
def Yields {α : Type} [Iterator α] : α → List (Bytes × Bytes) → Prop
  | it, [] => Iterator.valid it = false
  | it, e :: es => Iterator.valid it = true ∧ Iterator.key it = e.1 ∧ Iterator.value it = e.2 ∧
      ∃ it', Iterator.next it = .ok it' ∧ Yields it' es

/-- **The loop over an iterator collects what it yields.** -/
theorem drain_of_yields {α : Type} [Iterator α] {it : α} {es : List (Bytes × Bytes)}
    (h : Yields it es) {n : ℕ} (hn : es.length ≤ n) : drain n it = .ok es := by
  induction es generalizing it n with
  | nil =>
    cases n with
    | zero => rfl
    | succ n =>
      have hv : Iterator.valid it = false := h
      simp only [drain, hv, Bool.false_eq_true, if_false]
      rfl
  | cons e es ih =>
    obtain ⟨hv, hk, hval, it', hnext, hy⟩ := h
    obtain ⟨n, rfl⟩ : ∃ m, n = m + 1 := ⟨n - 1, by simp at hn; omega⟩
    have hrest := ih hy (n := n) (by simpa using hn)
    simp only [drain, hv, if_true, hnext, bind, Except.bind, hrest, hk, hval, pure, Except.pure]

/-! ## Memtables -/

theorem MemTableIterator.yields (nodes : List Node) :
    Yields (⟨nodes⟩ : MemTableIterator) (nodes.map fun n => (n.key, n.value)) := by
  induction nodes with
  | nil => rfl
  | cons n nodes ih => exact ⟨rfl, rfl, rfl, ⟨nodes⟩, rfl, ih⟩

/-! ## Tables -/

namespace SSTableIterator

/-- The iterator stands before `e` in the block `b`, with `xs` behind it. -/
structure At (it : SSTableIterator) (t : SSTable) (bs₁ : List DataBlock) (b : DataBlock)
    (xs : List (Bytes × Bytes)) : Prop where
  table : it.table = t
  idx : it.currentBlockIdx = bs₁.length
  blockData : it.blockData = b.bytes
  entriesEnd : it.entriesEnd = (entriesBytes b.entries).length
  pos : it.pos = (entriesBytes xs).length

/-- The entry that an iterator stands before, in its buffer. -/
theorem entryAt_block {b : DataBlock} (hb : b.Bounded) {xs ys : List (Bytes × Bytes)}
    {e : Bytes × Bytes} (hes : b.entries = xs ++ e :: ys) :
    ∃ s a c, EntryAt b.bytes (entriesBytes xs).length e.1 e.2 s a c := by
  have hmem : e ∈ b.entries := by rw [hes]; simp
  obtain ⟨rest, hrest⟩ : ∃ rest, b.bytes = entriesBytes xs ++ (encodeEntry e.1 e.2 ++ rest) := by
    obtain ⟨rest, hrest⟩ : ∃ rest, b.bytes = entriesBytes b.entries ++ rest := by
      rw [DataBlock.bytes]
      conv in b.contents ++ _ => rw [DataBlock.contents, blockContents]
      simp only [List.append_assoc]
      exact ⟨_, rfl⟩
    refine ⟨entriesBytes ys ++ rest, ?_⟩
    rw [hrest, hes]
    simp [entriesBytes]
  exact entryAt hrest rfl (by have := hb.key e hmem; omega) (by have := hb.value e hmem; omega)

theorem entriesBytes_cons_length (xs ys : List (Bytes × Bytes)) (e : Bytes × Bytes) :
    (entriesBytes (xs ++ e :: ys)).length =
      (entriesBytes xs).length + (encodeEntry e.1 e.2).length + (entriesBytes ys).length := by
  simp [entriesBytes, Nat.add_assoc]

/-- Parsing the entry that the iterator stands before. -/
theorem parseCurrentEntry_at {it : SSTableIterator} {t : SSTable} {bs₁ : List DataBlock}
    {b : DataBlock} (hb : b.Bounded) {xs ys : List (Bytes × Bytes)} {e : Bytes × Bytes}
    (h : it.At t bs₁ b xs) (hes : b.entries = xs ++ e :: ys) :
    ∃ it', it.parseCurrentEntry = .ok it' ∧ it'.At t bs₁ b xs ∧ it'.valid = true ∧
      it'.keyBuf = e.1 ∧ it'.valueBuf = e.2 := by
  obtain ⟨s, a, c, hentry⟩ := entryAt_block hb hes
  have hsize := hentry.size
  have hin := hentry.inside
  have hend := entriesBytes_cons_length xs ys e
  have ha := hentry.keyLen_pos
  rw [← hes] at hend
  rw [parseCurrentEntry, if_neg (by rw [h.entriesEnd, h.pos]; omega)]
  simp only [bind, Except.bind, h.blockData, h.pos, hentry.shared, hentry.keyLen, sliceAt]
  rw [if_neg (by omega)]
  simp only [hentry.keyAt, hentry.valueLen]
  rw [if_neg (by omega)]
  simp only [hentry.valueAt, pure, Except.pure]
  exact ⟨_, rfl, ⟨h.table, h.idx, rfl, h.entriesEnd, rfl⟩, rfl, rfl, rfl⟩

/-- The position behind the entry that the iterator stands before. -/
theorem skipEntry_at {b : DataBlock} (hb : b.Bounded) {xs ys : List (Bytes × Bytes)}
    {e : Bytes × Bytes} (hes : b.entries = xs ++ e :: ys) :
    skipEntry b.bytes (entriesBytes xs).length = .ok (entriesBytes (xs ++ [e])).length := by
  obtain ⟨s, a, c, hentry⟩ := entryAt_block hb hes
  have hsize := hentry.size
  have hlen := entriesBytes_cons_length xs [] e
  simp only [skipEntry, bind, Except.bind, hentry.shared, hentry.keyLen, hentry.valueLen, pure,
    Except.pure, Except.ok.injEq]
  simp only [entriesBytes, List.flatMap_nil, List.length_nil] at hlen ⊢
  omega

/-- A full read overwrites the buffer. -/
theorem readBlockInto_eq {t : SSTable} {offset size : ℕ} {block : Bytes}
    (h : t.readBlock offset size = .ok block) (old : Bytes) :
    readBlockInto t old offset size = block := by
  have hread : fileRead t.data size offset = some block ∧ block.length = size := by
    obtain ⟨-, h⟩ := SSTable.readBlock_iff.1 h
    rw [filePRead] at h
    cases hf : fileRead t.data size offset with
    | none => simp [hf] at h
    | some buf =>
      simp only [hf] at h
      split at h
      · rename_i hlen
        obtain rfl := Option.some.inj h
        exact ⟨rfl, hlen⟩
      · cases h
  rw [readBlockInto, hread.1]
  simp only [Option.getD_some]
  rw [List.drop_eq_nil_of_le, List.append_nil]
  rw [List.length_append, List.length_take, List.length_replicate, hread.2]
  omega

/-- Loading a block stands at its start. -/
theorem loadCurrentBlock_at {it : SSTableIterator} {t : SSTable} {keys : List Bytes}
    {blocks bs₁ bs₂ : List DataBlock} {b : DataBlock} (ht : Spread t keys blocks)
    (hblocks : blocks = bs₁ ++ b :: bs₂) (htable : it.table = t) :
    ∃ it', { it with currentBlockIdx := bs₁.length }.loadCurrentBlock = .ok it' ∧
      { it' with pos := 0 }.At t bs₁ b [] := by
  obtain ⟨hentry, hblock, hend⟩ := ht.block_at hblocks
  have hread := readBlockInto_eq hblock it.blockData
  have hlen := b.bytes_length
  have hsize : ¬2 ^ 63 ≤ b.bytes.length := not_le.2 (SSTable.readBlock_iff.1 hblock).1
  refine ⟨{ it with
      currentBlockIdx := bs₁.length
      blockData := b.bytes
      entriesEnd := (entriesBytes b.entries).length }, ?_, htable, rfl, rfl, rfl, rfl⟩
  simp only [loadCurrentBlock, htable, hentry, Checked.ofOption_some, bind, Except.bind, hread,
    pure, Except.pure, hend, if_neg hsize, if_pos (show 8 ≤ b.bytes.length by omega)]

/-- Entering a block stands before its first entry. -/
theorem enterBlock_at {it : SSTableIterator} {t : SSTable} {keys : List Bytes}
    {blocks bs₁ bs₂ : List DataBlock} {b : DataBlock} (ht : Spread t keys blocks)
    (hblocks : blocks = bs₁ ++ b :: bs₂) (htable : it.table = t) {e : Bytes × Bytes}
    {ys : List (Bytes × Bytes)} (hes : b.entries = e :: ys) :
    ∃ it', it.enterBlock bs₁.length = .ok it' ∧ it'.At t bs₁ b [] ∧ it'.valid = true ∧
      it'.keyBuf = e.1 ∧ it'.valueBuf = e.2 := by
  have hb := ht.readable.bounded b (by rw [hblocks]; simp)
  obtain ⟨it', hload, hat⟩ := loadCurrentBlock_at ht hblocks htable
  have hes' : b.entries = [] ++ e :: ys := hes
  simp only [enterBlock, hload, bind, Except.bind]
  exact parseCurrentEntry_at hb hat hes'

/-- The iterator stands before the entry `e`, which is in its buffers. -/
structure On (it : SSTableIterator) (t : SSTable) (bs₁ : List DataBlock) (b : DataBlock)
    (xs : List (Bytes × Bytes)) (e : Bytes × Bytes) : Prop extends it.At t bs₁ b xs where
  valid : it.valid = true
  key : it.keyBuf = e.1
  value : it.valueBuf = e.2

section next

variable {it : SSTableIterator} {t : SSTable} {keys : List Bytes}
  {blocks bs₁ bs₂ : List DataBlock} {b c : DataBlock} {xs ys : List (Bytes × Bytes)}
  {e e' : Bytes × Bytes}

/-- `Next` skips the entry that the iterator stands before. -/
theorem next_eq (hb : b.Bounded) (h : it.At t bs₁ b xs) (hes : b.entries = xs ++ e :: ys) :
    it.next = (do
      let it := { it with pos := (entriesBytes (xs ++ [e])).length }
      if it.pos < it.entriesEnd then it.parseCurrentEntry
      else if it.table.index.length ≤ it.currentBlockIdx + 1 then
        return { it with currentBlockIdx := it.currentBlockIdx + 1, valid := false }
      else it.enterBlock (it.currentBlockIdx + 1)) := by
  obtain ⟨s, a, c, hentry⟩ := entryAt_block hb hes
  have hsize := hentry.size
  have ha := hentry.keyLen_pos
  have hend := entriesBytes_cons_length xs ys e
  rw [← hes] at hend
  have hskip : skipEntry it.blockData it.pos = .ok (entriesBytes (xs ++ [e])).length := by
    rw [h.blockData, h.pos]; exact skipEntry_at hb hes
  have hpos : it.pos < it.entriesEnd := by rw [h.pos, h.entriesEnd]; omega
  simp only [next, if_pos hpos, hskip]
  rfl

/-- `Next` inside a block. -/
theorem next_inside (hb : b.Bounded) (h : it.At t bs₁ b xs) (hes : b.entries = xs ++ e :: e' :: ys) :
    ∃ it', it.next = .ok it' ∧ it'.On t bs₁ b (xs ++ [e]) e' := by
  have hes' : b.entries = (xs ++ [e]) ++ e' :: ys := by rw [hes]; simp
  have hend := entriesBytes_cons_length (xs ++ [e]) ys e'
  have hpos := length_le_entriesBytes [e']
  simp only [entriesBytes, List.flatMap_cons, List.flatMap_nil, List.append_nil,
    List.length_singleton] at hpos
  rw [← hes'] at hend
  have hat : { it with pos := (entriesBytes (xs ++ [e])).length }.At t bs₁ b (xs ++ [e]) :=
    ⟨h.table, h.idx, h.blockData, h.entriesEnd, rfl⟩
  obtain ⟨it', hparse, hat', hv, hk, hval⟩ := parseCurrentEntry_at hb hat hes'
  refine ⟨it', ?_, hat', hv, hk, hval⟩
  rw [next_eq hb h hes]
  simp only
  rw [if_pos (by rw [h.entriesEnd]; omega), hparse]

/-- `Next` from the last entry of a block into the next block. -/
theorem next_enter (ht : Spread t keys blocks) (hblocks : blocks = bs₁ ++ b :: c :: bs₂)
    (h : it.At t bs₁ b xs) (hes : b.entries = xs ++ [e]) (hces : c.entries = e' :: ys) :
    ∃ it', it.next = .ok it' ∧ it'.On t (bs₁ ++ [b]) c [] e' := by
  have hb := ht.readable.bounded b (by rw [hblocks]; simp)
  have hindex : t.index.length = bs₁.length + 2 + bs₂.length := by
    rw [ht.index_eq, hblocks]; simp; omega
  have hblocks' : blocks = (bs₁ ++ [b]) ++ c :: bs₂ := by rw [hblocks]; simp
  have htable : { it with pos := (entriesBytes (xs ++ [e])).length }.table = t := h.table
  obtain ⟨it', henter, hat', hv, hk, hval⟩ := enterBlock_at ht hblocks' htable hces
  refine ⟨it', ?_, hat', hv, hk, hval⟩
  rw [next_eq hb h hes]
  simp only
  rw [if_neg (by rw [h.entriesEnd, hes]; omega), if_neg (by rw [h.table, h.idx]; omega), h.idx]
  rw [List.length_append, List.length_singleton] at henter
  exact henter

/-- `Next` from the last entry of the table. -/
theorem next_end (ht : Spread t keys blocks) (hblocks : blocks = bs₁ ++ [b])
    (h : it.At t bs₁ b xs) (hes : b.entries = xs ++ [e]) :
    ∃ it', it.next = .ok it' ∧ it'.valid = false := by
  have hb := ht.readable.bounded b (by rw [hblocks]; simp)
  have hindex : t.index.length = bs₁.length + 1 := by rw [ht.index_eq, hblocks]; simp
  refine ⟨{ it with
    pos := (entriesBytes (xs ++ [e])).length
    currentBlockIdx := it.currentBlockIdx + 1
    valid := false }, ?_, rfl⟩
  rw [next_eq hb h hes]
  simp only
  rw [if_neg (by rw [h.entriesEnd, hes]; omega), if_pos (by rw [h.table, h.idx]; omega)]
  rfl

end next

/-- **The iterator yields what lies before it**: the rest of its block and the blocks behind. -/
theorem yields_of_on {t : SSTable} {keys : List Bytes} {blocks bs₂ : List DataBlock}
    (ht : Spread t keys blocks) : ∀ {bs₁ : List DataBlock} {b : DataBlock}
    {ys xs : List (Bytes × Bytes)} {e : Bytes × Bytes} {it : SSTableIterator},
    blocks = bs₁ ++ b :: bs₂ → b.entries = xs ++ e :: ys → it.On t bs₁ b xs e →
      Yields it (e :: (ys ++ bs₂.flatMap DataBlock.entries)) := by
  induction bs₂ with
  | nil =>
    intro bs₁ b ys
    induction ys with
    | nil =>
      intro xs e it hblocks hes hon
      obtain ⟨it', hnext, hv⟩ := next_end ht hblocks hon.toAt hes
      exact ⟨hon.valid, hon.key, hon.value, it', hnext, hv⟩
    | cons e' ys ih =>
      intro xs e it hblocks hes hon
      have hb := ht.readable.bounded b (by rw [hblocks]; simp)
      obtain ⟨it', hnext, hon'⟩ := next_inside hb hon.toAt hes
      exact ⟨hon.valid, hon.key, hon.value, it', hnext, ih hblocks (by rw [hes]; simp) hon'⟩
  | cons c bs₂ ihb =>
    intro bs₁ b ys
    induction ys with
    | nil =>
      intro xs e it hblocks hes hon
      have hc := ht.readable.bounded c (by rw [hblocks]; simp)
      obtain ⟨e', ys, hces⟩ := List.exists_cons_of_ne_nil hc.ne
      obtain ⟨it', hnext, hon'⟩ := next_enter ht hblocks hon.toAt hes hces
      refine ⟨hon.valid, hon.key, hon.value, it', hnext, ?_⟩
      have hy := ihb (by rw [hblocks]; simp) (show c.entries = [] ++ e' :: ys from hces) hon'
      simpa [hces] using hy
    | cons e' ys ih =>
      intro xs e it hblocks hes hon
      have hb := ht.readable.bounded b (by rw [hblocks]; simp)
      obtain ⟨it', hnext, hon'⟩ := next_inside hb hon.toAt hes
      exact ⟨hon.valid, hon.key, hon.value, it', hnext, ih hblocks (by rw [hes]; simp) hon'⟩

/-- **`SeekToFirst` yields the entries of all blocks**, wherever the iterator stood. -/
theorem seekToFirst_spread {t : SSTable} {keys : List Bytes} {blocks : List DataBlock}
    (ht : Spread t keys blocks) {it : SSTableIterator} (htable : it.table = t) :
    ∃ it', it.seekToFirst = .ok it' ∧ it'.table = t ∧
      Yields it' (blocks.flatMap DataBlock.entries) := by
  rcases hblocks : blocks with - | ⟨b, bs⟩
  · have hindex : t.index = [] := by rw [ht.index_eq, hblocks]; rfl
    refine ⟨{ it with currentBlockIdx := 0, valid := false }, ?_, htable, rfl⟩
    rw [seekToFirst, htable, if_pos hindex]
    rfl
  · have hb := ht.readable.bounded b (by rw [hblocks]; simp)
    have hindex : t.index ≠ [] := by rw [ht.index_eq, hblocks]; simp [infosFrom]
    obtain ⟨e, ys, hes⟩ := List.exists_cons_of_ne_nil hb.ne
    have hblocks' : blocks = [] ++ b :: bs := hblocks
    obtain ⟨it', henter, hat, hv, hk, hval⟩ := enterBlock_at ht hblocks' htable hes
    have hy := yields_of_on ht hblocks' (show b.entries = [] ++ e :: ys from hes) ⟨hat, hv, hk, hval⟩
    refine ⟨it', ?_, hat.table, by simpa [hes] using hy⟩
    rw [seekToFirst, htable, if_neg hindex]
    exact henter

/-- Of a table that was built from pairs these are its entries. -/
theorem seekToFirst_yields {t : SSTable} {pairs : List (Bytes × Bytes)} {blocks : List DataBlock}
    (ht : Laid t pairs blocks) {it : SSTableIterator} (htable : it.table = t) :
    ∃ it', it.seekToFirst = .ok it' ∧ it'.table = t ∧ Yields it' (tableEntries pairs) := by
  rw [← ht.entries]
  exact seekToFirst_spread ht.spread htable

/-- **The iterator of a table yields its entries in order.** -/
theorem new_yields {t : SSTable} {pairs : List (Bytes × Bytes)} {blocks : List DataBlock}
    (ht : Laid t pairs blocks) :
    ∃ it, new t = .ok it ∧ it.table = t ∧ Yields it (tableEntries pairs) :=
  seekToFirst_yields ht rfl

end SSTableIterator

/-! ## Contents -/

/-- The entries that a fresh iterator over the table yields. -/
def SSTable.contents (t : SSTable) : List (Bytes × Bytes) :=
  match SSTableIterator.new t >>= drain t.data.length with
  | .ok es => es
  | .error _ => []

/-- The entries of a table under their user keys. -/
def SSTable.pairs (t : SSTable) : List (Bytes × Bytes) := userPairs t.contents

namespace Laid

variable {t : SSTable} {pairs : List (Bytes × Bytes)} {blocks : List DataBlock}

theorem length_le_data (h : Laid t pairs blocks) : (tableEntries pairs).length ≤ t.data.length := by
  rw [← h.entries, h.data_eq, fileBytes, List.length_append]
  exact (length_entries_le blocks).trans (Nat.le_add_right _ _)

/-- The sizes that the index gives are those of the data blocks. -/
theorem sum_blockSize (h : Laid t pairs blocks) :
    (t.index.map (·.blockSize)).sum = (blocksBytes blocks).length := by
  have hinfos : ∀ (off : ℕ) (bs : List DataBlock),
      (((infosFrom off bs).map BlockInfo.entry).map (·.blockSize)).sum = (blocksBytes bs).length := by
    intro off bs
    induction bs generalizing off with
    | nil => rfl
    | cons b bs ih =>
      rw [infosFrom, List.map_cons, List.map_cons, List.sum_cons, ih, blocksBytes, blocksBytes,
        List.flatMap_cons, List.length_append]
      rfl
  rw [h.table]
  exact hinfos 0 blocks

/-- The contents of a table are the entries of its pairs. -/
theorem contents_eq (h : Laid t pairs blocks) : t.contents = tableEntries pairs := by
  obtain ⟨it, hnew, -, hy⟩ := SSTableIterator.new_yields h
  rw [SSTable.contents, hnew]
  simp only [bind, Except.bind, drain_of_yields hy h.length_le_data]

theorem pairs_eq (h : Laid t pairs blocks) : t.pairs = pairs := by
  rw [SSTable.pairs, h.contents_eq, userPairs_tableEntries]

end Laid

end MiniLSM
