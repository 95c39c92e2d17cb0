import MiniLSM.Spec.SSTableBuilder
import MiniLSM.Proof.InternalKey
import Mathlib.Data.List.Induction

/-!
# What the builder writes

`build_layout`: when every write succeeds, the file is a list of data blocks, then the
index block over them, the Bloom block and the footer. The blocks hold the added pairs in
order, the `i`-th under the sequence number `i`, cut where the next entry would take a block
over `block_size_` (`cutBlocks`).
-/

namespace MiniLSM

/-! ## Entries and blocks -/

/-- The size that `Add` computes is the length of the encoded entry. -/
theorem encodeEntry_length (key value : Bytes) :
    (encodeEntry key value).length = varint32Length 0 + varint32Length (toUInt32 key.length) +
      key.length + varint32Length (toUInt32 value.length) + value.length := by
  simp only [encodeEntry, List.length_append, varint32Encode_length]

/-- The entries of a table: the pairs under the sequence numbers after `seq`. -/
def entriesFrom (seq : SequenceNumber) : List (Bytes × Bytes) → List (Bytes × Bytes)
  | [] => []
  | (u, v) :: ps => (makeInternalKey u (seq + 1) (typeOf v), v) :: entriesFrom (seq + 1) ps

/-- The entries of the table built from `pairs`. -/
def tableEntries (pairs : List (Bytes × Bytes)) : List (Bytes × Bytes) := entriesFrom 0 pairs

theorem entriesFrom_append (seq : SequenceNumber) (ps qs : List (Bytes × Bytes)) :
    entriesFrom seq (ps ++ qs) =
      entriesFrom seq ps ++ entriesFrom (seq + UInt64.ofNat ps.length) qs := by
  induction ps generalizing seq with
  | nil => simp [entriesFrom]
  | cons p ps ih =>
    have hs : seq + 1 + UInt64.ofNat ps.length = seq + UInt64.ofNat (p :: ps).length := by
      rw [List.length_cons, UInt64.ofNat_add, UInt64.add_assoc, UInt64.add_comm 1]; rfl
    rw [List.cons_append, entriesFrom, entriesFrom, ih, hs]; rfl

@[simp] theorem entriesFrom_length (seq : SequenceNumber) (ps : List (Bytes × Bytes)) :
    (entriesFrom seq ps).length = ps.length := by
  induction ps generalizing seq with
  | nil => rfl
  | cons p ps ih => simp [entriesFrom, ih]

/-- The encoded entries, one after the other. -/
def entriesBytes (es : List (Bytes × Bytes)) : Bytes := es.flatMap fun e => encodeEntry e.1 e.2

theorem entriesBytes_append (es fs : List (Bytes × Bytes)) :
    entriesBytes (es ++ fs) = entriesBytes es ++ entriesBytes fs := by simp [entriesBytes]

/-- The entries cut into blocks, `cur` being the entries of the block under way. -/
def cutBlocks (cur : List (Bytes × Bytes)) : List (Bytes × Bytes) → List (List (Bytes × Bytes))
  | [] => if cur = [] then [] else [cur]
  | e :: es =>
    if SSTableBuilder.blockSize < (entriesBytes cur).length + (encodeEntry e.1 e.2).length ∧ cur ≠ []
    then cur :: cutBlocks [e] es
    else cutBlocks (cur ++ [e]) es

theorem cutBlocks_flatten (cur es : List (Bytes × Bytes)) : (cutBlocks cur es).flatten = cur ++ es := by
  induction es generalizing cur with
  | nil =>
    rw [cutBlocks]
    split
    · rename_i h; simp [h]
    · simp
  | cons e es ih =>
    rw [cutBlocks]
    split
    · rw [List.flatten_cons, ih]; simp
    · rw [ih]; simp

theorem length_le_entriesBytes (es : List (Bytes × Bytes)) : es.length ≤ (entriesBytes es).length := by
  induction es with
  | nil => simp
  | cons e es ih =>
    have h := (varint32Length_bounds 0).1
    simp only [entriesBytes, List.flatMap_cons, List.length_append, List.length_cons,
      encodeEntry_length] at ih ⊢
    omega

/-- Blocks are few when entries are small: each but the last is nearly full. -/
theorem cutBlocks_length_le {s : ℕ} {cur es : List (Bytes × Bytes)}
    (hs : ∀ e ∈ es, (encodeEntry e.1 e.2).length + s ≤ SSTableBuilder.blockSize) :
    (cutBlocks cur es).length * s ≤ (entriesBytes cur).length + (entriesBytes es).length + s := by
  induction es generalizing cur with
  | nil =>
    rw [cutBlocks]
    split <;> simp
  | cons e es ih =>
    have he := hs e List.mem_cons_self
    have htail := fun c => @ih c fun x hx => hs x (List.mem_cons_of_mem _ hx)
    have hcons : (entriesBytes (e :: es)).length =
        (encodeEntry e.1 e.2).length + (entriesBytes es).length := by
      rw [entriesBytes, List.flatMap_cons, List.length_append]
      rfl
    rw [cutBlocks]
    split
    · -- the block under way is closed, with no room for a small entry
      rename_i hfull
      have hone := htail [e]
      have hsingle : (entriesBytes [e]).length = (encodeEntry e.1 e.2).length := by
        simp [entriesBytes]
      rw [List.length_cons, Nat.succ_mul]
      omega
    · have hrest := htail (cur ++ [e])
      have hsnoc : (entriesBytes (cur ++ [e])).length =
          (entriesBytes cur).length + (encodeEntry e.1 e.2).length := by
        rw [entriesBytes_append, List.length_append]
        simp [entriesBytes]
      omega

theorem entriesBytes_length_le {s : ℕ} {es : List (Bytes × Bytes)}
    (hs : ∀ e ∈ es, (encodeEntry e.1 e.2).length ≤ s) : (entriesBytes es).length ≤ es.length * s := by
  induction es with
  | nil => simp [entriesBytes]
  | cons e es ih =>
    have he := hs e List.mem_cons_self
    have hrest := ih fun x hx => hs x (List.mem_cons_of_mem _ hx)
    rw [entriesBytes, List.flatMap_cons, List.length_append, List.length_cons, Nat.succ_mul]
    rw [entriesBytes] at hrest
    omega

theorem flatMap_encodeFixed32_length (rs : List UInt32) :
    (rs.flatMap encodeFixed32).length = rs.length * 4 := by
  induction rs with
  | nil => rfl
  | cons r rs ih => rw [List.flatMap_cons, List.length_append, ih]; simp; omega

theorem blockContents_length (block : Bytes) (restarts : List UInt32) :
    (blockContents block restarts).length = block.length + restarts.length * 4 + 4 := by
  simp only [blockContents, List.length_append, flatMap_encodeFixed32_length, encodeFixed32_length]

/-- A data block: its entries and its restart offsets. -/
structure DataBlock where
  entries : List (Bytes × Bytes)
  restarts : List UInt32

namespace DataBlock

/-- The part of the block under the CRC. -/
def contents (b : DataBlock) : Bytes := blockContents (entriesBytes b.entries) b.restarts

/-- The block as it stands in the file. -/
def bytes (b : DataBlock) : Bytes := b.contents ++ encodeFixed32 (crc32 b.contents)

/-- The key that the index files the block under. -/
def lastKey (b : DataBlock) : Bytes := (b.entries.getLast?.map Prod.fst).getD []

/-- What every flushed block satisfies. -/
structure OK (b : DataBlock) : Prop where
  ne : b.entries ≠ []
  restarts : b.restarts.length = (b.entries.length + 15) / 16
  small : b.entries.length ≤ 1 ∨ (entriesBytes b.entries).length ≤ SSTableBuilder.blockSize

theorem bytes_length (b : DataBlock) :
    b.bytes.length = (entriesBytes b.entries).length + b.restarts.length * 4 + 4 + 4 := by
  simp only [bytes, contents, blockContents_length, List.length_append, encodeFixed32_length]

end DataBlock

/-- The index over blocks that start at offset `off`. -/
def infosFrom (off : ℕ) : List DataBlock → List BlockInfo
  | [] => []
  | b :: bs => ⟨b.lastKey, off, b.bytes.length⟩ :: infosFrom (off + b.bytes.length) bs

/-- The data blocks as they stand in the file. -/
def blocksBytes (bs : List DataBlock) : Bytes := bs.flatMap DataBlock.bytes

theorem length_entries_le (bs : List DataBlock) :
    (bs.flatMap DataBlock.entries).length ≤ (blocksBytes bs).length := by
  induction bs with
  | nil => simp
  | cons b bs ih =>
    have hb := b.bytes_length
    have hes := length_le_entriesBytes b.entries
    rw [List.flatMap_cons, blocksBytes, List.flatMap_cons, List.length_append, List.length_append]
    rw [blocksBytes] at ih
    omega

theorem infosFrom_append (off : ℕ) (bs cs : List DataBlock) :
    infosFrom off (bs ++ cs) = infosFrom off bs ++ infosFrom (off + (blocksBytes bs).length) cs := by
  induction bs generalizing off with
  | nil => simp [infosFrom, blocksBytes]
  | cons b bs ih => simp [infosFrom, ih, blocksBytes, Nat.add_assoc]

/-- The whole file. -/
def fileBytes (bs : List DataBlock) (keys : List Bytes) : Bytes :=
  let index := SSTableBuilder.indexBlock (infosFrom 0 bs)
  let bloom := SSTableBuilder.bloomBlock keys
  blocksBytes bs ++ (index ++ (bloom ++ SSTableBuilder.footer (blocksBytes bs).length index.length
    ((blocksBytes bs).length + index.length) bloom.length))

/-! ## Writes that succeed -/

/-- A write that puts every byte moves the file on, whatever it returns. -/
theorem Fd.writeFull_puts {fd : Fd} {buf : Bytes} (hne : buf ≠ [])
    (h : ∀ n ∈ fd.faults fd.writes, buf.length ≤ n) :
    (fd.writeFull buf).2 = { fd with file := fd.file ++ buf, writes := fd.writes + 1 } := by
  rw [writeFull, if_neg hne]
  cases hf : fd.faults fd.writes with
  | none => rfl
  | some n => simp only [List.take_of_length_le (h n hf)]

theorem Fd.foldl_puts {fd : Fd} {rs : List UInt32}
    (h : ∀ j < rs.length, ∀ n ∈ fd.faults (fd.writes + j), 4 ≤ n) :
    rs.foldl (fun fd off => (fd.writeFull (encodeFixed32 off)).2) fd =
      { fd with file := fd.file ++ rs.flatMap encodeFixed32, writes := fd.writes + rs.length } := by
  induction rs generalizing fd with
  | nil => simp
  | cons r rs ih =>
    have hfirst : (fd.writeFull (encodeFixed32 r)).2 =
        { fd with file := fd.file ++ encodeFixed32 r, writes := fd.writes + 1 } :=
      writeFull_puts (List.ne_nil_of_length_pos (by simp)) fun n hn => by
        rw [encodeFixed32_length]
        exact h 0 (by simp) n hn
    rw [List.foldl_cons, hfirst, ih]
    · simp only [List.flatMap_cons, List.append_assoc, List.length_cons, Nat.add_assoc, Nat.add_comm 1]
    · intro j hj n hn
      exact h (j + 1) (by simpa using hj) n (by rwa [Nat.add_assoc, Nat.add_comm 1] at hn)

/-- No coming write fails. -/
def Fd.Sound (fd : Fd) : Prop := ∀ i, fd.faults i = none

theorem Fd.writeFull_spec {fd : Fd} (h : fd.Sound) (buf : Bytes) :
    (fd.writeFull buf).1 = true ∧ (fd.writeFull buf).2.Sound ∧
      (fd.writeFull buf).2.file = fd.file ++ buf := by
  unfold writeFull
  split
  · rename_i hb; subst hb; exact ⟨rfl, h, by simp⟩
  · rw [h fd.writes]; exact ⟨rfl, h, rfl⟩

namespace SSTableBuilder

/-- The writes of `FlushBlock` put all their bytes, and it learns so of the entries. -/
structure Puts (b : SSTableBuilder) : Prop where
  entries : b.fd.faults b.fd.writes = none
  rest : ∀ j < b.restartOffsets.length + 2, ∀ n ∈ b.fd.faults (b.fd.writes + 1 + j), 4 ≤ n

/-- What `FlushBlock` then leaves. -/
theorem flushBlock_puts {b : SSTableBuilder} (hcount : b.entryCountInBlock ≠ 0) (hblock : b.block ≠ [])
    (h : b.Puts) : b.flushBlock = { b with
      fd := { b.fd with
        file := b.fd.file ++ (blockContents b.block b.restartOffsets ++
          encodeFixed32 (crc32 (blockContents b.block b.restartOffsets)))
        writes := b.fd.writes + 1 + b.restartOffsets.length + 1 + 1 }
      blockInfos := b.blockInfos ++
        [⟨b.lastKeyInBlock, b.fileSize, b.block.length + b.restartOffsets.length * 4 + 4 + 4⟩]
      fileSize := b.fileSize + (b.block.length + b.restartOffsets.length * 4 + 4 + 4)
      block := []
      restartOffsets := []
      entryCountInBlock := 0 } := by
  have hok : (b.fd.writeFull b.block).1 = true := by
    rw [Fd.writeFull, if_neg hblock, h.entries]
  have hentries := @Fd.writeFull_puts b.fd b.block hblock (by simp [h.entries])
  have hne : ∀ v : UInt32, encodeFixed32 v ≠ [] := fun v => List.ne_nil_of_length_pos (by simp)
  have hrestarts := @Fd.foldl_puts { b.fd with file := b.fd.file ++ b.block, writes := b.fd.writes + 1 }
    b.restartOffsets fun j hj => h.rest j (by omega)
  have hnum := fun file => @Fd.writeFull_puts
    { b.fd with file := file, writes := b.fd.writes + 1 + b.restartOffsets.length }
    _ (hne (toUInt32 b.restartOffsets.length)) fun n hn => h.rest b.restartOffsets.length (by omega) n hn
  have hcrc := fun file crc => @Fd.writeFull_puts
    { b.fd with file := file, writes := b.fd.writes + 1 + b.restartOffsets.length + 1 }
    _ (hne crc) fun n hn => h.rest (b.restartOffsets.length + 1) (by omega) n hn
  unfold flushBlock
  simp only [hcount, if_false, hok, Bool.not_true, Bool.false_eq_true, hentries, hrestarts, hnum, hcrc]
  simp only [blockContents, List.append_assoc]

/-- The builder has the blocks `done` in its file and `cur` in the current one. -/
structure Whole (b : SSTableBuilder) (done : List DataBlock) (cur : List (Bytes × Bytes)) : Prop where
  file : b.fd.file = blocksBytes done
  size : b.fileSize = (blocksBytes done).length
  infos : b.blockInfos = infosFrom 0 done
  block : b.block = entriesBytes cur
  count : b.entryCountInBlock = cur.length
  last : cur ≠ [] → b.lastKeyInBlock = (cur.getLast?.map Prod.fst).getD []
  restarts : b.restartOffsets.length = (cur.length + 15) / 16

theorem Whole.count_ne {b : SSTableBuilder} {done : List DataBlock} {cur : List (Bytes × Bytes)}
    (h : b.Whole done cur) (hcur : cur ≠ []) : b.entryCountInBlock ≠ 0 := by
  rw [h.count]
  exact fun h0 => hcur (List.length_eq_zero_iff.1 h0)

theorem Whole.block_ne {b : SSTableBuilder} {done : List DataBlock} {cur : List (Bytes × Bytes)}
    (h : b.Whole done cur) (hcur : cur ≠ []) : b.block ≠ [] := by
  have hes := length_le_entriesBytes cur
  have := List.length_pos_iff.2 hcur
  rw [h.block]
  exact List.ne_nil_of_length_pos (by omega)

/-- A current block that is put goes behind the others. -/
theorem Whole.flush {b : SSTableBuilder} {done : List DataBlock} {cur : List (Bytes × Bytes)}
    (h : b.Whole done cur) (hcur : cur ≠ []) (hputs : b.Puts) :
    b.flushBlock.Whole (done ++ [⟨cur, b.restartOffsets⟩]) [] ∧
      b.flushBlock.keys = b.keys ∧ b.flushBlock.builderSeq = b.builderSeq ∧
      b.flushBlock.finished = b.finished ∧ b.flushBlock.fd.faults = b.fd.faults := by
  have hlen := DataBlock.bytes_length ⟨cur, b.restartOffsets⟩
  have hlast : (DataBlock.mk cur b.restartOffsets).lastKey = b.lastKeyInBlock := (h.last hcur).symm
  rw [flushBlock_puts (h.count_ne hcur) (h.block_ne hcur) hputs]
  refine ⟨⟨?_, ?_, ?_, rfl, rfl, fun h0 => absurd rfl h0, rfl⟩, rfl, rfl, rfl, rfl⟩
  · simp [blocksBytes, DataBlock.bytes, DataBlock.contents, h.file, h.block]
  · simp only [blocksBytes, List.flatMap_append, List.length_append, List.flatMap_cons,
      List.flatMap_nil, List.append_nil, hlen, h.size, h.block]
  · simp only [infosFrom_append, infosFrom, h.infos, hlast, hlen, h.size, h.block, Nat.zero_add]

/-- An entry goes behind the others of the current block. -/
theorem Whole.append {b : SSTableBuilder} {done : List DataBlock} {cur : List (Bytes × Bytes)}
    (h : b.Whole done cur) (ik u v : Bytes) : (b.appendEntry ik u v).Whole done (cur ++ [(ik, v)]) := by
  refine ⟨h.file, h.size, h.infos, ?_, ?_, ?_, ?_⟩
  · simp [appendEntry, h.block, entriesBytes]
  · simp [appendEntry, h.count]
  · intro _; simp [appendEntry]
  · simp only [appendEntry, kRestartInterval, h.count, List.length_append, List.length_singleton]
    split
    · rw [List.length_append, h.restarts, List.length_singleton]; omega
    · rw [h.restarts]; omega

/-- The builder after it flushed the blocks `done`, with `cur` in the current block. -/
structure State (b : SSTableBuilder) (done : List DataBlock) (cur : List (Bytes × Bytes)) : Prop where
  sound : b.fd.Sound
  file : b.fd.file = blocksBytes done
  size : b.fileSize = (blocksBytes done).length
  infos : b.blockInfos = infosFrom 0 done
  block : b.block = entriesBytes cur
  count : b.entryCountInBlock = cur.length
  last : cur ≠ [] → b.lastKeyInBlock = (cur.getLast?.map Prod.fst).getD []
  restarts : b.restartOffsets.length = (cur.length + 15) / 16
  ok : ∀ d ∈ done, d.OK
  small : cur.length ≤ 1 ∨ (entriesBytes cur).length ≤ blockSize

theorem State.whole {b : SSTableBuilder} {done : List DataBlock} {cur : List (Bytes × Bytes)}
    (h : b.State done cur) : b.Whole done cur :=
  ⟨h.file, h.size, h.infos, h.block, h.count, h.last, h.restarts⟩

/-- **`FlushBlock` moves the current block to the file.** -/
theorem flushBlock_state {b : SSTableBuilder} {done : List DataBlock} {cur : List (Bytes × Bytes)}
    (h : b.State done cur) (hcur : cur ≠ []) :
    b.flushBlock.State (done ++ [⟨cur, b.restartOffsets⟩]) [] ∧
      b.flushBlock.keys = b.keys ∧ b.flushBlock.builderSeq = b.builderSeq ∧
      b.flushBlock.finished = b.finished := by
  have hputs : b.Puts := ⟨h.sound _, fun j _ n hn => by rw [h.sound] at hn; cases hn⟩
  obtain ⟨hw, hkeys, hseq, hfin, hfaults⟩ := h.whole.flush hcur hputs
  refine ⟨⟨fun i => by rw [hfaults]; exact h.sound i, hw.file, hw.size, hw.infos, hw.block, hw.count,
    hw.last, hw.restarts, ?_, Or.inl (by simp)⟩, hkeys, hseq, hfin⟩
  intro d hd
  rcases List.mem_append.1 hd with hd | hd
  · exact h.ok d hd
  · obtain rfl := List.mem_singleton.1 hd
    exact ⟨hcur, h.restarts, h.small⟩

/-- Appending an entry keeps the state, when it fits or the block is empty. -/
theorem appendEntry_state {b : SSTableBuilder} {done : List DataBlock} {cur : List (Bytes × Bytes)}
    (h : b.State done cur) (ik u v : Bytes)
    (hfit : cur = [] ∨ (entriesBytes cur).length + (encodeEntry ik v).length ≤ blockSize) :
    (b.appendEntry ik u v).State done (cur ++ [(ik, v)]) := by
  have hw := h.whole.append ik u v
  refine ⟨h.sound, hw.file, hw.size, hw.infos, hw.block, hw.count, hw.last, hw.restarts, h.ok, ?_⟩
  rcases hfit with rfl | hfit
  · exact Or.inl (by simp)
  · exact Or.inr (by simpa [entriesBytes] using hfit)

/-- **`Add` appends one entry**, after a flush when the block would grow too large. -/
theorem add_state {b : SSTableBuilder} {done : List DataBlock} {cur : List (Bytes × Bytes)}
    (h : b.State done cur) (u v : Bytes) :
    let e := (makeInternalKey u (b.builderSeq + 1) (typeOf v), v)
    (∃ done' cur', (b.add u v).State done' cur' ∧ ∀ es,
      done'.map DataBlock.entries ++ cutBlocks cur' es =
        done.map DataBlock.entries ++ cutBlocks cur (e :: es)) ∧
      (b.add u v).keys = b.keys ++ [u] ∧ (b.add u v).builderSeq = b.builderSeq + 1 ∧
      (b.add u v).finished = b.finished := by
  intro e
  have hb : { b with builderSeq := b.builderSeq + 1 }.State done cur :=
    ⟨h.sound, h.file, h.size, h.infos, h.block, h.count, h.last, h.restarts, h.ok,
      h.small⟩
  have hsize := encodeEntry_length e.1 e.2
  unfold add
  simp only
  split
  · rename_i hfull
    have hcur : cur ≠ [] := by
      rintro rfl
      rw [h.count] at hfull
      exact absurd hfull.2 (by simp)
    obtain ⟨hf, hk, hs, hfin⟩ := flushBlock_state hb hcur
    refine ⟨⟨_, _, appendEntry_state hf e.1 u e.2 (Or.inl rfl), fun es => ?_⟩, ?_, ?_, hfin⟩
    · have hbig : blockSize < (entriesBytes cur).length + (encodeEntry e.1 e.2).length := by
        rw [hsize, ← h.block]
        exact hfull.1
      rw [cutBlocks, if_pos ⟨hbig, hcur⟩]
      simp [e]
    · simp only [appendEntry, hk]
    · simp only [appendEntry, hs]
  · rename_i hfits
    have hroom : cur = [] ∨
        (entriesBytes cur).length + (encodeEntry e.1 e.2).length ≤ blockSize := by
      by_cases hcur : cur = []
      · exact Or.inl hcur
      · right
        have hpos : 0 < cur.length := List.length_pos_iff.2 hcur
        rw [h.count, h.block] at hfits
        rw [hsize]
        by_contra hgt
        exact hfits ⟨by simp only [e] at hgt ⊢; omega, hpos⟩
    refine ⟨⟨_, _, appendEntry_state hb e.1 u e.2 hroom, fun es => ?_⟩, rfl, rfl, rfl⟩
    rw [cutBlocks, if_neg fun hbig => ?_]
    exact hbig.2 (hroom.resolve_right (not_le.2 hbig.1))

theorem new_state : (new {}).State [] [] :=
  ⟨fun _ => rfl, rfl, rfl, rfl, rfl, rfl, fun h => absurd rfl h, rfl, by simp, Or.inl (by simp)⟩

/-- **After any adds** the flushed blocks and the current one hold the pairs in order. -/
theorem addAll_state (pairs : List (Bytes × Bytes)) :
    ∃ done cur, ((new {}).addAll pairs).State done cur ∧
      (∀ es, done.map DataBlock.entries ++ cutBlocks cur es =
        cutBlocks [] (tableEntries pairs ++ es)) ∧
      ((new {}).addAll pairs).keys = pairs.map Prod.fst ∧
      ((new {}).addAll pairs).builderSeq = UInt64.ofNat pairs.length ∧
      ((new {}).addAll pairs).finished = false := by
  induction pairs using List.reverseRecOn with
  | nil => exact ⟨[], [], new_state, fun _ => rfl, rfl, rfl, rfl⟩
  | append_singleton ps p ih =>
    obtain ⟨done, cur, hst, hes, hkeys, hseq, hfin⟩ := ih
    have hadd : (new {}).addAll (ps ++ [p]) = ((new {}).addAll ps).add p.1 p.2 := by
      simp [addAll]
    obtain ⟨⟨done', cur', hst', hes'⟩, hkeys', hseq', hfin'⟩ := add_state hst p.1 p.2
    rw [hadd]
    refine ⟨done', cur', hst', fun es => ?_, ?_, ?_, hfin'.trans hfin⟩
    · rw [hes', hes, hseq, tableEntries, tableEntries, entriesFrom_append]
      simp [entriesFrom]
    · rw [hkeys', hkeys]; simp
    · rw [hseq', hseq, List.length_append, UInt64.ofNat_add]; rfl

/-- `Finish` flushes the current block, if there is one. -/
theorem flushRest_state {b : SSTableBuilder} {done : List DataBlock} {cur : List (Bytes × Bytes)}
    (h : b.State done cur) :
    ∃ blocks, (if 0 < b.entryCountInBlock then b.flushBlock else b).State blocks [] ∧
      blocks.map DataBlock.entries = done.map DataBlock.entries ++ cutBlocks cur [] ∧
      (if 0 < b.entryCountInBlock then b.flushBlock else b).keys = b.keys := by
  split
  · rename_i hpos
    have hcur : cur ≠ [] := by
      rintro rfl
      rw [h.count] at hpos
      exact absurd hpos (by simp)
    obtain ⟨hf, hk, -, -⟩ := flushBlock_state h hcur
    exact ⟨_, hf, by simp [cutBlocks, hcur], hk⟩
  · rename_i hpos
    have hcur : cur = [] := by
      rw [h.count] at hpos
      exact List.length_eq_zero_iff.1 (by omega)
    subst hcur
    exact ⟨done, h, by simp [cutBlocks], rfl⟩

/-- **`Finish` writes index, Bloom block and footer** behind the blocks. -/
theorem finish_file {b : SSTableBuilder} {done : List DataBlock} {cur : List (Bytes × Bytes)}
    (h : b.State done cur) (hfin : b.finished = false) :
    ∃ blocks : List DataBlock, (∀ d ∈ blocks, d.OK) ∧
      blocks.map DataBlock.entries = done.map DataBlock.entries ++ cutBlocks cur [] ∧
      b.finish.1 = .OK ∧ b.finish.2.fd.file = fileBytes blocks b.keys ∧
      b.finish.2.blockInfos = infosFrom 0 blocks := by
  have hb : { b with finished := true }.State done cur :=
    ⟨h.sound, h.file, h.size, h.infos, h.block, h.count, h.last, h.restarts, h.ok, h.small⟩
  obtain ⟨blocks, hst, hes, hkeys⟩ := flushRest_state hb
  refine ⟨blocks, hst.ok, hes, ?_⟩
  unfold finish
  simp only [hfin, Bool.false_eq_true, if_false]
  generalize (if 0 < b.entryCountInBlock then { b with finished := true }.flushBlock
    else { b with finished := true }) = b' at hst hkeys ⊢
  obtain ⟨h1, h2, h3⟩ := Fd.writeFull_spec hst.sound (indexBlock b'.blockInfos)
  obtain ⟨h4, h5, h6⟩ := Fd.writeFull_spec h2 (bloomBlock b'.keys)
  obtain ⟨h7, -, h9⟩ := Fd.writeFull_spec h5 (footer b'.fileSize (indexBlock b'.blockInfos).length
    (b'.fileSize + (indexBlock b'.blockInfos).length) (bloomBlock b'.keys).length)
  simp only [h1, h4, h7, Bool.not_true, Bool.false_eq_true, if_false]
  refine ⟨trivial, ?_, hst.infos⟩
  rw [h9, h6, h3, hst.file, hst.infos, hst.size, hkeys]
  simp [fileBytes]

/-- **The layout of the file.** -/
theorem build_layout (pairs : List (Bytes × Bytes)) :
    ∃ blocks : List DataBlock, (∀ b ∈ blocks, b.OK) ∧
      blocks.map DataBlock.entries = cutBlocks [] (tableEntries pairs) ∧
      ((new {}).addAll pairs).finish.1 = .OK ∧
      build pairs = fileBytes blocks (pairs.map Prod.fst) ∧
      ((new {}).addAll pairs).finish.2.blockInfos = infosFrom 0 blocks := by
  obtain ⟨done, cur, hst, hes, hkeys, -, hfin⟩ := addAll_state pairs
  obtain ⟨blocks, hok, hes', hstatus, hfile, hinfos⟩ := finish_file hst hfin
  have hcut := hes []
  rw [List.append_nil] at hcut
  exact ⟨blocks, hok, hes'.trans hcut, hstatus, by rw [build, hfile, hkeys], hinfos⟩

end SSTableBuilder

end MiniLSM
