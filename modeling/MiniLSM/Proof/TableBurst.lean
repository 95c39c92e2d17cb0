import MiniLSM.Proof.Recover
import MiniLSM.Proof.RoundTrip

/-!
# Damaged tables

What a burst of changed bytes inside one checksummed block of a table file does to the reads.

* `DamagedAt`: one to four consecutive bytes of a block have changed, all under its CRC or all
  in it. `DamagedAt.block`: the CRC no longer matches.
* `FrontLengths`: `Open` does not check the first block, and reads its first key if and only if the two
  lengths in front of it can be decoded.
* `openFile_of_index_damage`, `openFile_of_data_damage`, `openFile_of_bloom_damage`: what `Open`
  makes of the file.
-/

namespace MiniLSM

open SSTableBuilder

/-! ## Bursts inside a block -/

/-- `bad` is `file` after one to four consecutive bytes, from `lo` on and before `hi`, have
changed. -/
def BurstIn (lo hi : ℕ) (file bad : Bytes) : Prop :=
  ∃ as ds es bs, file = as ++ ds ++ bs ∧ bad = as ++ es ++ bs ∧ ds.length = es.length ∧
    ds.length ≤ 4 ∧ ds ≠ es ∧ lo ≤ as.length ∧ as.length + ds.length ≤ hi

/-- `bad` is `file` after a burst in the checksummed part, or in the stored CRC, of the block of
`size` bytes at `offset`. -/
def DamagedAt (offset size : ℕ) (file bad : Bytes) : Prop :=
  BurstIn offset (offset + size - 4) file bad ∨ BurstIn (offset + size - 4) (offset + size) file bad

/-- A burst inside a part of the file changes only that part. -/
theorem BurstIn.part {pre mid post bad : Bytes} {lo hi : ℕ} (h : BurstIn lo hi (pre ++ (mid ++ post)) bad)
    (hlo : lo = pre.length) (hhi : hi = pre.length + mid.length) :
    ∃ mid', bad = pre ++ (mid' ++ post) ∧ WALReader.Burst mid mid' := by
  obtain ⟨as, ds, es, bs, hfile, rfl, hl, h4, hne, hfrom, hto⟩ := h
  -- the bytes in front of the burst start with `pre`, those behind it end with `post`
  obtain ⟨as', rfl, has⟩ : ∃ as', as = pre ++ as' ∧ mid ++ post = as' ++ (ds ++ bs) := by
    rw [List.append_assoc] at hfile
    rcases List.append_eq_append_iff.1 hfile with ⟨as', h1, h2⟩ | ⟨as', h1, h2⟩
    · exact ⟨as', h1, h2⟩
    · have hlen := congrArg List.length h1
      rw [List.length_append] at hlen
      obtain rfl : as' = [] := List.length_eq_zero_iff.1 (by omega)
      exact ⟨[], by simpa using h1.symm, by simpa using h2.symm⟩
  obtain ⟨bs', hmid, rfl⟩ : ∃ bs', mid = as' ++ ds ++ bs' ∧ bs = bs' ++ post := by
    rw [← List.append_assoc] at has
    rw [List.length_append] at hto
    rcases List.append_eq_append_iff.1 has with ⟨bs', h1, h2⟩ | ⟨bs', h1, h2⟩
    · have hlen := congrArg List.length h1
      rw [List.length_append, List.length_append] at hlen
      obtain rfl : bs' = [] := List.length_eq_zero_iff.1 (by omega)
      exact ⟨[], by simpa using h1.symm, by simpa using h2.symm⟩
    · exact ⟨bs', h1, h2⟩
  exact ⟨as' ++ es ++ bs', by simp only [List.append_assoc], as', ds, es, bs', hmid, rfl, hl, h4, hne⟩

/-- A burst in a piece is one in the whole. -/
theorem burst_append {xs ys : Bytes} (h : WALReader.Burst xs ys) (pre post : Bytes) :
    WALReader.Burst (pre ++ xs ++ post) (pre ++ ys ++ post) := by
  obtain ⟨as, ds, es, bs, rfl, rfl, hl, h4, hne⟩ := h
  exact ⟨pre ++ as, ds, es, bs ++ post, by simp only [List.append_assoc],
    by simp only [List.append_assoc], hl, h4, hne⟩

/-- **A damaged block no longer matches its CRC**, and the rest of the file is as it was. -/
theorem DamagedAt.block {pre c post bad : Bytes} {offset size : ℕ}
    (h : DamagedAt offset size (pre ++ ((c ++ encodeFixed32 (crc32 c)) ++ post)) bad)
    (ho : offset = pre.length) (hs : size = (c ++ encodeFixed32 (crc32 c)).length) :
    ∃ block, bad = pre ++ (block ++ post) ∧ WALReader.Burst (c ++ encodeFixed32 (crc32 c)) block ∧
      crcMatches block = false := by
  have hsize : size = c.length + 4 := by rw [hs, List.length_append, encodeFixed32_length]
  rcases h with h | h
  · have h : BurstIn offset (offset + size - 4) (pre ++ (c ++ (encodeFixed32 (crc32 c) ++ post))) bad := by
      rwa [List.append_assoc] at h
    obtain ⟨c', rfl, hburst⟩ := h.part ho (by omega)
    refine ⟨c' ++ encodeFixed32 (crc32 c), by rw [List.append_assoc],
      burst_append hburst [] _, ?_⟩
    have hlen : (c' ++ encodeFixed32 (crc32 c)).length - 4 = c'.length := by simp
    have hne := hburst.crc32_ne [] []
    simp only [List.nil_append, List.append_nil] at hne
    have hdec : decodeFixed32 (encodeFixed32 (crc32 c)) = some (crc32 c) := by
      simpa using decodeFixed32_encode (crc32 c) []
    rw [crcMatches, hlen, List.drop_left, List.take_left, hdec]
    simpa using hne
  · have h : BurstIn (offset + size - 4) (offset + size)
        ((pre ++ c) ++ (encodeFixed32 (crc32 c) ++ post)) bad := by
      simpa only [List.append_assoc] using h
    obtain ⟨v, hbad, hburst⟩ := h.part (by rw [List.length_append]; omega)
      (by rw [List.length_append, encodeFixed32_length]; omega)
    refine ⟨c ++ v, by rw [hbad]; simp only [List.append_assoc], ?_, ?_⟩
    · have := burst_append hburst c []
      rwa [List.append_nil, List.append_nil] at this
    · have hv : v.length = 4 := by rw [← hburst.length_eq, encodeFixed32_length]
      have hlen : (c ++ v).length - 4 = c.length := by rw [List.length_append, hv]; omega
      rw [crcMatches, hlen, List.drop_left, List.take_left, decide_eq_false_iff_not]
      intro hdec
      exact hburst.ne (WALReader.eq_encodeFixed32 hv hdec).symm

/-- Changing the first byte of a block damages it. -/
theorem damagedAt_set {file : Bytes} {offset size : ℕ} {x y : UInt8} (hx : file[offset]? = some x)
    (hne : x ≠ y) (hsize : 5 ≤ size) : DamagedAt offset size file (file.set offset y) := by
  obtain ⟨hlt, rfl⟩ := List.getElem?_eq_some_iff.1 hx
  have htake : (file.take offset).length = offset := by rw [List.length_take]; omega
  refine Or.inl ⟨file.take offset, [file[offset]], [y], file.drop (offset + 1), ?_, ?_, rfl, by simp,
    by simpa using hne, htake.ge, ?_⟩
  · simp
  · rw [List.set_eq_take_append_cons_drop, if_pos hlt]
    simp
  · rw [htake, List.length_singleton]
    omega

/-! ## The first key of a damaged block -/

/-- The two numbers at the front of the bytes are varints of at most five bytes each. -/
def FrontLengths (bytes : Bytes) : Prop :=
  ∃ s n v k, varint32Decode bytes = some (s, n) ∧ varint32Decode (bytes.drop n) = some (v, k)

/-- They stand within the first ten bytes. -/
theorem frontLengths_append {block : Bytes} (h : 10 ≤ block.length) (rest : Bytes) :
    FrontLengths (block ++ rest) ↔ FrontLengths block := by
  have hshort : ∀ {bytes : Bytes} {v n : ℕ}, varint32Decode bytes = some (v, n) → n ≤ 5 := fun hdec => by
    have := Leb128.decodeFrom_fits hdec
    omega
  have happend : ∀ {bytes : Bytes} {v n : ℕ}, 5 ≤ bytes.length →
      (varint32Decode (bytes ++ rest) = some (v, n) ↔ varint32Decode bytes = some (v, n)) := by
    intro bytes v n h5
    refine ⟨fun hdec => ?_, fun hdec => ?_⟩
    · exact (Leb128.decodeFrom_append ((hshort hdec).trans h5) rest 0 0).1 hdec
    · exact (Leb128.decodeFrom_append ((hshort hdec).trans h5) rest 0 0).2 hdec
  unfold FrontLengths
  refine exists_congr fun s => exists_congr fun n => exists_congr fun v => exists_congr fun k => ?_
  rw [happend (by omega)]
  refine and_congr_right fun hdec => ?_
  have hn := hshort hdec
  rw [List.drop_append_of_le_length (by omega), happend (by rw [List.length_drop]; omega)]

/-- **`Open` reads some first key** from a block with such numbers in front. -/
theorem readFirstKey_of_front {block : Bytes} (h : FrontLengths block) :
    ∃ key, SSTable.readFirstKey block = .ok key := by
  obtain ⟨s, n, v, k, hs, hv⟩ := h
  unfold SSTable.readFirstKey
  simp only [bind, Except.bind, varint32At, List.drop_zero, hs, hv, Checked.ofOption_some, pure, Except.pure]
  split_ifs <;> exact ⟨_, rfl⟩

/-- From any other block its read is undefined. -/
theorem readFirstKey_of_not_front {block : Bytes} (h10 : 10 ≤ block.length) (h : ¬FrontLengths block) :
    SSTable.readFirstKey block = .error .outOfBounds := by
  unfold SSTable.readFirstKey
  rw [if_neg (by omega)]
  cases hs : varint32Decode block with
  | none => simp only [bind, Except.bind, varint32At, List.drop_zero, hs, Checked.ofOption]
  | some p =>
    obtain ⟨s, n⟩ := p
    have hn : ¬block.length ≤ n := by
      have := Leb128.decodeFrom_fits hs
      omega
    cases hv : varint32Decode (block.drop n) with
    | none =>
      simp only [bind, Except.bind, varint32At, List.drop_zero, hs, hv, Checked.ofOption, if_neg hn]
    | some q => exact absurd ⟨s, n, q.1, q.2, hs, hv⟩ h

/-- A block with an entry has room for them. -/
theorem DataBlock.OK.ten_le {b : DataBlock} (hok : b.OK) (hb : b.Bounded) : 10 ≤ b.bytes.length := by
  obtain ⟨e, es', rest, hes, -⟩ := hb.first
  have hlong := b.bytes_length
  have hentry := encodeEntry_le_entriesBytes (show e ∈ b.entries by rw [hes]; exact List.mem_cons_self)
  have hsize := encodeEntry_length e.1 e.2
  have hcount := hok.restarts
  have hpos := List.length_pos_iff.2 hok.ne
  have hvarint := (varint32Length_bounds (toUInt32 e.2.length)).1
  omega

/-! ## Files in pieces -/

/-- A piece of the file is read at its place. -/
theorem filePRead_flatten {ps : List Bytes} {i : ℕ} {p : Bytes} (hp : ps[i]? = some p)
    (hlt : ps.flatten.length < 2 ^ 63) (rest : Bytes) :
    filePRead (ps.flatten ++ rest) p.length (ps.take i).flatten.length = some p := by
  obtain ⟨hi, rfl⟩ := List.getElem?_eq_some_iff.1 hp
  have hsplit : ps.flatten = (ps.take i).flatten ++ (ps[i] ++ (ps.drop (i + 1)).flatten) := by
    conv_lhs => rw [← List.take_append_drop i ps, List.drop_eq_getElem_cons hi]
    rw [List.flatten_append, List.flatten_cons]
  have hlen := congrArg List.length hsplit
  rw [List.length_append] at hlen
  have hdata : ps.flatten ++ rest =
      (ps.take i).flatten ++ (ps[i] ++ ((ps.drop (i + 1)).flatten ++ rest)) := by
    rw [hsplit]
    simp only [List.append_assoc]
  exact filePRead_append hdata rfl rfl (by omega)

/-- The pieces stay where they are when one is replaced by another of its length. -/
theorem take_set_flatten_length {ps : List Bytes} {j : ℕ} {p p' : Bytes} (hp : ps[j]? = some p)
    (hl : p'.length = p.length) (i : ℕ) :
    ((ps.set j p').take i).flatten.length = (ps.take i).flatten.length := by
  obtain ⟨hj, rfl⟩ := List.getElem?_eq_some_iff.1 hp
  have hlengths : (ps.set j p').map List.length = ps.map List.length := by
    rw [List.map_set, hl, ← List.getElem_map List.length (h := by simpa using hj), List.set_getElem_self]
  rw [List.length_flatten, List.length_flatten, List.map_take, List.map_take, hlengths]

namespace SSTable

/-- The search over the index ends inside it. -/
theorem getD_findBlock_mem {index : List IndexEntry} (hne : index ≠ []) (lookupKey : Bytes) :
    index.getD (findBlock index lookupKey index.length 0 (index.length - 1)) ⟨[], 0, 0⟩ ∈ index := by
  have hpos := List.length_pos_iff.2 hne
  have hle : findBlock index lookupKey index.length 0 (index.length - 1) ≤ index.length - 1 := by
    rw [findBlock_eq]; exact (Search.lowerBound_mem (Nat.zero_le _)).2
  rw [List.getD_eq_getElem _ _ (by omega)]
  exact List.getElem_mem _

variable {t t' : SSTable}

/-- What `Get` does behind the Bloom filter depends on the index and on the blocks it names. -/
theorem getPast_congr (hindex : t'.index = t.index)
    (hread : ∀ e ∈ t.index,
      t'.readBlock e.blockOffset e.blockSize = t.readBlock e.blockOffset e.blockSize) (k : Bytes) :
    t'.getPast k = t.getPast k := by
  unfold getPast
  rw [hindex]
  by_cases hne : t.index = []
  · rw [if_pos hne, if_pos hne]
  · rw [if_neg hne, if_neg hne]
    simp only [hread _ (getD_findBlock_mem hne (makeLookupKey k))]

/-- It returns Corruption when one of these blocks does not match its CRC. -/
theorem getPast_of_read (hindex : t'.index = t.index)
    (hread : ∀ e ∈ t.index,
      t'.readBlock e.blockOffset e.blockSize = t.readBlock e.blockOffset e.blockSize ∨
        ∃ block, t'.readBlock e.blockOffset e.blockSize = .ok block ∧ 8 ≤ block.length ∧
          crcMatches block = false) (k : Bytes) :
    t'.getPast k = t.getPast k ∨
      t'.getPast k = .ok (.corruption "BinarySearchInBlock: CRC mismatch", none) := by
  unfold getPast
  rw [hindex]
  by_cases hne : t.index = []
  · left
    rw [if_pos hne, if_pos hne]
  · rw [if_neg hne, if_neg hne]
    rcases hread _ (getD_findBlock_mem hne (makeLookupKey k)) with hsame | ⟨block, hblock, h8, hcrc⟩
    · left
      simp only [hsame]
    · right
      simp only [hblock, binarySearchInBlock, not_lt.2 h8, if_false, hcrc]
      rfl

end SSTable

/-- The index entries of the blocks. -/
theorem mem_index {blocks : List DataBlock} {e : IndexEntry}
    (he : e ∈ (infosFrom 0 blocks).map BlockInfo.entry) : ∃ (i : ℕ) (c : DataBlock),
      blocks[i]? = some c ∧
        e = ⟨c.lastKey, (blocksBytes (blocks.take i)).length, c.bytes.length⟩ := by
  obtain ⟨i, hi⟩ := List.mem_iff_getElem?.1 he
  rw [List.getElem?_map, infosFrom_getElem?] at hi
  cases hc : blocks[i]? with
  | none => rw [hc] at hi; cases hi
  | some c =>
    rw [hc, Option.map_some, Option.map_some, Nat.zero_add] at hi
    exact ⟨i, c, hc, (Option.some.inj hi).symm⟩

/-- The blocks are read from a file that starts with them. -/
theorem readBlock_of_blocks {t : SSTable} {blocks : List DataBlock} {rest : Bytes}
    (hdata : t.data = blocksBytes blocks ++ rest) (hlt : (blocksBytes blocks).length < 2 ^ 63) {i : ℕ}
    {c : DataBlock} (hc : blocks[i]? = some c) :
    t.readBlock (blocksBytes (blocks.take i)).length c.bytes.length = .ok c.bytes := by
  have hpiece : (blocks.map DataBlock.bytes)[i]? = some c.bytes := by
    rw [List.getElem?_map, hc, Option.map_some]
  have hread := filePRead_flatten hpiece (by rwa [← List.flatMap_def]) rest
  rw [← List.map_take, ← List.flatMap_def, ← List.flatMap_def] at hread
  refine SSTable.readBlock_iff.2 ⟨?_, by rw [hdata, blocksBytes, blocksBytes, hread]⟩
  obtain ⟨pre, post, rfl⟩ := List.append_of_mem (List.mem_of_getElem? hc)
  simp only [blocksBytes, List.flatMap_append, List.flatMap_cons, List.length_append] at hlt
  omega

/-! ## Opening a damaged file -/

section damaged

variable {blocks : List DataBlock} {keys : List Bytes}

/-- The parts of a file that can be written are within 63 bits. -/
theorem parts_lt (hsize : (fileBytes blocks keys).length < 2 ^ 63) : (blocksBytes blocks).length +
    (indexBlock (infosFrom 0 blocks)).length + (bloomBlock keys).length < 2 ^ 63 := by
  rw [fileBytes] at hsize
  simp only [List.length_append] at hsize
  omega

/-- **A damaged index block** fails `Open`. -/
theorem openFile_of_index_damage (hsize : (fileBytes blocks keys).length < 2 ^ 63) {bad : Bytes}
    (h : DamagedAt (blocksBytes blocks).length (indexBlock (infosFrom 0 blocks)).length
      (fileBytes blocks keys) bad) (number : ℕ) : SSTable.openFile number bad =
        .error (.status (.corruption "SSTable::Open: index block CRC mismatch")) := by
  have hlt := parts_lt hsize
  obtain ⟨block, rfl, hburst, hcrc⟩ := DamagedAt.block (by exact h) rfl rfl
  have hlen := hburst.length_eq
  have hI8 := indexBlock_length (infosFrom 0 blocks)
  rw [show (indexBlock (infosFrom 0 blocks)).length = block.length from hlen] at hlt hI8 ⊢
  exact SSTable.openFile_of_mismatch hlt hI8 hcrc number

/-- **A damaged Bloom block** leaves the table without a filter. -/
theorem openFile_of_bloom_damage (hread : Readable blocks)
    (hsize : (fileBytes blocks keys).length < 2 ^ 63) {bad : Bytes}
    (h : DamagedAt ((blocksBytes blocks).length + (indexBlock (infosFrom 0 blocks)).length)
      (bloomBlock keys).length (fileBytes blocks keys) bad) (number : ℕ) :
    ∃ rest, bad = blocksBytes blocks ++ rest ∧ SSTable.openFile number bad = .ok
      { tableOf number blocks keys with
        data := bad, bloomFilter := BloomFilter.new 10, hasBloom := false } := by
  have hlt := parts_lt hsize
  set I := indexBlock (infosFrom 0 blocks) with hI
  have hfile : fileBytes blocks keys = (blocksBytes blocks ++ I) ++ (bloomBlock keys ++
      footer (blocksBytes blocks).length I.length ((blocksBytes blocks).length + I.length)
        (bloomBlock keys).length) := by
    rw [List.append_assoc]
    rfl
  rw [hfile] at h
  obtain ⟨block, rfl, hburst, hcrc⟩ := DamagedAt.block h (by rw [List.length_append]) rfl
  have hlen : (bloomBlock keys).length = block.length := hburst.length_eq
  have h4 : 4 < (bloomBlock keys).length := by
    have := BloomFilter.createFilter_length keys bloomBitsPerKey
    rw [bloomBlock, List.length_append, encodeFixed32_length]
    omega
  have hbad : ∀ L : Bytes, L.length = block.length → blocksBytes blocks ++ I ++
      (block ++ footer (blocksBytes blocks).length I.length ((blocksBytes blocks).length + I.length)
        L.length) = SSTable.partsBytes (blocksBytes blocks) I block := by
    intro L hL
    rw [hL, SSTable.partsBytes, List.append_assoc]
  have hbloom : SSTable.readBloom (SSTable.partsBytes (blocksBytes blocks) I block)
      ((blocksBytes blocks).length + I.length) block.length = none := by
    have hpread : filePRead (SSTable.partsBytes (blocksBytes blocks) I block) block.length
        ((blocksBytes blocks).length + I.length) = some block :=
      filePRead_append (show _ = (blocksBytes blocks ++ I) ++ (block ++ _) by
        rw [SSTable.partsBytes, List.append_assoc]) (by rw [List.length_append]) rfl (by omega)
    rw [SSTable.readBloom, hpread]
    simp only
    rw [if_neg (by omega), hcrc]
    rfl
  rw [hbad _ hlen]
  refine ⟨_, rfl, ?_⟩
  rw [SSTable.openFile_of_index hread hI (by omega) (fun hnil => by rw [hnil]; rfl)
    (SSTable.exists_first hread number keys I block) hbloom number]
  rfl

/-- The data blocks with one of them replaced. -/
def replaced (blocks : List DataBlock) (j : ℕ) (block : Bytes) : List Bytes :=
  (blocks.map DataBlock.bytes).set j block

theorem replaced_length {j : ℕ} {b : DataBlock} {block : Bytes} (hb : blocks[j]? = some b)
    (hl : block.length = b.bytes.length) (i : ℕ) :
    ((replaced blocks j block).take i).flatten.length = (blocksBytes (blocks.take i)).length := by
  have hpiece : (blocks.map DataBlock.bytes)[j]? = some b.bytes := by
    rw [List.getElem?_map, hb, Option.map_some]
  rw [replaced, take_set_flatten_length hpiece hl, blocksBytes, List.flatMap_def, List.map_take]

/-- What the index finds in the place of a block. -/
theorem filePRead_replaced {j : ℕ} {b : DataBlock} {block : Bytes} (hb : blocks[j]? = some b)
    (hl : block.length = b.bytes.length) (hlt : (blocksBytes blocks).length < 2 ^ 63) {i : ℕ}
    {c : DataBlock} (hc : blocks[i]? = some c) (rest : Bytes) :
    filePRead ((replaced blocks j block).flatten ++ rest) c.bytes.length
      (blocksBytes (blocks.take i)).length = some (if i = j then block else c.bytes) := by
  have hwhole := replaced_length hb hl blocks.length
  rw [List.take_of_length_le (by simp [replaced]), List.take_of_length_le le_rfl] at hwhole
  have hget : (replaced blocks j block)[i]? = some (if i = j then block else c.bytes) := by
    rw [replaced, List.getElem?_set, List.getElem?_map, hc]
    have hi := (List.getElem?_eq_some_iff.1 hc).1
    by_cases hij : i = j
    · subst hij
      simp [hi]
    · rw [if_neg (Ne.symm hij), if_neg hij]
      rfl
  have hlen : (if i = j then block else c.bytes).length = c.bytes.length := by
    split
    · rename_i hij
      rw [hij, hb] at hc
      rw [hl, Option.some.inj hc]
    · rfl
  have hread := filePRead_flatten hget (by rw [hwhole]; exact hlt) rest
  rwa [hlen, replaced_length hb hl] at hread

/-- **A damaged data block** leaves the table as it was, but for its own bytes and perhaps the
first key, as long as the lengths in front of the file can be decoded. -/
theorem openFile_of_data_damage (hread : Readable blocks) (hok : ∀ b ∈ blocks, b.OK)
    (hsize : (fileBytes blocks keys).length < 2 ^ 63) {j : ℕ} {b : DataBlock} (hb : blocks[j]? = some b)
    {bad : Bytes} (h : DamagedAt (blocksBytes (blocks.take j)).length b.bytes.length
      (fileBytes blocks keys) bad) (number : ℕ) :
    ∃ block rest, bad = (replaced blocks j block).flatten ++ rest ∧
      block.length = b.bytes.length ∧ crcMatches block = false ∧
      (FrontLengths bad → ∃ firstKey, SSTable.openFile number bad =
        .ok { tableOf number blocks keys with data := bad, firstKey := firstKey }) ∧
      (¬FrontLengths bad → SSTable.openFile number bad = .error .outOfBounds) := by
  obtain ⟨hj, hget⟩ := List.getElem?_eq_some_iff.1 hb
  have hlt := parts_lt hsize
  set I := indexBlock (infosFrom 0 blocks) with hI
  set L := bloomBlock keys with hL
  set F := footer (blocksBytes blocks).length I.length ((blocksBytes blocks).length + I.length) L.length
    with hF
  have hsplit : fileBytes blocks keys = blocksBytes (blocks.take j) ++
      (b.bytes ++ (blocksBytes (blocks.drop (j + 1)) ++ (I ++ (L ++ F)))) := by
    have hblocks : blocksBytes blocks =
        blocksBytes (blocks.take j) ++ (b.bytes ++ blocksBytes (blocks.drop (j + 1))) := by
      conv_lhs => rw [← List.take_append_drop j blocks, List.drop_eq_getElem_cons hj, hget]
      simp only [blocksBytes, List.flatMap_append, List.flatMap_cons]
    rw [fileBytes]
    simp only [hblocks, List.append_assoc, I, L, F]
  rw [hsplit] at h
  obtain ⟨block, hbad, hburst, hcrc⟩ := DamagedAt.block h rfl rfl
  have hl : block.length = b.bytes.length := hburst.length_eq.symm
  have hpieces : blocksBytes (blocks.take j) ++ (block ++ blocksBytes (blocks.drop (j + 1))) =
      (replaced blocks j block).flatten := by
    rw [replaced, List.set_eq_take_append_cons_drop, if_pos (by simpa using hj), List.flatten_append,
      List.flatten_cons, ← List.map_take, ← List.map_drop, ← List.flatMap_def, ← List.flatMap_def]
    rfl
  have hlength : (replaced blocks j block).flatten.length = (blocksBytes blocks).length := by
    have hwhole := replaced_length hb hl blocks.length
    rwa [List.take_of_length_le (by simp [replaced]), List.take_of_length_le le_rfl] at hwhole
  have hparts : bad = SSTable.partsBytes (replaced blocks j block).flatten I L := by
    rw [hbad, SSTable.partsBytes, hlength, ← hpieces]
    simp only [List.append_assoc, hF]
  -- the first key may come from the damaged block
  obtain ⟨c, cs, rfl⟩ := List.exists_cons_of_ne_nil (List.ne_nil_of_mem (List.mem_of_getElem? hb))
  obtain ⟨p, tail, hp, h10, hfront⟩ : ∃ p tail, filePRead bad c.bytes.length 0 = some p ∧ 10 ≤ p.length ∧
      bad = p ++ tail := by
    have hp : filePRead bad c.bytes.length 0 = some (if 0 = j then block else c.bytes) := by
      rw [hparts]
      exact filePRead_replaced hb hl hread.bytes_lt (i := 0) rfl _
    obtain ⟨htake, hlen⟩ := filePRead_eq_some hp
    have hten : 10 ≤ c.bytes.length :=
      (hok c List.mem_cons_self).ten_le (hread.bounded c List.mem_cons_self)
    refine ⟨_, bad.drop c.bytes.length, hp, by rwa [hlen], ?_⟩
    rw [htake, List.drop_zero, List.take_append_drop]
  have hfirst : ∀ {first : Checked Bytes}, SSTable.readFirstKey p = first → ∀ d ∈ (c :: cs).head?, ∃ block,
      filePRead bad d.bytes.length 0 = some block ∧ SSTable.readFirstKey block = first := by
    intro first hkey d hd
    obtain rfl := Option.some.inj hd
    exact ⟨p, hp, hkey⟩
  have hbloom : SSTable.readBloom bad ((replaced (c :: cs) j block).flatten.length + I.length) L.length =
      some ⟨10, numProbes 10, BloomFilter.filterBits keys 10⟩ :=
    SSTable.readBloom_bloomBlock (show _ = ((replaced (c :: cs) j block).flatten ++ I) ++ (L ++ _) by
      rw [hparts, SSTable.partsBytes, List.append_assoc]) (by rw [List.length_append]) rfl (by omega)
  have hopen : ∀ {first : Checked Bytes}, SSTable.readFirstKey p = first → SSTable.openFile number bad =
      first.map fun firstKey => { tableOf number (c :: cs) keys with data := bad, firstKey := firstKey } := by
    intro first hkey
    have hfirst := hfirst hkey
    rw [hparts] at hfirst hbloom ⊢
    rw [SSTable.openFile_of_index hread hI (by omega) (fun hnil => absurd hnil (List.cons_ne_nil _ _)) hfirst
      hbloom number]
    rfl
  refine ⟨block, _, hparts, hl, hcrc, fun hlengths => ?_, fun hnot => ?_⟩
  · rw [hfront, frontLengths_append h10] at hlengths
    obtain ⟨key, hkey⟩ := readFirstKey_of_front hlengths
    exact ⟨key, hopen hkey⟩
  · rw [hfront, frontLengths_append h10] at hnot
    exact hopen (readFirstKey_of_not_front h10 hnot)

end damaged

end MiniLSM
