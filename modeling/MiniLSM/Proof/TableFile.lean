import MiniLSM.Spec.SSTable
import MiniLSM.Proof.Builder
import MiniLSM.Proof.Bloom
import MiniLSM.Proof.Wal

/-!
# Opening what the builder wrote

* `Fits`: the sizes for which the 32-bit lengths and the file offsets do not overflow.
* `parseEntry_encodeEntry`: the entry parser undoes the entry encoder.
* `openFile_build`: `SSTable::Open` succeeds on a built file and finds its index, its first
  and last key and its Bloom filter.
* `readBlock_fileBytes`: the blocks of the index are read back as they were written.
-/

namespace MiniLSM

/-! ## Sizes -/

/-- The pairs whose table stays within the integers of the format. -/
structure Fits (pairs : List (Bytes × Bytes)) : Prop where
  entry : ∀ p ∈ pairs, p.1.length + 8 + p.2.length < 2 ^ 31
  count : pairs.length < 2 ^ 28

theorem mem_entriesFrom {seq : SequenceNumber} {pairs : List (Bytes × Bytes)} {e : Bytes × Bytes}
    (h : e ∈ entriesFrom seq pairs) :
    ∃ p ∈ pairs, ∃ s, e = (makeInternalKey p.1 s (typeOf p.2), p.2) := by
  induction pairs generalizing seq with
  | nil => simp [entriesFrom] at h
  | cons p ps ih =>
    rcases List.mem_cons.1 h with rfl | h
    · exact ⟨p, List.mem_cons_self, _, rfl⟩
    · obtain ⟨q, hq, s, rfl⟩ := ih h
      exact ⟨q, List.mem_cons_of_mem _ hq, s, rfl⟩

/-- A block whose lengths are within the integers of the format. -/
structure DataBlock.Bounded (b : DataBlock) : Prop where
  ne : b.entries ≠ []
  key : ∀ e ∈ b.entries, e.1.length < 2 ^ 32
  value : ∀ e ∈ b.entries, e.2.length < 2 ^ 32
  restarts : b.restarts.length < 2 ^ 29

theorem encodeEntry_length_le (key value : Bytes) :
    (encodeEntry key value).length ≤ 15 + key.length + value.length := by
  have h0 := (varint32Length_bounds 0).2
  have hk := (varint32Length_bounds (toUInt32 key.length)).2
  have hv := (varint32Length_bounds (toUInt32 value.length)).2
  rw [encodeEntry_length]; omega

/-- A flushed block has few restarts: it holds one entry, or keeps within `block_size_`. -/
theorem DataBlock.OK.restarts_lt {b : DataBlock} (h : b.OK) : b.restarts.length < 2 ^ 10 := by
  have hcount := length_le_entriesBytes b.entries
  have hsize : SSTableBuilder.blockSize = 4096 := rfl
  rw [h.restarts]
  rcases h.small with h1 | h4 <;> omega

theorem DataBlock.OK.bounded {b : DataBlock} (h : b.OK)
    (hsize : ∀ e ∈ b.entries, e.1.length < 2 ^ 32 ∧ e.2.length < 2 ^ 32) : b.Bounded := by
  have hrestarts := h.restarts_lt
  exact ⟨h.ne, fun e he => (hsize e he).1, fun e he => (hsize e he).2, by omega⟩

/-- The size of a block whose entries stay below `2 ^ 31` bytes. -/
theorem DataBlock.OK.bytes_lt {b : DataBlock} (h : b.OK)
    (hsize : ∀ e ∈ b.entries, e.1.length + e.2.length < 2 ^ 31) : b.bytes.length < 2 ^ 32 := by
  have hlen := b.bytes_length
  have hrestarts := h.restarts_lt
  have hbytes : (entriesBytes b.entries).length < 2 ^ 31 + 2 ^ 13 := by
    rcases h.small with h1 | h4
    · obtain ⟨e, he⟩ : ∃ e, b.entries = [e] := by
        rw [← List.length_eq_one_iff]
        have := List.length_pos_iff.2 h.ne
        omega
      have hone := encodeEntry_length_le e.1 e.2
      have hes := hsize e (by rw [he]; exact List.mem_singleton_self e)
      rw [he]
      simp only [entriesBytes, List.flatMap_cons, List.flatMap_nil, List.append_nil]
      omega
    · have : SSTableBuilder.blockSize = 4096 := rfl
      omega
  omega

/-- The entries of the blocks of a table are its pairs under internal keys. -/
theorem exists_pair {blocks : List DataBlock} {pairs : List (Bytes × Bytes)}
    (hes : blocks.flatMap DataBlock.entries = tableEntries pairs) {b : DataBlock} (hb : b ∈ blocks)
    {e : Bytes × Bytes} (he : e ∈ b.entries) :
    ∃ p ∈ pairs, ∃ s, e = (makeInternalKey p.1 s (typeOf p.2), p.2) := by
  apply mem_entriesFrom
  rw [← tableEntries, ← hes]
  exact List.mem_flatMap.2 ⟨b, hb, he⟩

theorem length_le_flatMap_entries {blocks : List DataBlock} (h : ∀ b ∈ blocks, b.entries ≠ []) :
    blocks.length ≤ (blocks.flatMap DataBlock.entries).length := by
  induction blocks with
  | nil => simp
  | cons b bs ih =>
    have hb := List.length_pos_iff.2 (h b List.mem_cons_self)
    have := ih fun c hc => h c (List.mem_cons_of_mem _ hc)
    simp only [List.length_cons, List.flatMap_cons, List.length_append]
    omega

theorem blocksBytes_length_le {blocks : List DataBlock} {n : ℕ}
    (h : ∀ b ∈ blocks, b.bytes.length ≤ n) : (blocksBytes blocks).length ≤ blocks.length * n := by
  induction blocks with
  | nil => simp [blocksBytes]
  | cons b bs ih =>
    have hb := h b List.mem_cons_self
    have hbs := ih fun c hc => h c (List.mem_cons_of_mem _ hc)
    rw [List.length_cons, Nat.succ_mul, blocksBytes, List.flatMap_cons, List.length_append]
    rw [blocksBytes] at hbs
    omega

/-! ## Reading pieces of a buffer -/

@[simp] theorem varint32Decode_encode {n : ℕ} (h : n < 2 ^ 32) (rest : Bytes) :
    varint32Decode (varint32Encode (toUInt32 n) ++ rest) =
      some (n, (varint32Encode (toUInt32 n)).length) := by
  rw [varint32Decode_varint32Encode, toUInt32_toNat h]

theorem varint64Decode_encode {n : ℕ} (h : n < 2 ^ 64) (rest : Bytes) :
    varint64Decode (varint64Encode (UInt64.ofNat n) ++ rest) =
      some (n, (varint64Encode (UInt64.ofNat n)).length) := by
  have hn : (UInt64.ofNat n).toNat = n := by rw [UInt64.toNat_ofNat']; exact Nat.mod_eq_of_lt h
  rw [varint64Decode_varint64Encode, hn]

theorem varint32At_append {buf pre rest : Bytes} {n p : ℕ}
    (hbuf : buf = pre ++ (varint32Encode (toUInt32 n) ++ rest)) (hp : p = pre.length)
    (h : n < 2 ^ 32) : varint32At buf p = .ok (n, (varint32Encode (toUInt32 n)).length) := by
  subst hbuf hp
  rw [varint32At, List.drop_left, varint32Decode_encode h, Checked.ofOption_some]

theorem take_drop_append {buf pre mid rest : Bytes} {p n : ℕ} (hbuf : buf = pre ++ (mid ++ rest))
    (hp : p = pre.length) (hn : n = mid.length) : (buf.drop p).take n = mid := by
  subst hbuf hp hn
  rw [List.drop_left, List.take_left]

/-- `FilePRead` of a part of the file. -/
theorem filePRead_append {data pre mid rest : Bytes} {n offset : ℕ}
    (hdata : data = pre ++ (mid ++ rest)) (ho : offset = pre.length) (hn : n = mid.length)
    (h : offset < 2 ^ 63) : filePRead data n offset = some mid := by
  rw [filePRead, fileRead, if_neg (by omega), take_drop_append hdata ho hn]
  simp only [hn, if_true]

/-- What `FilePRead` gets. -/
theorem filePRead_eq_some {data buf : Bytes} {n offset : ℕ} (h : filePRead data n offset = some buf) :
    buf = (data.drop offset).take n ∧ buf.length = n := by
  rw [filePRead, fileRead] at h
  split at h
  · rename_i heq
    split at heq
    · cases heq
    · cases heq
      split at h
      · rename_i hlen
        cases h
        exact ⟨rfl, hlen⟩
      · cases h
  · cases h

/-- The fields of an entry at `p`, behind varints of `s`, `a` and `b` bytes. -/
structure EntryAt (buf : Bytes) (p : ℕ) (key value : Bytes) (s a b : ℕ) : Prop where
  shared : varint32At buf p = .ok (0, s)
  keyLen : varint32At buf (p + s) = .ok (key.length, a)
  keyAt : (buf.drop (p + s + a)).take key.length = key
  valueLen : varint32At buf (p + s + a + key.length) = .ok (value.length, b)
  valueAt : (buf.drop (p + s + a + key.length + b)).take value.length = value
  size : (encodeEntry key value).length = s + a + key.length + b + value.length
  inside : p + (encodeEntry key value).length ≤ buf.length
  keyLen_pos : 0 < a
  valueLen_pos : 0 < b

/-- **An encoded entry can be read field by field.** -/
theorem entryAt {buf pre rest key value : Bytes} {p : ℕ}
    (hbuf : buf = pre ++ (encodeEntry key value ++ rest)) (hp : p = pre.length)
    (hk : key.length < 2 ^ 32) (hv : value.length < 2 ^ 32) :
    ∃ s a b, EntryAt buf p key value s a b := by
  set s := varint32Encode 0 with hs
  set a := varint32Encode (toUInt32 key.length) with ha
  set b := varint32Encode (toUInt32 value.length) with hb
  have h0 : buf = pre ++ (varint32Encode (toUInt32 0) ++ (a ++ (key ++ (b ++ (value ++ rest))))) := by
    rw [hbuf, encodeEntry, ← hs, ← ha, ← hb]; simp only [List.append_assoc]; rfl
  have h1 : buf = (pre ++ s) ++ (a ++ (key ++ (b ++ (value ++ rest)))) := by
    rw [h0, List.append_assoc]; rfl
  have h2 : buf = (pre ++ s ++ a) ++ (key ++ (b ++ (value ++ rest))) := by rw [h1]; simp
  have h3 : buf = (pre ++ s ++ a ++ key) ++ (b ++ (value ++ rest)) := by rw [h1]; simp
  have h4 : buf = (pre ++ s ++ a ++ key ++ b) ++ (value ++ rest) := by rw [h1]; simp
  refine ⟨s.length, a.length, b.length, varint32At_append h0 hp (by decide),
    varint32At_append h1 (by simp [hp]) hk, take_drop_append h2 (by simp [hp]; omega) rfl,
    varint32At_append h3 (by simp [hp]; omega) hv, take_drop_append h4 (by simp [hp]; omega) rfl,
    ?_, ?_, Leb128.encode_length_pos 4 _, Leb128.encode_length_pos 4 _⟩
  · simp only [encodeEntry, ← hs, ← ha, ← hb, List.length_append]
  · rw [hbuf, hp]; simp

/-- **The entry parser undoes the entry encoder.** -/
theorem parseEntry_encodeEntry {buf pre rest : Bytes} {key value : Bytes} {limit p : ℕ}
    (hbuf : buf = pre ++ (encodeEntry key value ++ rest)) (hp : p = pre.length)
    (hlimit : p + (encodeEntry key value).length ≤ limit)
    (hk : key.length < 2 ^ 32) (hv : value.length < 2 ^ 32) :
    parseEntry buf limit p = .ok (some (key, value, p + (encodeEntry key value).length)) := by
  obtain ⟨s, a, b, h⟩ := entryAt hbuf hp hk hv
  have hsize := h.size
  have ha := h.keyLen_pos
  have hb := h.valueLen_pos
  unfold parseEntry
  simp only [bind, Except.bind, pure, Except.pure]
  rw [h.shared]
  simp only
  rw [if_neg (by omega), h.keyLen]
  simp only
  rw [if_neg (by omega), if_neg (by omega), h.valueLen]
  simp only
  rw [if_neg (by omega), h.keyAt, h.valueAt]
  simp only [Except.ok.injEq, Option.some.injEq, Prod.mk.injEq, true_and]
  omega

/-! ## Blocks under a CRC -/

theorem crcMatches_append (contents : Bytes) :
    crcMatches (contents ++ encodeFixed32 (crc32 contents)) = true := by
  have hlen : (contents ++ encodeFixed32 (crc32 contents)).length - 4 = contents.length := by
    simp
  rw [crcMatches, hlen, List.drop_left, List.take_left]
  simpa using decodeFixed32_encode (crc32 contents) []

/-- `entriesEnd` finds the end of the entries. -/
theorem entriesEnd_blockContents {block : Bytes} {restarts : List UInt32}
    (h : restarts.length < 2 ^ 30) (crc : UInt32) :
    entriesEnd (blockContents block restarts ++ encodeFixed32 crc) = block.length := by
  have hlen : (blockContents block restarts ++ encodeFixed32 crc).length =
      block.length + restarts.length * 4 + 4 + 4 := by
    rw [List.length_append, blockContents_length, encodeFixed32_length]
  have hdrop : (blockContents block restarts ++ encodeFixed32 crc).drop
      (block.length + restarts.length * 4) =
        encodeFixed32 (toUInt32 restarts.length) ++ encodeFixed32 crc := by
    rw [blockContents, List.append_assoc]
    refine List.drop_left' ?_
    rw [List.length_append, flatMap_encodeFixed32_length]
  have hcut : block.length + restarts.length * 4 + 4 + 4 - 8 =
      block.length + restarts.length * 4 := by omega
  rw [entriesEnd, hlen, hcut, hdrop, decodeFixed32_encode, Option.getD_some,
    toUInt32_toNat (by omega)]
  omega

/-! ## The index block -/

/-- What the reader makes of a block the builder noted. -/
def BlockInfo.entry (info : BlockInfo) : IndexEntry := ⟨info.lastKey, info.offset, info.size⟩

/-- The sizes that an index entry can carry. -/
structure BlockInfo.Bounded (info : BlockInfo) : Prop where
  key : info.lastKey.length < 2 ^ 32
  offset : info.offset < 2 ^ 63
  size : info.size < 2 ^ 63

/-- The encoded index entries. -/
def indexBytes (infos : List BlockInfo) : Bytes :=
  infos.flatMap fun info => encodeEntry info.lastKey (SSTableBuilder.blockHandle info)

theorem blockHandle_length_le (info : BlockInfo) :
    (SSTableBuilder.blockHandle info).length ≤ 20 := by
  have h1 := Leb128.encode_length_le 10 (UInt64.ofNat info.offset).toNat
  have h2 := Leb128.encode_length_le 10 (UInt64.ofNat info.size).toNat
  simp only [SSTableBuilder.blockHandle, varint64Encode, List.length_append]
  omega

namespace SSTable

/-- **The index loop reads the entries that the builder wrote.** -/
theorem parseIndex_indexBytes {infos : List BlockInfo} (hb : ∀ i ∈ infos, i.Bounded) :
    ∀ {n p limit : ℕ} {buf pre rest : Bytes}, buf = pre ++ (indexBytes infos ++ rest) →
      p = pre.length → limit = p + (indexBytes infos).length → infos.length ≤ n →
      parseIndex buf limit n p = .ok (infos.map BlockInfo.entry) := by
  induction infos with
  | nil =>
    intro n p limit buf pre rest _ _ hlimit _
    cases n with
    | zero => rfl
    | succ n => rw [parseIndex, if_pos (by simp [hlimit, indexBytes])]; rfl
  | cons info infos ih =>
    intro n p limit buf pre rest hbuf hp hlimit hn
    obtain ⟨n, rfl⟩ : ∃ m, n = m + 1 := ⟨n - 1, by simp at hn; omega⟩
    set e := encodeEntry info.lastKey (SSTableBuilder.blockHandle info) with he
    have hinfo := hb info List.mem_cons_self
    have hhandle := blockHandle_length_le info
    have hepos : 0 < e.length := by
      have := (varint32Length_bounds 0).1
      rw [he, encodeEntry_length]; omega
    have hcons : indexBytes (info :: infos) = e ++ indexBytes infos := by simp [indexBytes, he]
    have hlen : (indexBytes (info :: infos)).length = e.length + (indexBytes infos).length := by
      rw [hcons, List.length_append]
    have hbuf' : buf = pre ++ (e ++ (indexBytes infos ++ rest)) := by
      rw [hbuf, hcons, List.append_assoc]
    have hparse : parseEntry buf limit p =
        .ok (some (info.lastKey, SSTableBuilder.blockHandle info, p + e.length)) :=
      parseEntry_encodeEntry hbuf' hp (by rw [← he]; omega) (by have := hinfo.key; omega) (by omega)
    -- the zero behind the handle is that of `std::string`
    have hoff : varint64Decode (SSTableBuilder.blockHandle info ++ [0]) =
        some (info.offset, (varint64Encode (UInt64.ofNat info.offset)).length) := by
      rw [SSTableBuilder.blockHandle, List.append_assoc]
      exact varint64Decode_encode (by have := hinfo.offset; omega) _
    have hsize : varint64Decode ((SSTableBuilder.blockHandle info ++ [0]).drop
        (varint64Encode (UInt64.ofNat info.offset)).length) =
          some (info.size, (varint64Encode (UInt64.ofNat info.size)).length) := by
      rw [SSTableBuilder.blockHandle, List.append_assoc, List.drop_left]
      exact varint64Decode_encode (by have := hinfo.size; omega) _
    have hrest : parseIndex buf limit n (p + e.length) = .ok (infos.map BlockInfo.entry) :=
      ih (fun i hi => hb i (List.mem_cons_of_mem _ hi))
        (show buf = (pre ++ e) ++ (indexBytes infos ++ rest) by rw [hbuf', List.append_assoc])
        (by simp [hp]) (by omega) (by simpa using hn)
    rw [parseIndex, if_neg (by omega)]
    simp only [bind, Except.bind, hparse, hoff, hsize, Checked.ofOption_some, hrest, pure,
      Except.pure]
    rfl

end SSTable

/-- The blocks that the index describes lie one behind the other. -/
theorem mem_infosFrom {off : ℕ} {blocks : List DataBlock} {info : BlockInfo}
    (h : info ∈ infosFrom off blocks) :
    ∃ pre b post, blocks = pre ++ b :: post ∧
      info = ⟨b.lastKey, off + (blocksBytes pre).length, b.bytes.length⟩ := by
  induction blocks generalizing off with
  | nil => simp [infosFrom] at h
  | cons b bs ih =>
    rcases List.mem_cons.1 h with rfl | h
    · exact ⟨[], b, bs, rfl, by simp [blocksBytes]⟩
    · obtain ⟨pre, c, post, rfl, rfl⟩ := ih h
      exact ⟨b :: pre, c, post, rfl, by simp [blocksBytes, Nat.add_assoc]⟩

@[simp] theorem infosFrom_length (off : ℕ) (blocks : List DataBlock) :
    (infosFrom off blocks).length = blocks.length := by
  induction blocks generalizing off with
  | nil => rfl
  | cons b bs ih => simp [infosFrom, ih]

/-- The index entry of a block. -/
theorem infosFrom_getElem? (off : ℕ) (blocks : List DataBlock) (i : ℕ) :
    (infosFrom off blocks)[i]? = blocks[i]?.map fun b =>
      ⟨b.lastKey, off + (blocksBytes (blocks.take i)).length, b.bytes.length⟩ := by
  induction blocks generalizing off i with
  | nil => rfl
  | cons b bs ih =>
    cases i with
    | zero => simp [infosFrom, blocksBytes]
    | succ i => simp [infosFrom, ih, blocksBytes, Nat.add_assoc]

/-- A list of blocks that the reader can find its way in. -/
structure Readable (blocks : List DataBlock) : Prop where
  bounded : ∀ b ∈ blocks, b.Bounded
  bytes_lt : (blocksBytes blocks).length < 2 ^ 63

theorem Readable.block_lt {blocks : List DataBlock} (h : Readable blocks) {b : DataBlock} (hb : b ∈ blocks) :
    b.bytes.length < 2 ^ 63 := by
  have hle : b.bytes.length ≤ (blocksBytes blocks).length := by
    obtain ⟨pre, post, rfl⟩ := List.append_of_mem hb
    simp only [blocksBytes, List.flatMap_append, List.flatMap_cons, List.length_append]
    omega
  exact hle.trans_lt h.bytes_lt

/-- The last key is that of an entry. -/
theorem DataBlock.exists_lastKey {b : DataBlock} (h : b.entries ≠ []) : ∃ e ∈ b.entries, b.lastKey = e.1 := by
  refine ⟨b.entries.getLast h, List.getLast_mem h, ?_⟩
  rw [lastKey, List.getLast?_eq_some_getLast h, Option.map_some, Option.getD_some]

theorem DataBlock.Bounded.lastKey_lt {b : DataBlock} (h : b.Bounded) : b.lastKey.length < 2 ^ 32 := by
  obtain ⟨e, he, heq⟩ := exists_lastKey h.ne
  rw [heq]
  exact h.key e he

theorem Readable.infos_bounded {blocks : List DataBlock} (h : Readable blocks) :
    ∀ i ∈ infosFrom 0 blocks, i.Bounded := by
  intro i hi
  obtain ⟨pre, b, post, rfl, rfl⟩ := mem_infosFrom hi
  have hb := h.bounded b (by simp)
  have hlt := h.bytes_lt
  simp only [blocksBytes, List.flatMap_append, List.flatMap_cons, List.length_append] at hlt
  have hsize : b.bytes.length < 2 ^ 63 := by omega
  exact ⟨hb.lastKey_lt, by simp only [blocksBytes]; omega, hsize⟩

/-- The size of an index over keys of at most `s` bytes. -/
theorem indexBytes_length_le {s : ℕ} {infos : List BlockInfo} (h : ∀ i ∈ infos, i.lastKey.length ≤ s) :
    (indexBytes infos).length ≤ infos.length * (s + 35) := by
  induction infos with
  | nil => simp [indexBytes]
  | cons i is ih =>
    have hk := h i List.mem_cons_self
    have hh := blockHandle_length_le i
    have he := encodeEntry_length_le i.lastKey (SSTableBuilder.blockHandle i)
    have hrest := ih fun j hj => h j (List.mem_cons_of_mem _ hj)
    rw [List.length_cons, Nat.succ_mul, indexBytes, List.flatMap_cons, List.length_append]
    rw [indexBytes] at hrest
    omega

theorem length_le_indexBytes (infos : List BlockInfo) :
    infos.length * 3 ≤ (indexBytes infos).length := by
  induction infos with
  | nil => simp
  | cons i is ih =>
    have h0 := (varint32Length_bounds 0).1
    have hk := (varint32Length_bounds (toUInt32 i.lastKey.length)).1
    have hv := (varint32Length_bounds (toUInt32 (SSTableBuilder.blockHandle i).length)).1
    simp only [indexBytes, List.flatMap_cons, List.length_append, List.length_cons,
      encodeEntry_length] at ih ⊢
    omega

/-- The index block as it stands in the file. -/
theorem indexBlock_eq (infos : List BlockInfo) :
    ∃ restarts : List UInt32, restarts.length < 2 ^ 30 ∧ SSTableBuilder.indexBlock infos =
      blockContents (indexBytes infos) restarts ++
        encodeFixed32 (crc32 (blockContents (indexBytes infos) restarts)) :=
  ⟨_, by split <;> simp, rfl⟩

theorem indexBlock_length (infos : List BlockInfo) :
    8 ≤ (SSTableBuilder.indexBlock infos).length := by
  obtain ⟨rs, -, heq⟩ := indexBlock_eq infos
  rw [heq, List.length_append, blockContents_length, encodeFixed32_length]
  omega

theorem indexBlock_length_le (infos : List BlockInfo) :
    (SSTableBuilder.indexBlock infos).length ≤ (indexBytes infos).length + 12 := by
  have hrestarts : (if infos = [] then ([] : List UInt32) else [0]).length ≤ 1 := by split <;> simp
  unfold SSTableBuilder.indexBlock
  rw [List.length_append, blockContents_length, encodeFixed32_length]
  rw [indexBytes]
  omega

/-- The size of a file with few blocks, none of them large, and few keys. -/
theorem Readable.file_lt {blocks : List DataBlock} (h : Readable blocks)
    (hbytes : ∀ b ∈ blocks, b.bytes.length ≤ 2 ^ 32) (hcount : blocks.length < 2 ^ 28) {keys : List Bytes}
    (hkeys : keys.length < 2 ^ 28) : (fileBytes blocks keys).length < 2 ^ 63 := by
  obtain ⟨rs, hrs, heq⟩ := indexBlock_eq (infosFrom 0 blocks)
  have hle := indexBytes_length_le fun i hi => (h.infos_bounded i hi).key.le
  have hblocks := blocksBytes_length_le hbytes
  have hcf := BloomFilter.createFilter_length keys SSTableBuilder.bloomBitsPerKey
  rw [infosFrom_length] at hle
  simp only [fileBytes, List.length_append, SSTableBuilder.bloomBlock, encodeFixed32_length,
    heq, blockContents_length, hcf, SSTableBuilder.footer, encodeFixed64_length]
  rw [show SSTableBuilder.bloomBitsPerKey = 10 from rfl]
  omega

/-! ## Opening -/

/-- The table that `Open` makes of a file with these blocks and Bloom keys. -/
def tableOf (number : ℕ) (blocks : List DataBlock) (keys : List Bytes) : SSTable where
  number := number
  data := fileBytes blocks keys
  index := (infosFrom 0 blocks).map BlockInfo.entry
  bloomFilter := ⟨10, numProbes 10, BloomFilter.filterBits keys 10⟩
  hasBloom := true
  firstKey := ((blocks.flatMap DataBlock.entries).head?.map Prod.fst).getD []
  lastKey := ((blocks.flatMap DataBlock.entries).getLast?.map Prod.fst).getD []

/-- The last index entry carries the last key. -/
theorem getLast?_index {blocks : List DataBlock} (hne : ∀ b ∈ blocks, b.entries ≠ []) (off : ℕ) :
    (infosFrom off blocks).getLast?.map BlockInfo.lastKey =
      (blocks.flatMap DataBlock.entries).getLast?.map Prod.fst := by
  induction blocks using List.reverseRecOn with
  | nil => rfl
  | append_singleton bs b =>
    have hb := List.getLast?_eq_some_getLast (hne b (by simp))
    rw [infosFrom_append, List.flatMap_append]
    simp only [infosFrom, List.getLast?_append, List.getLast?_singleton, Option.some_or,
      Option.map_some, List.flatMap_cons, List.flatMap_nil, List.append_nil, hb, DataBlock.lastKey,
      Option.getD_some]

/-- The first block starts with the first entry. -/
theorem DataBlock.Bounded.first {b : DataBlock} (h : b.Bounded) :
    ∃ e es rest, b.entries = e :: es ∧ b.bytes = encodeEntry e.1 e.2 ++ rest ∧
      e.1.length < 2 ^ 32 ∧ e.2.length < 2 ^ 32 ∧ 4 < b.bytes.length := by
  obtain ⟨e, es, hes⟩ := List.exists_cons_of_ne_nil h.ne
  have hk := h.key e (by rw [hes]; exact List.mem_cons_self)
  have hv := h.value e (by rw [hes]; exact List.mem_cons_self)
  have hlen := b.bytes_length
  refine ⟨e, es, ?_, hes, ?_, by omega, by omega, by omega⟩
  · exact entriesBytes es ++ (b.restarts.flatMap encodeFixed32 ++
      encodeFixed32 (toUInt32 b.restarts.length)) ++ encodeFixed32 (crc32 b.contents)
  · have hc : b.contents = encodeEntry e.1 e.2 ++ (entriesBytes es ++
        (b.restarts.flatMap encodeFixed32 ++ encodeFixed32 (toUInt32 b.restarts.length))) := by
      simp only [contents, blockContents, hes, entriesBytes, List.flatMap_cons, List.append_assoc]
    rw [DataBlock.bytes]
    conv_lhs => rw [hc]
    simp only [List.append_assoc, hc]

/-- The footer is the last 48 bytes. -/
theorem footer_drop (a b c d : ℕ) :
    let f := fun i => (decodeFixed64 ((SSTableBuilder.footer a b c d).drop i)).getD 0
    (SSTableBuilder.footer a b c d).length = 48 ∧ f 0 = UInt64.ofNat a ∧ f 8 = UInt64.ofNat b ∧
      f 16 = UInt64.ofNat c ∧ f 24 = UInt64.ofNat d ∧ f 32 = SSTableBuilder.magic := by
  have hd : ∀ (pre : Bytes) (v : UInt64) (post : Bytes), (decodeFixed64
      ((pre ++ (encodeFixed64 v ++ post)).drop pre.length)).getD 0 = v := by
    intro pre v post
    rw [List.drop_left, decodeFixed64_encode, Option.getD_some]
  refine ⟨rfl, ?_, ?_, ?_, ?_, ?_⟩
  · exact hd [] _ _
  · exact hd (encodeFixed64 (UInt64.ofNat a)) _ _
  · exact hd (encodeFixed64 (UInt64.ofNat a) ++ encodeFixed64 (UInt64.ofNat b)) _ _
  · exact hd (encodeFixed64 (UInt64.ofNat a) ++ encodeFixed64 (UInt64.ofNat b) ++
      encodeFixed64 (UInt64.ofNat c)) _ _
  · exact hd (encodeFixed64 (UInt64.ofNat a) ++ encodeFixed64 (UInt64.ofNat b) ++
      encodeFixed64 (UInt64.ofNat c) ++ encodeFixed64 (UInt64.ofNat d)) _ _

namespace SSTable

/-- The bytes of a block stand where the index says. -/
theorem filePRead_bytes {data rest : Bytes} {pre post : List DataBlock} {b : DataBlock}
    (hdata : data = blocksBytes (pre ++ b :: post) ++ rest) (h : Readable (pre ++ b :: post)) :
    filePRead data b.bytes.length (blocksBytes pre).length = some b.bytes := by
  have hlt := h.bytes_lt
  have hsplit : data = blocksBytes pre ++ (b.bytes ++ (blocksBytes post ++ rest)) := by
    rw [hdata]
    simp only [blocksBytes, List.flatMap_append, List.flatMap_cons, List.append_assoc]
  simp only [blocksBytes, List.flatMap_append, List.length_append] at hlt
  exact filePRead_append hsplit rfl rfl (by simp only [blocksBytes]; omega)

/-- `ReadBlock` gets a block if a string can be made for it and `FilePRead` fills it. -/
theorem readBlock_iff {t : SSTable} {offset size : ℕ} {block : Bytes} :
    t.readBlock offset size = .ok block ↔ size < 2 ^ 63 ∧ filePRead t.data size offset = some block := by
  rw [readBlock]
  by_cases hsize : 2 ^ 63 ≤ size
  · rw [if_pos hsize]
    exact iff_of_false (fun h => by cases h) fun h => absurd hsize (not_le.2 h.1)
  · rw [if_neg hsize, and_iff_right (not_le.1 hsize)]
    cases filePRead t.data size offset <;> simp

/-- **A block of the index is read back as it was written.** -/
theorem readBlock_fileBytes {t : SSTable} {pre post : List DataBlock} {b : DataBlock}
    {keys : List Bytes} (hdata : t.data = fileBytes (pre ++ b :: post) keys)
    (h : Readable (pre ++ b :: post)) :
    t.readBlock (blocksBytes pre).length b.bytes.length = .ok b.bytes := by
  exact readBlock_iff.2 ⟨h.block_lt (by simp), filePRead_bytes (by rw [hdata, fileBytes]) h⟩

/-- The first key of a block. -/
theorem readFirstKey_encodeEntry {key value : Bytes} (rest : Bytes) (hk : key.length < 2 ^ 32)
    (hv : value.length < 2 ^ 32) (hlen : 4 < (encodeEntry key value ++ rest).length) :
    readFirstKey (encodeEntry key value ++ rest) = .ok key := by
  obtain ⟨s, a, b, h⟩ := entryAt (List.nil_append (encodeEntry key value ++ rest)).symm rfl hk hv
  have hsize := h.size
  have hin := h.inside
  have ha := h.keyLen_pos
  have h0 := h.shared
  have h1 := h.keyLen
  have h2 := h.keyAt
  simp only [List.length_nil, Nat.zero_add] at h0 h1 h2 hin
  rw [readFirstKey, if_neg (by omega)]
  simp only [bind, Except.bind, h0, pure, Except.pure]
  rw [if_neg (by omega), h1]
  simp only
  rw [if_neg (by omega), h2]

/-- The Bloom filter is read back. -/
theorem readBloom_bloomBlock {data pre post : Bytes} {keys : List Bytes} {offset size : ℕ}
    (hdata : data = pre ++ (SSTableBuilder.bloomBlock keys ++ post)) (ho : offset = pre.length)
    (hs : size = (SSTableBuilder.bloomBlock keys).length) (h : offset < 2 ^ 63) :
    readBloom data offset size = some ⟨10, numProbes 10, BloomFilter.filterBits keys 10⟩ := by
  have hcf := BloomFilter.createFilter_length keys SSTableBuilder.bloomBitsPerKey
  have htake : (SSTableBuilder.bloomBlock keys).take ((SSTableBuilder.bloomBlock keys).length - 4) =
      BloomFilter.createFilter keys SSTableBuilder.bloomBitsPerKey := by
    rw [SSTableBuilder.bloomBlock, List.length_append, encodeFixed32_length, Nat.add_sub_cancel,
      List.take_left]
  have hlen : 4 < (SSTableBuilder.bloomBlock keys).length := by
    rw [SSTableBuilder.bloomBlock, List.length_append, encodeFixed32_length]; omega
  rw [readBloom, filePRead_append hdata ho hs h]
  simp only
  have hcrc : crcMatches (SSTableBuilder.bloomBlock keys) = true := crcMatches_append _
  rw [if_neg (by omega), htake, BloomFilter.decode_createFilter, if_pos hcrc]
  rfl

/-- The entries of the index block are read back. -/
theorem parseIndex_indexBlock {blocks : List DataBlock} (h : Readable blocks) {block : Bytes}
    (hblock : block = SSTableBuilder.indexBlock (infosFrom 0 blocks)) :
    parseIndex block (entriesEnd block) block.length 0 =
      .ok ((infosFrom 0 blocks).map BlockInfo.entry) := by
  obtain ⟨rs, hrs, heq⟩ := indexBlock_eq (infosFrom 0 blocks)
  obtain ⟨rest, hrest⟩ : ∃ rest, block = [] ++ (indexBytes (infosFrom 0 blocks) ++ rest) := by
    rw [hblock, heq, blockContents, List.append_assoc, List.append_assoc]; exact ⟨_, rfl⟩
  have hend : entriesEnd block = (indexBytes (infosFrom 0 blocks)).length := by
    rw [hblock, heq, entriesEnd_blockContents hrs]
  have hfuel : (infosFrom 0 blocks).length ≤ block.length := by
    have := length_le_indexBytes (infosFrom 0 blocks)
    rw [hrest, List.nil_append, List.length_append]; omega
  exact parseIndex_indexBytes h.infos_bounded hrest rfl (by rw [hend, Nat.zero_add]) hfuel

/-- The first key of a table is read from its first block. -/
theorem readFirstKey_head {b : DataBlock} (h : b.Bounded) (bs : List DataBlock) :
    ∃ e, ((b :: bs).flatMap DataBlock.entries).head? = some e ∧ readFirstKey b.bytes = .ok e.1 := by
  obtain ⟨e, es, rest, hes, hbytes, hkey, hvalue, hlong⟩ := h.first
  refine ⟨e, by simp [hes], ?_⟩
  rw [hbytes] at hlong ⊢
  exact readFirstKey_encodeEntry rest hkey hvalue hlong

section parts

variable {B I L : Bytes}

/-- A file of three parts and the footer over them, as long as the offsets are within 63 bits. -/
def partsBytes (B I L : Bytes) : Bytes :=
  B ++ (I ++ (L ++ SSTableBuilder.footer B.length I.length (B.length + I.length) L.length))

/-- The fields that `Open` takes from the footer. -/
theorem partsBytes_field (hlt : B.length + I.length + L.length < 2 ^ 63) :
    let f := fun i => (decodeFixed64 (((partsBytes B I L).drop
      ((partsBytes B I L).length - 48)).drop i)).getD 0
    48 ≤ (partsBytes B I L).length ∧ (f 0).toNat = B.length ∧ (f 8).toNat = I.length ∧
      (f 16).toNat = B.length + I.length ∧ (f 24).toNat = L.length ∧ f 32 = SSTableBuilder.magic := by
  intro f
  set F := SSTableBuilder.footer B.length I.length (B.length + I.length) L.length with hF
  obtain ⟨hF48, hF0, hF8, hF16, hF24, hF32⟩ :=
    footer_drop B.length I.length (B.length + I.length) L.length
  rw [← hF] at hF48 hF0 hF8 hF16 hF24 hF32
  have hassoc : partsBytes B I L = (B ++ (I ++ L)) ++ F := by
    simp only [partsBytes, List.append_assoc, hF]
  have hlen : (partsBytes B I L).length - 48 = (B ++ (I ++ L)).length := by
    rw [hassoc, List.length_append, hF48]; omega
  have hdrop : (partsBytes B I L).drop ((partsBytes B I L).length - 48) = F := by
    rw [hlen, hassoc, List.drop_left]
  -- the footer keeps offsets and sizes as they are, since the file is below 2^63 bytes
  have hto : ∀ n : ℕ, n < 2 ^ 63 → (UInt64.ofNat n).toNat = n := by
    intro n hn; rw [UInt64.toNat_ofNat']; omega
  simp only [f, hdrop, hF0, hF8, hF16, hF24, hF32]
  refine ⟨?_, hto _ (by omega), hto _ (by omega), hto _ (by omega), hto _ (by omega), trivial⟩
  rw [hassoc, List.length_append, hF48]
  omega

/-- `Open` fails on an index block whose CRC does not match. -/
theorem openFile_of_mismatch (hlt : B.length + I.length + L.length < 2 ^ 63) (hI : 8 ≤ I.length)
    (hcrc : crcMatches I = false) (number : ℕ) : openFile number (partsBytes B I L) =
      .error (.status (.corruption "SSTable::Open: index block CRC mismatch")) := by
  obtain ⟨h48, h0, h8, -, -, h32⟩ := partsBytes_field hlt
  have hindex : filePRead (partsBytes B I L) I.length B.length = some I :=
    filePRead_append rfl rfl rfl (by omega)
  unfold openFile
  have hI63 : ¬2 ^ 63 ≤ I.length := by omega
  simp only [bind, Except.bind, not_lt.2 h48, if_false, h0, h8, h32, ne_eq, not_true_eq_false, hindex,
    hcrc, not_lt.2 hI, hI63, Bool.not_false, if_true]
  rfl

/-- What `Open` makes of a file whose index block it can read. -/
theorem openFile_of_parts (hlt : B.length + I.length + L.length < 2 ^ 63) (hI : 8 ≤ I.length)
    (hcrc : crcMatches I = true) {entries : List IndexEntry}
    (hparse : parseIndex I (entriesEnd I) I.length 0 = .ok entries) {first : Checked Bytes}
    (hempty : entries = [] → first = .ok [])
    (hfirst : ∀ e ∈ entries.head?, e.blockSize < 2 ^ 63 ∧ ∃ block,
      filePRead (partsBytes B I L) e.blockSize e.blockOffset = some block ∧
        readFirstKey block = first)
    {filter : Option BloomFilter}
    (hbloom : readBloom (partsBytes B I L) (B.length + I.length) L.length = filter) (number : ℕ) :
    openFile number (partsBytes B I L) = first.map fun firstKey =>
      { number := number, data := partsBytes B I L, index := entries,
        bloomFilter := filter.getD (BloomFilter.new 10), hasBloom := filter.isSome,
        firstKey := firstKey, lastKey := (entries.getLast?.map IndexEntry.lastKey).getD [] } := by
  obtain ⟨h48, h0, h8, h16, h24, h32⟩ := partsBytes_field hlt
  have hindex : filePRead (partsBytes B I L) I.length B.length = some I :=
    filePRead_append rfl rfl rfl (by omega)
  unfold openFile
  have hI63 : ¬2 ^ 63 ≤ I.length := by omega
  have hL63 : ¬2 ^ 63 ≤ L.length := by omega
  simp only [bind, Except.bind, not_lt.2 h48, if_false, h0, h8, h16, h24, h32, ne_eq, not_true_eq_false,
    hindex, hcrc, hparse, hbloom, not_lt.2 hI, hI63, hL63, Bool.not_true, Bool.false_eq_true]
  cases entries with
  | nil =>
    -- a table without entries has no first block to read
    obtain rfl := hempty rfl
    cases filter <;> rfl
  | cons e es =>
    obtain ⟨hsize, block, hread, hkey⟩ := hfirst e rfl
    obtain ⟨l, hl⟩ : ∃ l, (e :: es).getLast? = some l :=
      ⟨_, List.getLast?_eq_some_getLast (List.cons_ne_nil e es)⟩
    have hblock : readBlock { number := number, data := partsBytes B I L, index := e :: es } e.blockOffset
        e.blockSize = .ok block := readBlock_iff.2 ⟨hsize, hread⟩
    simp only [List.head?_cons, hl, hblock, hkey, pure, Except.pure, Option.map_some, Option.getD_some]
    cases first <;> cases filter <;> rfl

/-- What `Open` makes of a file with the index over `blocks`, whatever it finds in their place. -/
theorem openFile_of_index {blocks : List DataBlock} (h : Readable blocks)
    (hI : I = SSTableBuilder.indexBlock (infosFrom 0 blocks))
    (hlt : B.length + I.length + L.length < 2 ^ 63) {first : Checked Bytes}
    (hempty : blocks = [] → first = .ok [])
    (hfirst : ∀ b ∈ blocks.head?, ∃ block,
      filePRead (partsBytes B I L) b.bytes.length 0 = some block ∧ readFirstKey block = first)
    {filter : Option BloomFilter}
    (hbloom : readBloom (partsBytes B I L) (B.length + I.length) L.length = filter) (number : ℕ) :
    openFile number (partsBytes B I L) = first.map fun firstKey =>
      { number := number, data := partsBytes B I L, index := (infosFrom 0 blocks).map BlockInfo.entry,
        bloomFilter := filter.getD (BloomFilter.new 10), hasBloom := filter.isSome,
        firstKey := firstKey,
        lastKey := ((blocks.flatMap DataBlock.entries).getLast?.map Prod.fst).getD [] } := by
  have hI8 : 8 ≤ I.length := by rw [hI]; exact indexBlock_length _
  have hcrc : crcMatches I = true := by rw [hI]; exact crcMatches_append _
  have hlast : (((infosFrom 0 blocks).map BlockInfo.entry).getLast?.map IndexEntry.lastKey) =
      (blocks.flatMap DataBlock.entries).getLast?.map Prod.fst := by
    rw [← getLast?_index (fun b hb => (h.bounded b hb).ne) 0, List.getLast?_map, Option.map_map]
    rfl
  have hnil : (infosFrom 0 blocks).map BlockInfo.entry = [] → first = .ok [] := by
    intro hnil
    apply hempty
    have hlen := congrArg List.length hnil
    rw [List.length_map, infosFrom_length] at hlen
    exact List.length_eq_zero_iff.1 hlen
  have hhead : ∀ e ∈ ((infosFrom 0 blocks).map BlockInfo.entry).head?, e.blockSize < 2 ^ 63 ∧ ∃ block,
      filePRead (partsBytes B I L) e.blockSize e.blockOffset = some block ∧
        readFirstKey block = first := by
    intro e he
    cases blocks with
    | nil => cases he
    | cons b bs =>
      obtain rfl := Option.some.inj he
      exact ⟨h.block_lt List.mem_cons_self, hfirst b rfl⟩
  rw [openFile_of_parts hlt hI8 hcrc (parseIndex_indexBlock h hI) hnil hhead hbloom number, hlast]

/-- The first key that `Open` reads from a block as it was written. -/
theorem exists_first {blocks : List DataBlock} (h : Readable blocks) (number : ℕ) (keys : List Bytes)
    (I L : Bytes) : ∀ b ∈ blocks.head?, ∃ block,
      filePRead (partsBytes (blocksBytes blocks) I L) b.bytes.length 0 = some block ∧
        readFirstKey block = .ok (tableOf number blocks keys).firstKey := by
  intro b hb
  cases blocks with
  | nil => cases hb
  | cons c bs =>
    obtain rfl := Option.some.inj hb
    obtain ⟨e, hhead, hkey⟩ := readFirstKey_head (h.bounded c List.mem_cons_self) bs
    refine ⟨c.bytes, filePRead_bytes (show _ = blocksBytes ([] ++ c :: bs) ++ _ from rfl) h, ?_⟩
    rw [hkey, tableOf, hhead]
    rfl

end parts

/-- **Opening a built file succeeds.** -/
theorem openFile_fileBytes {blocks : List DataBlock} (h : Readable blocks) {keys : List Bytes}
    (hsize : (fileBytes blocks keys).length < 2 ^ 63) (number : ℕ) :
    openFile number (fileBytes blocks keys) = .ok (tableOf number blocks keys) := by
  set I := SSTableBuilder.indexBlock (infosFrom 0 blocks) with hI
  set L := SSTableBuilder.bloomBlock keys with hL
  have hfile : fileBytes blocks keys = partsBytes (blocksBytes blocks) I L := rfl
  have hlt : (blocksBytes blocks).length + I.length + L.length < 2 ^ 63 := by
    rw [hfile, partsBytes] at hsize
    simp only [List.length_append] at hsize
    omega
  have hbloom : readBloom (partsBytes (blocksBytes blocks) I L) ((blocksBytes blocks).length + I.length)
      L.length = some ⟨10, numProbes 10, BloomFilter.filterBits keys 10⟩ :=
    readBloom_bloomBlock (show _ = (blocksBytes blocks ++ I) ++ (L ++ _) by
      rw [partsBytes, List.append_assoc]) (by simp) rfl (by omega)
  rw [hfile, openFile_of_index h hI hlt (fun hnil => by rw [hnil]; rfl)
    (exists_first h number keys I L) hbloom number]
  rfl

end SSTable

/-! ## Tables -/

/-- `t` is a table over `blocks`, however they were cut. -/
structure Spread (t : SSTable) (keys : List Bytes) (blocks : List DataBlock) : Prop where
  readable : Readable blocks
  table : t = tableOf t.number blocks keys

theorem Spread.index_eq {t : SSTable} {keys : List Bytes} {blocks : List DataBlock}
    (h : Spread t keys blocks) : t.index = (infosFrom 0 blocks).map BlockInfo.entry := by
  rw [h.table]; rfl

/-- Where the index says that a block is, it can be read whole. -/
theorem Spread.block_at {t : SSTable} {keys : List Bytes} {blocks bs₁ bs₂ : List DataBlock} {b : DataBlock}
    (ht : Spread t keys blocks) (hblocks : blocks = bs₁ ++ b :: bs₂) :
    t.index[bs₁.length]? = some ⟨b.lastKey, (blocksBytes bs₁).length, b.bytes.length⟩ ∧
      t.readBlock (blocksBytes bs₁).length b.bytes.length = .ok b.bytes ∧
      entriesEnd b.bytes = (entriesBytes b.entries).length := by
  have hb := ht.readable.bounded b (by rw [hblocks]; simp)
  have hdata : t.data = fileBytes (bs₁ ++ b :: bs₂) keys := by
    rw [ht.table, ← hblocks]; rfl
  refine ⟨?_, SSTable.readBlock_fileBytes hdata (by rw [← hblocks]; exact ht.readable),
    entriesEnd_blockContents (by have := hb.restarts; omega) _⟩
  rw [ht.index_eq, List.getElem?_map, infosFrom_getElem?, hblocks]
  simp [BlockInfo.entry]

/-- **Opening the file of any bounded blocks** gives a table over them. -/
theorem openFile_spread {blocks : List DataBlock} {keys : List Bytes} (hbounded : ∀ b ∈ blocks, b.Bounded)
    (hfile : (fileBytes blocks keys).length < 2 ^ 63) (number : ℕ) :
    SSTable.openFile number (fileBytes blocks keys) = .ok (tableOf number blocks keys) ∧
      Spread (tableOf number blocks keys) keys blocks := by
  have hread : Readable blocks := by
    refine ⟨hbounded, ?_⟩
    rw [fileBytes, List.length_append] at hfile
    omega
  exact ⟨SSTable.openFile_fileBytes hread hfile number, hread, rfl⟩

/-- `t` is a table over the entries of `pairs`, laid out in `blocks`. -/
structure Laid (t : SSTable) (pairs : List (Bytes × Bytes)) (blocks : List DataBlock) : Prop where
  readable : Readable blocks
  cut : blocks.map DataBlock.entries = cutBlocks [] (tableEntries pairs)
  table : t = tableOf t.number blocks (pairs.map Prod.fst)

theorem Laid.spread {t : SSTable} {pairs : List (Bytes × Bytes)} {blocks : List DataBlock}
    (h : Laid t pairs blocks) : Spread t (pairs.map Prod.fst) blocks := ⟨h.readable, h.table⟩

/-- `t` is a table over the entries of `pairs`, which fit. -/
structure Holds (t : SSTable) (pairs : List (Bytes × Bytes)) (blocks : List DataBlock) : Prop
    extends Laid t pairs blocks where
  fits : Fits pairs

/-- The blocks hold the entries in order. -/
theorem flatMap_entries_of_cut {blocks : List DataBlock} {es : List (Bytes × Bytes)}
    (h : blocks.map DataBlock.entries = cutBlocks [] es) : blocks.flatMap DataBlock.entries = es := by
  rw [List.flatMap_def, h, cutBlocks_flatten, List.nil_append]

theorem Laid.entries {t : SSTable} {pairs : List (Bytes × Bytes)} {blocks : List DataBlock}
    (h : Laid t pairs blocks) : blocks.flatMap DataBlock.entries = tableEntries pairs :=
  flatMap_entries_of_cut h.cut

/-- **Opening a built file** gives a table over its pairs, as long as their lengths are within 32
bits and the offsets in the file within 63. -/
theorem openFile_laid {pairs : List (Bytes × Bytes)} {blocks : List DataBlock}
    (hcut : blocks.map DataBlock.entries = cutBlocks [] (tableEntries pairs))
    (hbounded : ∀ b ∈ blocks, b.Bounded)
    (hfile : (fileBytes blocks (pairs.map Prod.fst)).length < 2 ^ 63) (number : ℕ) :
    SSTable.openFile number (fileBytes blocks (pairs.map Prod.fst)) =
        .ok (tableOf number blocks (pairs.map Prod.fst)) ∧
      Laid (tableOf number blocks (pairs.map Prod.fst)) pairs blocks := by
  obtain ⟨hopen, hspread⟩ := openFile_spread hbounded hfile number
  exact ⟨hopen, hspread.readable, hcut, rfl⟩

/-- **Opening the file of fitting pairs** gives a table over them. -/
theorem openFile_build {pairs : List (Bytes × Bytes)} (h : Fits pairs) (number : ℕ) :
    ∃ t blocks, SSTable.openFile number (SSTableBuilder.build pairs) = .ok t ∧
      t.number = number ∧ Holds t pairs blocks := by
  obtain ⟨blocks, hok, hcut, -, hbuild, -⟩ := SSTableBuilder.build_layout pairs
  have hes := flatMap_entries_of_cut hcut
  have hsize : ∀ b ∈ blocks, ∀ e ∈ b.entries, e.1.length + e.2.length < 2 ^ 31 := by
    intro b hb e he
    obtain ⟨p, hp, s, rfl⟩ := exists_pair hes hb he
    have := h.entry p hp
    simp only [makeInternalKey_length]
    omega
  have hbounded : ∀ b ∈ blocks, b.Bounded := fun b hb =>
    (hok b hb).bounded fun e he => by have := hsize b hb e he; omega
  have hbytes : ∀ b ∈ blocks, b.bytes.length ≤ 2 ^ 32 := fun b hb => ((hok b hb).bytes_lt (hsize b hb)).le
  have hcount : blocks.length < 2 ^ 28 := by
    have := length_le_flatMap_entries fun b hb => (hok b hb).ne
    rw [hes, tableEntries, entriesFrom_length] at this
    have := h.count
    omega
  have hread : Readable blocks := by
    refine ⟨hbounded, ?_⟩
    have := blocksBytes_length_le hbytes
    omega
  have hkeys : (pairs.map Prod.fst).length < 2 ^ 28 := by simpa using h.count
  obtain ⟨hopen, hlaid⟩ :=
    openFile_laid hcut hbounded (hread.file_lt hbytes hcount hkeys) number
  exact ⟨_, blocks, by rw [hbuild]; exact hopen, rfl, hlaid, h⟩

end MiniLSM
