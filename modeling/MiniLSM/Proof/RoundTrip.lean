import MiniLSM.Proof.Iterator
import MiniLSM.Proof.MemTable

/-!
# Tables of any pairs

Tables built from pairs that need not come from a memtable, of any number and size that the
builder can write.

* `Written pairs`: every write of the builder can succeed.
* `iterator_build`: the iterator over the table gives the pairs back, in the order they were
  added.
* `get_build_iff`: when the user keys are sorted, `Get` finds the first pair of a key if and only
  if `Findable` holds.
* `get_build_misses`: it misses a key that continues the last one of another block.
-/

namespace MiniLSM

open SSTableBuilder

/-! ## What can be written -/

/-- **Every write of the builder can succeed.** `FdWriteFull` hands its count to `write` as an
`unsigned int`, so of `2 ^ 32` bytes or more a multiple of `2 ^ 32` is left in the end, for which
`write` returns zero and `FdWriteFull` returns false. -/
structure Written (pairs : List (Bytes × Bytes)) : Prop where
  blocks : ∀ es ∈ cutBlocks [] (tableEntries pairs), (entriesBytes es).length < 2 ^ 32
  index : (indexBlock ((new {}).addAll pairs).finish.2.blockInfos).length < 2 ^ 32
  bloom : (bloomBlock (pairs.map Prod.fst)).length < 2 ^ 32

theorem encodeEntry_le_entriesBytes {es : List (Bytes × Bytes)} {e : Bytes × Bytes} (h : e ∈ es) :
    (encodeEntry e.1 e.2).length ≤ (entriesBytes es).length := by
  obtain ⟨xs, ys, rfl⟩ := List.append_of_mem h
  simp only [entriesBytes, List.flatMap_append, List.flatMap_cons, List.length_append]
  omega

namespace SSTableBuilder

/-- A block that one write can put, restarts apart. -/
structure Sized (d : DataBlock) : Prop where
  ne : d.entries ≠ []
  restarts : d.restarts.length = (d.entries.length + 15) / 16
  short : (entriesBytes d.entries).length < 2 ^ 32

theorem Sized.bounded {d : DataBlock} (h : Sized d) : d.Bounded := by
  have hcount := length_le_entriesBytes d.entries
  have hshort := h.short
  have hentry : ∀ e ∈ d.entries, e.1.length + e.2.length < 2 ^ 32 := by
    intro e he
    have hle := encodeEntry_le_entriesBytes he
    rw [encodeEntry_length] at hle
    omega
  refine ⟨h.ne, fun e he => ?_, fun e he => ?_, ?_⟩
  · have := hentry e he
    omega
  · have := hentry e he
    omega
  · rw [h.restarts]
    omega

theorem Sized.bytes_le {d : DataBlock} (h : Sized d) : d.bytes.length ≤ 2 ^ 32 + 2 ^ 30 + 16 := by
  have hlen := d.bytes_length
  have hcount := length_le_entriesBytes d.entries
  have hshort := h.short
  have hrestarts := h.restarts
  omega

/-- Blocks that fit in one write each, with an index that fits in one, lie within 63 bits. -/
theorem length_fileBytes_lt {blocks : List DataBlock} (h : ∀ d ∈ blocks, Sized d) {keys : List Bytes}
    (hindex : (indexBlock (infosFrom 0 blocks)).length < 2 ^ 32)
    (hbloom : (bloomBlock keys).length < 2 ^ 32) : (fileBytes blocks keys).length < 2 ^ 63 := by
  obtain ⟨rs, hrs, heq⟩ := indexBlock_eq (infosFrom 0 blocks)
  have hcount := length_le_indexBytes (infosFrom 0 blocks)
  have hblocks := blocksBytes_length_le fun d hd => (h d hd).bytes_le
  have hfooter : ∀ a b c d, (footer a b c d).length = 48 := fun a b c d => rfl
  have hlen : (indexBytes (infosFrom 0 blocks)).length ≤ (indexBlock (infosFrom 0 blocks)).length := by
    rw [heq, List.length_append, blockContents_length]
    omega
  rw [infosFrom_length] at hcount
  rw [fileBytes, List.length_append, List.length_append, List.length_append, hfooter]
  -- every block has three bytes of the index to itself
  have hmul : blocks.length * (2 ^ 32 + 2 ^ 30 + 16) ≤ 1431655765 * (2 ^ 32 + 2 ^ 30 + 16) :=
    Nat.mul_le_mul_right _ (by omega)
  omega

end SSTableBuilder

/-- **A file that can be written** is laid out in readable blocks, and its offsets are within 63
bits. -/
theorem Written.layout {pairs : List (Bytes × Bytes)} (h : Written pairs) :
    ∃ blocks, (∀ b ∈ blocks, b.OK) ∧ Readable blocks ∧
      blocks.map DataBlock.entries = cutBlocks [] (tableEntries pairs) ∧
      ((new {}).addAll pairs).finish.1 = .OK ∧
      build pairs = fileBytes blocks (pairs.map Prod.fst) ∧
      ((new {}).addAll pairs).finish.2.blockInfos = infosFrom 0 blocks ∧
      (fileBytes blocks (pairs.map Prod.fst)).length < 2 ^ 63 := by
  obtain ⟨blocks, hok, hcut, hstatus, hbuild, hinfos⟩ := build_layout pairs
  have hsized : ∀ b ∈ blocks, Sized b := fun b hb =>
    ⟨(hok b hb).ne, (hok b hb).restarts, h.blocks _ (hcut ▸ List.mem_map_of_mem hb)⟩
  have hindex := h.index
  rw [hinfos] at hindex
  have hfile := length_fileBytes_lt hsized hindex h.bloom
  refine ⟨blocks, hok, ⟨fun b hb => (hsized b hb).bounded, ?_⟩, hcut, hstatus, hbuild, hinfos, hfile⟩
  rw [fileBytes, List.length_append] at hfile
  omega

/-- **A file that can be written can be opened**, to a table over its pairs. -/
theorem Written.openFile {pairs : List (Bytes × Bytes)} (h : Written pairs) (number : ℕ) :
    ∃ blocks, ((new {}).addAll pairs).finish.1 = .OK ∧
      SSTable.openFile number (build pairs) = .ok (tableOf number blocks (pairs.map Prod.fst)) ∧
      Laid (tableOf number blocks (pairs.map Prod.fst)) pairs blocks := by
  obtain ⟨blocks, -, hread, hcut, hstatus, hbuild, -, hfile⟩ := h.layout
  obtain ⟨hopen, hlaid⟩ := openFile_laid hcut hread.bounded hfile number
  exact ⟨blocks, hstatus, by rw [hbuild]; exact hopen, hlaid⟩

/-! ## The iterator over a table -/

/-- The pairs under the internal keys that `Add` gives them. -/
def numbered (pairs : List (Bytes × Bytes)) : List (Bytes × Bytes) :=
  pairs.mapIdx fun i p => (makeInternalKey p.1 (UInt64.ofNat (i + 1)) (typeOf p.2), p.2)

theorem entriesFrom_eq_mapIdx (seq : SequenceNumber) (pairs : List (Bytes × Bytes)) :
    entriesFrom seq pairs =
      pairs.mapIdx fun i p => (makeInternalKey p.1 (seq + UInt64.ofNat (i + 1)) (typeOf p.2), p.2) := by
  induction pairs generalizing seq with
  | nil => rfl
  | cons p ps ih =>
    have hseq : ∀ i : ℕ, seq + 1 + UInt64.ofNat (i + 1) = seq + UInt64.ofNat (i + 1 + 1) := by
      intro i
      rw [UInt64.ofNat_add (i + 1) 1, UInt64.add_assoc, UInt64.add_comm 1]
      rfl
    rw [entriesFrom, ih, List.mapIdx_cons]
    simp only [hseq]
    rfl

theorem tableEntries_eq_numbered (pairs : List (Bytes × Bytes)) : tableEntries pairs = numbered pairs := by
  rw [tableEntries, entriesFrom_eq_mapIdx]
  simp only [UInt64.zero_add]
  rfl

/-- **The iterator gives back what was added**: the table opens, and from `SeekToFirst` on its
iterator yields the pairs in the order of their `Add`, the `i`-th under the sequence number `i`,
and ends. The first and the last of these keys are those of the table. -/
theorem iterator_build {pairs : List (Bytes × Bytes)} (h : Written pairs) (number : ℕ) :
    ((new {}).addAll pairs).finish.1 = .OK ∧
      ∃ t, SSTable.openFile number (build pairs) = .ok t ∧
        t.firstKey = ((numbered pairs).head?.map Prod.fst).getD [] ∧
        t.lastKey = ((numbered pairs).getLast?.map Prod.fst).getD [] ∧
        (∃ it, SSTableIterator.new t = .ok it ∧ Yields it (numbered pairs)) ∧
        ∀ it : SSTableIterator, it.table = t →
          ∃ it', it.seekToFirst = .ok it' ∧ Yields it' (numbered pairs) := by
  obtain ⟨blocks, hstatus, hopen, hlaid⟩ := h.openFile number
  have hentries : blocks.flatMap DataBlock.entries = numbered pairs := by
    rw [hlaid.entries, tableEntries_eq_numbered]
  rw [← tableEntries_eq_numbered]
  refine ⟨hstatus, _, hopen, ?_, ?_, ?_, ?_⟩
  · rw [tableEntries_eq_numbered, ← hentries]; rfl
  · rw [tableEntries_eq_numbered, ← hentries]; rfl
  · obtain ⟨it, hnew, -, hy⟩ := SSTableIterator.new_yields hlaid
    exact ⟨it, hnew, hy⟩
  · intro it htable
    obtain ⟨it', hseek, -, hy⟩ := SSTableIterator.seekToFirst_yields hlaid htable
    exact ⟨it', hseek, hy⟩

/-- Three pairs in any order, one of them with an empty value. -/
theorem iterator_build_small : ∃ t, SSTable.openFile 1 (build [([98], [1]), ([97], []), ([98], [2])]) = .ok t ∧
    ∃ it, SSTableIterator.new t = .ok it ∧
      Yields it [([98, 1, 254, 255, 255, 255, 255, 255, 255], [1]),
        ([97, 0, 253, 255, 255, 255, 255, 255, 255], []),
        ([98, 1, 252, 255, 255, 255, 255, 255, 255], [2])] := by
  have hw : Written [([98], [1]), ([97], []), ([98], [2])] :=
    ⟨by decide +kernel, by decide +kernel, by decide +kernel⟩
  have hn : numbered [([98], [1]), ([97], []), ([98], [2])] =
      [([98, 1, 254, 255, 255, 255, 255, 255, 255], [1]),
        ([97, 0, 253, 255, 255, 255, 255, 255, 255], []),
        ([98, 1, 252, 255, 255, 255, 255, 255, 255], [2])] := by decide +kernel
  obtain ⟨-, t, hopen, -, -, hnew, -⟩ := iterator_build hw 1
  rw [← hn]
  exact ⟨t, hopen, hnew⟩

/-! ## Looking a key up -/

/-- **`Get` finds the first pair of `k`**, with status OK, or reports that there is none. -/
def Finds (number : ℕ) (pairs : List (Bytes × Bytes)) (k : Bytes) : Prop :=
  ∃ t r, SSTable.openFile number (build pairs) = .ok t ∧ t.get k = .ok r ∧ Answers r (pairs.lookup k)

/-- The Bloom filter of the pairs. -/
def filterOf (pairs : List (Bytes × Bytes)) : BloomFilter :=
  ⟨10, numProbes 10, BloomFilter.filterBits (pairs.map Prod.fst) 10⟩

/-- Where the search over the index looks on its way to the first block of `k`, every block in
front of that one ends below the lookup key of `k`. -/
def Reached (k : Bytes) (bs : List (List (Bytes × Bytes))) : Prop :=
  ∀ i ∈ Search.probes (firstBlock k bs) bs.length 0 (bs.length - 1), i < firstBlock k bs →
    endsBelow k bs i = true

instance (k : Bytes) (bs : List (List (Bytes × Bytes))) : Decidable (Reached k bs) :=
  List.decidableBAll _ _

/-- What finding `k` takes: the Bloom filter can be asked and does not hide `k`, and the search
over the index reaches its block. -/
structure Findable (pairs : List (Bytes × Bytes)) (k : Bytes) : Prop where
  counted : (filterOf pairs).dividesByZero = false
  bloom : k ∈ pairs.map Prod.fst → (filterOf pairs).mayContain k = true
  reached : k ∈ pairs.map Prod.fst → Reached k (cutBlocks [] (tableEntries pairs))

/-- Fewer than 429,496,729 pairs have a Bloom filter that can be asked and hides none of them. -/
theorem filterOf_small {pairs : List (Bytes × Bytes)} (h : pairs.length < 429496729) :
    (filterOf pairs).dividesByZero = false ∧
      ∀ k ∈ pairs.map Prod.fst, (filterOf pairs).mayContain k = true := by
  have hbits : (max 64 ((pairs.map Prod.fst).length * 10) + 7) / 8 * 8 < 2 ^ 32 := by
    rw [List.length_map]
    omega
  refine ⟨BloomFilter.not_dividesByZero hbits _ _, fun k hk => ?_⟩
  exact BloomFilter.mayContain_createFilter hbits (BloomFilter.decode_createFilter _ 10) hk

section sorted

variable {pairs : List (Bytes × Bytes)} {k : Bytes}

/-- Between sorted user keys only the search over the index can go astray. -/
theorem inTable_iff_reached {bs : List (List (Bytes × Bytes))} (hne : ∀ b ∈ bs, b ≠ [])
    (hs : ∀ e ∈ bs.flatten, Stored e) (hsorted : (userPairs bs.flatten).Pairwise fun p q => p.1 ≤ q.1)
    (hk : k ∈ (userPairs bs.flatten).map Prod.fst) : InTable k bs ↔ Reached k bs := by
  constructor
  · intro h i hi hlt
    exact (h.found i hi).2 hlt
  · intro h
    refine ⟨fun i hi => ?_, before_of_sorted hsorted hk⟩
    have hilt : i < bs.length := by have := (Search.mem_probes hi).2; omega
    rcases lt_or_ge i (firstBlock k bs) with hlt | hge
    · exact iff_of_true (h i hi hlt) hlt
    · rw [endsBelow_of_sorted hne hs hsorted hk hge hilt]
      exact iff_of_false (by simp) (not_lt.2 hge)

/-- The blocks of a table, under the conditions on sorted blocks. -/
theorem Laid.flatten {t : SSTable} {blocks : List DataBlock} (h : Laid t pairs blocks) :
    (blocks.map DataBlock.entries).flatten = tableEntries pairs := by
  rw [← List.flatMap_def, h.entries]

theorem Laid.entries_ne {t : SSTable} {blocks : List DataBlock} (h : Laid t pairs blocks) :
    ∀ b ∈ blocks.map DataBlock.entries, b ≠ [] := by
  intro b hb
  obtain ⟨c, hc, rfl⟩ := List.mem_map.1 hb
  exact (h.readable.bounded c hc).ne

theorem Laid.stored {t : SSTable} {blocks : List DataBlock} (h : Laid t pairs blocks) :
    ∀ e ∈ (blocks.map DataBlock.entries).flatten, Stored e := by
  rw [h.flatten]
  exact fun e => stored_tableEntries

/-- What is findable is found. -/
theorem Findable.finds (hf : Findable pairs k) (h : Written pairs)
    (hsorted : pairs.Pairwise fun p q => p.1 ≤ q.1) (number : ℕ) : Finds number pairs k := by
  obtain ⟨blocks, -, hopen, hlaid⟩ := h.openFile number
  by_cases hk : k ∈ pairs.map Prod.fst
  · have hflat : userPairs (blocks.map DataBlock.entries).flatten = pairs := by
      rw [hlaid.flatten, userPairs_tableEntries]
    have hin : InTable k (blocks.map DataBlock.entries) := by
      rw [inTable_iff_reached hlaid.entries_ne hlaid.stored (by rwa [hflat]) (by rwa [hflat]), hlaid.cut]
      exact hf.reached hk
    obtain ⟨r, hr, hans⟩ := hlaid.get_of_inTable hf.counted hk (hf.bloom hk) hin
    exact ⟨_, r, hopen, hr, hans⟩
  · obtain ⟨r, hr, hans⟩ := hlaid.get_of_not_mem hf.counted hk
    exact ⟨_, r, hopen, hr, by rwa [lookup_eq_none hk]⟩

/-- What is not findable is not found. -/
theorem findable_of_finds (h : Written pairs) (hsorted : pairs.Pairwise fun p q => p.1 ≤ q.1)
    {number : ℕ} (hf : Finds number pairs k) : Findable pairs k := by
  obtain ⟨blocks, -, hopen, hlaid⟩ := h.openFile number
  obtain ⟨t, r, hopen', hr, hans⟩ := hf
  rw [hopen] at hopen'
  obtain rfl := Except.ok.inj hopen'
  -- an answer of `Get` that is another than the one found
  have hother : ∀ r', (tableOf number blocks (pairs.map Prod.fst)).get k = .ok r' → Answers r' none →
      k ∉ pairs.map Prod.fst := by
    intro r' hr' hans' hk
    rw [hr] at hr'
    obtain rfl := Except.ok.inj hr'
    have hnone := hans.value.symm.trans hans'.value
    rw [List.lookup_eq_none_iff] at hnone
    obtain ⟨p, hp, rfl⟩ := List.mem_map.1 hk
    simpa using hnone p hp
  have hz : (filterOf pairs).dividesByZero = false := by
    by_contra hz
    rw [Bool.not_eq_false] at hz
    rw [SSTable.get, if_pos (by exact hz)] at hr
    cases hr
  have hbloom : k ∈ pairs.map Prod.fst → (filterOf pairs).mayContain k = true := by
    intro hk
    by_contra hmay
    rw [Bool.not_eq_true] at hmay
    have hget : (tableOf number blocks (pairs.map Prod.fst)).get k =
        .ok (.notFound "bloom filter: not present", none) := by
      have hz' : (tableOf number blocks (pairs.map Prod.fst)).bloomFilter.dividesByZero = false := hz
      have hmay' : (tableOf number blocks (pairs.map Prod.fst)).bloomFilter.mayContain k = false := hmay
      rw [SSTable.get, hz', hmay', Bool.and_false, if_neg (by decide)]
      rfl
    exact hother _ hget ⟨rfl, fun h => absurd rfl h, fun _ => rfl⟩ hk
  refine ⟨hz, hbloom, fun hk => ?_⟩
  have hflat : userPairs (blocks.map DataBlock.entries).flatten = pairs := by
    rw [hlaid.flatten, userPairs_tableEntries]
  have hiff := inTable_iff_reached hlaid.entries_ne hlaid.stored (by rwa [hflat])
    (show k ∈ _ by rwa [hflat])
  rw [← hlaid.cut, ← hiff]
  by_contra hin
  have hpast : NotPast k (blocks.map DataBlock.entries) := fun i hi hle =>
    endsBelow_of_sorted hlaid.entries_ne hlaid.stored (by rwa [hflat]) (by rwa [hflat]) hle (by omega)
  obtain ⟨r', hr', hans'⟩ := hlaid.get_of_not_inTable hz hk (hbloom hk) hin hpast
  exact hother r' hr' hans' hk

end sorted

/-- **`Get` on a table of sorted user keys** finds the first pair of `k`, or reports that there
is none, if and only if `k` is findable. -/
theorem get_build_iff {pairs : List (Bytes × Bytes)} (h : Written pairs)
    (hsorted : pairs.Pairwise fun p q => p.1 ≤ q.1) (number : ℕ) (k : Bytes) :
    Finds number pairs k ↔ Findable pairs k :=
  ⟨findable_of_finds h hsorted, fun hf => hf.finds h hsorted number⟩

theorem get_build_iff_small : Finds 1 [([97], [1]), ([97], [2]), ([98], [])] [97] := by
  have hw : Written [([97], [1]), ([97], [2]), ([98], [])] :=
    ⟨by decide +kernel, by decide +kernel, by decide +kernel⟩
  obtain ⟨hz, hbloom⟩ := @filterOf_small [([97], [1]), ([97], [2]), ([98], [])] (by decide)
  exact (get_build_iff hw (by decide) 1 [97]).2 ⟨hz, hbloom [97], fun _ => by decide +kernel⟩

/-- Two pairs in two blocks: the second key continues the first by a zero byte. -/
def splitPairs : List (Bytes × Bytes) := [([97], List.replicate 4090 0), ([97, 0], [1])]

/-- **`Get` misses a key** whose block comes behind one that ends, as raw bytes, above it. -/
theorem get_build_misses : Written splitPairs ∧ (splitPairs.Pairwise fun p q => p.1 ≤ q.1) ∧
    splitPairs.lookup [97, 0] = some [1] ∧ ∀ number, ¬Finds number splitPairs [97, 0] := by
  have hw : Written splitPairs := ⟨by decide +kernel, by decide +kernel, by decide +kernel⟩
  have hsorted : splitPairs.Pairwise fun p q => p.1 ≤ q.1 := by decide +kernel
  refine ⟨hw, hsorted, by decide +kernel, fun number hf => ?_⟩
  have hreached := (findable_of_finds hw hsorted hf).reached (by decide +kernel)
  exact absurd hreached (by decide +kernel)

end MiniLSM
