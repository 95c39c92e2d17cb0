import MiniLSM.Proof.TableBurst

/-!
# What a damaged table answers

`withstands_iff_safe`: after a burst of one to four bytes in a checksummed block of a table file,
`SSTable::Open` fails with Corruption, or `Get` answers as on the intact file or with Corruption,
for every key, if and only if the block is `Safe`: the index block always, a data block when the
Bloom filter can be asked and the lengths in front of the file can still be decoded, the Bloom block
when the filter hides no key that the lookup behind it finds. `noneHidden_of_few`: the filter hides
none below 429,496,729 pairs. `damage_unhides`: that over 429,496,730 equal keys does.
-/

namespace MiniLSM

open SSTableBuilder

/-! ## What a damaged table answers -/

/-- A block of a table file under a checksum. -/
inductive CheckedBlock where
  | data (info : BlockInfo)
  | index
  | bloom

/-- A field of the footer, as `Open` reads it. -/
def footerField (file : Bytes) (i : ℕ) : ℕ :=
  ((decodeFixed64 ((file.drop (file.length - 48)).drop i)).getD 0).toNat

/-- `bad` is the file of `pairs` after a burst in one of its blocks: a data block as the builder
noted it, or one of the two that the footer names. -/
def Damaged (pairs : List (Bytes × Bytes)) : CheckedBlock → Bytes → Prop
  | .data info, bad => info ∈ ((new {}).addAll pairs).finish.2.blockInfos ∧
      DamagedAt info.offset info.size (build pairs) bad
  | .index, bad => DamagedAt (footerField (build pairs) 0) (footerField (build pairs) 8)
      (build pairs) bad
  | .bloom, bad => DamagedAt (footerField (build pairs) 16) (footerField (build pairs) 24)
      (build pairs) bad

/-- **The damage shows or does no harm**: `Open` fails with Corruption, or every `Get` returns
the status code and the value that it returns on the intact file, or Corruption. -/
def Withstands (number : ℕ) (file bad : Bytes) : Prop :=
  (∃ msg, SSTable.openFile number bad = .error (.status (.corruption msg))) ∨
    ∃ t t', SSTable.openFile number file = .ok t ∧ SSTable.openFile number bad = .ok t' ∧
      ∀ k, ∃ r', t'.get k = .ok r' ∧ (r'.1.code = .corruption ∨
        ∃ r, t.get k = .ok r ∧ r'.1.code = r.1.code ∧ r'.2 = r.2)

/-- The keys that the Bloom filter hides are not found without it either. -/
structure NoneHidden (pairs : List (Bytes × Bytes)) : Prop where
  counted : (filterOf pairs).dividesByZero = false
  hidden : ∀ k, (filterOf pairs).mayContain k = false →
    ¬Shown k (cutBlocks [] (tableEntries pairs))

/-- What makes damage to a block harmless. `Open` decodes the lengths in front of the file and
checks no CRC before it does. -/
def CheckedBlock.Safe (pairs : List (Bytes × Bytes)) (bad : Bytes) : CheckedBlock → Prop
  | .data _ => (filterOf pairs).dividesByZero = false ∧ FrontLengths bad
  | .index => True
  | .bloom => NoneHidden pairs

theorem Answers.not_corruption {r : Status × Option Bytes} {v : Option Bytes} (h : Answers r v) :
    r.1.code ≠ .corruption := by
  cases v with
  | none => rw [h.missing rfl]; decide
  | some v => rw [h.found (Option.some_ne_none v)]; decide

section withstands

variable {pairs : List (Bytes × Bytes)} {blocks : List DataBlock} {number : ℕ} {bad : Bytes}

theorem Laid.bloomFilter_eq {t : SSTable} (h : Laid t pairs blocks) : t.bloomFilter = filterOf pairs := by
  rw [h.table]
  rfl

/-- A table with the Bloom filter of the pairs asks it first. -/
theorem get_filtered {t : SSTable} (hfilter : t.bloomFilter = filterOf pairs) (hhas : t.hasBloom = true)
    (k : Bytes) : t.get k =
      if (filterOf pairs).dividesByZero then .error .outOfBounds
      else if (filterOf pairs).mayContain k then t.getPast k
      else .ok (.notFound "bloom filter: not present", none) := by
  rw [SSTable.get_eq, hfilter, hhas, Bool.true_and, Bool.true_and]
  cases (filterOf pairs).mayContain k <;> rfl

/-- **Damage to a data block** of a table that opens is harmless if and only if the Bloom filter can
be asked. -/
theorem withstands_data {t t' : SSTable} (hlaid : Laid t pairs blocks)
    (hopen : SSTable.openFile number (build pairs) = .ok t)
    (hopen' : SSTable.openFile number bad = .ok t') (hindex : t'.index = t.index)
    (hfilter' : t'.bloomFilter = t.bloomFilter) (hhas' : t'.hasBloom = t.hasBloom) {j : ℕ}
    {b : DataBlock} (hb : blocks[j]? = some b) {block rest : Bytes}
    (hdata : t'.data = (replaced blocks j block).flatten ++ rest)
    (hl : block.length = b.bytes.length) (hcrc : crcMatches block = false) :
    Withstands number (build pairs) bad ↔ (filterOf pairs).dividesByZero = false := by
  have hlt := hlaid.readable.bytes_lt
  have hget := get_filtered (hfilter'.trans hlaid.bloomFilter_eq) (hhas'.trans hlaid.hasBloom_eq)
  constructor
  · rintro (⟨msg, herr⟩ | ⟨_, u, -, hu, hall⟩)
    · rw [hopen'] at herr
      cases herr
    · -- a filter that cannot be asked lets no `Get` return
      by_contra hz
      rw [Bool.not_eq_false] at hz
      obtain rfl := Except.ok.inj (hopen'.symm.trans hu)
      obtain ⟨r', hr', -⟩ := hall []
      rw [hget, if_pos hz] at hr'
      cases hr'
  · intro hz
    refine Or.inr ⟨t, t', hopen, hopen', fun k => ?_⟩
    have hread : ∀ e ∈ t.index,
        t'.readBlock e.blockOffset e.blockSize = t.readBlock e.blockOffset e.blockSize ∨
        ∃ block, t'.readBlock e.blockOffset e.blockSize = .ok block ∧ 8 ≤ block.length ∧
          crcMatches block = false := by
      intro e he
      rw [hlaid.index_eq] at he
      obtain ⟨i, c, hc, rfl⟩ := mem_index he
      have hpread := filePRead_replaced hb hl hlt hc rest
      rw [← hdata] at hpread
      by_cases hij : i = j
      · right
        rw [if_pos hij] at hpread
        have hlong := b.bytes_length
        exact ⟨block, SSTable.readBlock_iff.2 ⟨hlaid.readable.block_lt (List.mem_of_getElem? hc), hpread⟩,
          by omega, hcrc⟩
      · left
        rw [if_neg hij] at hpread
        rw [readBlock_of_blocks (t := t) (by rw [hlaid.data_eq, fileBytes]) hlt hc]
        exact SSTable.readBlock_iff.2 ⟨hlaid.readable.block_lt (List.mem_of_getElem? hc), hpread⟩
    obtain ⟨r, hr, -⟩ := hlaid.getPast_lookup k
    rw [hget, get_filtered hlaid.bloomFilter_eq hlaid.hasBloom_eq, hz]
    cases (filterOf pairs).mayContain k with
    | false => exact ⟨_, rfl, Or.inr ⟨_, rfl, rfl, rfl⟩⟩
    | true =>
      rcases SSTable.getPast_of_read hindex hread k with hsame | hcorrupt
      · exact ⟨r, hsame.trans hr, Or.inr ⟨r, hr, rfl, rfl⟩⟩
      · exact ⟨_, hcorrupt, Or.inl rfl⟩

/-- **Damage to the Bloom block** is harmless if and only if the filter hides nothing that would
be found without it. -/
theorem withstands_bloom {t t' : SSTable} (hlaid : Laid t pairs blocks)
    (hopen : SSTable.openFile number (build pairs) = .ok t)
    (hopen' : SSTable.openFile number bad = .ok t') (hindex : t'.index = t.index)
    (hhas' : t'.hasBloom = false) {rest : Bytes} (hdata : t'.data = blocksBytes blocks ++ rest) :
    Withstands number (build pairs) bad ↔ NoneHidden pairs := by
  have hlt := hlaid.readable.bytes_lt
  -- without a filter, `Get` is the lookup behind it
  have hget : ∀ k, t'.get k = t.getPast k := by
    intro k
    rw [SSTable.get_eq, hhas', Bool.false_and, if_neg (by decide), Bool.false_and, if_neg (by decide)]
    refine SSTable.getPast_congr hindex (fun e he => ?_) k
    rw [hlaid.index_eq] at he
    obtain ⟨i, c, hc, rfl⟩ := mem_index he
    rw [readBlock_of_blocks hdata hlt hc,
      readBlock_of_blocks (t := t) (by rw [hlaid.data_eq, fileBytes]) hlt hc]
  have hshown : ∀ k, lookupPast k (cutBlocks [] (tableEntries pairs)) ≠ none ↔
      Shown k (cutBlocks [] (tableEntries pairs)) := by
    intro k
    rw [← hlaid.cut]
    exact lookupPast_ne_none_iff hlaid.stored
  constructor
  · rintro (⟨msg, herr⟩ | ⟨u, u', hu, hu', hall⟩)
    · rw [hopen'] at herr
      cases herr
    · obtain rfl := Except.ok.inj (hopen'.symm.trans hu')
      obtain rfl := Except.ok.inj (hopen.symm.trans hu)
      -- the answer of the damaged table is never Corruption, so it is that of the intact one
      have hsame : ∀ k, ∃ r r', t.get k = .ok r ∧ r'.2 = r.2 ∧
          Answers r' (lookupPast k (cutBlocks [] (tableEntries pairs))) := by
        intro k
        obtain ⟨r', hr', hor⟩ := hall k
        obtain ⟨r'', hr'', hans⟩ := hlaid.getPast_lookup k
        rw [hget, hr''] at hr'
        obtain rfl := Except.ok.inj hr'
        obtain ⟨r, hr, -, hvalue⟩ := hor.resolve_left hans.not_corruption
        exact ⟨r, r'', hr, hvalue, hans⟩
      have hz : (filterOf pairs).dividesByZero = false := by
        by_contra hz
        rw [Bool.not_eq_false] at hz
        obtain ⟨r, -, hr, -⟩ := hsame []
        rw [get_filtered hlaid.bloomFilter_eq hlaid.hasBloom_eq, if_pos hz] at hr
        cases hr
      refine ⟨hz, fun k hmay hk => ?_⟩
      obtain ⟨r, r', hr, hvalue, hans⟩ := hsame k
      rw [get_filtered hlaid.bloomFilter_eq hlaid.hasBloom_eq, hz, hmay] at hr
      obtain rfl := Except.ok.inj hr
      exact (hshown k).2 hk (hans.value.symm.trans hvalue)
  · intro h
    refine Or.inr ⟨t, t', hopen, hopen', fun k => ?_⟩
    obtain ⟨r, hr, hans⟩ := hlaid.getPast_lookup k
    refine ⟨r, by rw [hget, hr], Or.inr ?_⟩
    rw [get_filtered hlaid.bloomFilter_eq hlaid.hasBloom_eq, h.counted]
    cases hmay : (filterOf pairs).mayContain k with
    | true => exact ⟨r, hr, rfl, rfl⟩
    | false =>
      -- the filter hides only what is not found anyway
      have hnone : lookupPast k (cutBlocks [] (tableEntries pairs)) = none := by
        by_contra hne
        exact h.hidden k hmay ((hshown k).1 hne)
      rw [hnone] at hans
      exact ⟨_, rfl, hans.missing rfl, hans.value⟩

end withstands

/-! ## Every damage -/

section written

variable {pairs : List (Bytes × Bytes)} {number : ℕ} {bad : Bytes}

/-- Damage to a data block the builder noted. -/
theorem Written.withstands_data (h : Written pairs) {info : BlockInfo}
    (hbad : Damaged pairs (.data info) bad) :
    Withstands number (build pairs) bad ↔ (filterOf pairs).dividesByZero = false ∧ FrontLengths bad := by
  obtain ⟨blocks, hok, hread, hcut, -, hbuild, hinfos, hsize⟩ := h.layout
  obtain ⟨hopen, hlaid⟩ := openFile_laid hcut hread.bounded hsize number
  obtain ⟨hinfo, hdamage⟩ := hbad
  rw [hinfos] at hinfo
  obtain ⟨j, hj⟩ := List.mem_iff_getElem?.1 hinfo
  rw [infosFrom_getElem?, Option.map_eq_some_iff] at hj
  obtain ⟨b, hb, rfl⟩ := hj
  rw [hbuild, Nat.zero_add] at hdamage
  obtain ⟨block, rest, hdata, hl, hcrc, hfront, hnot⟩ :=
    openFile_of_data_damage hread hok hsize hb hdamage number
  rw [← hbuild] at hopen
  by_cases hlengths : FrontLengths bad
  · obtain ⟨firstKey, hopen'⟩ := hfront hlengths
    rw [and_iff_left hlengths]
    exact MiniLSM.withstands_data hlaid hopen hopen' rfl rfl rfl hb hdata hl hcrc
  · -- `Open` does not return
    refine iff_of_false ?_ fun h => hlengths h.2
    rintro (⟨msg, herr⟩ | ⟨_, u, -, hu, -⟩)
    · rw [hnot hlengths] at herr
      cases herr
    · rw [hnot hlengths] at hu
      cases hu

/-- Damage to the index block fails `Open`. -/
theorem Written.openFile_of_index_damage (h : Written pairs) (hbad : Damaged pairs .index bad) :
    SSTable.openFile number bad =
      .error (.status (.corruption "SSTable::Open: index block CRC mismatch")) := by
  obtain ⟨blocks, -, -, -, -, hbuild, -, hsize⟩ := h.layout
  obtain ⟨-, h0, h8, -⟩ := SSTable.partsBytes_field (parts_lt hsize)
  rw [Damaged, hbuild] at hbad
  refine MiniLSM.openFile_of_index_damage hsize ?_ number
  rw [← h0, ← h8]
  exact hbad

/-- Damage to the Bloom block. -/
theorem Written.withstands_bloom (h : Written pairs) (hbad : Damaged pairs .bloom bad) :
    Withstands number (build pairs) bad ↔ NoneHidden pairs := by
  obtain ⟨blocks, -, hread, hcut, -, hbuild, -, hsize⟩ := h.layout
  obtain ⟨hopen, hlaid⟩ := openFile_laid hcut hread.bounded hsize number
  obtain ⟨-, -, -, h16, h24, -⟩ := SSTable.partsBytes_field (parts_lt hsize)
  rw [Damaged, hbuild] at hbad
  obtain ⟨rest, hdata, hopen'⟩ := openFile_of_bloom_damage hread hsize
    (by rw [← h16, ← h24]; exact hbad) number
  rw [← hbuild] at hopen
  exact MiniLSM.withstands_bloom hlaid hopen hopen' rfl rfl hdata

/-- **Few keys**: below 429,496,729 pairs the filter hides none of them. -/
theorem noneHidden_of_few (h : pairs.length < 429496729) : NoneHidden pairs := by
  obtain ⟨hz, hmay⟩ := filterOf_small h
  refine ⟨hz, fun k hhidden hshown => ?_⟩
  rw [hmay k hshown.mem] at hhidden
  cases hhidden

end written

/-- **A burst in a block of a table file** shows as Corruption or does no harm, in `Open` or in
every `Get`, if and only if the block is safe. -/
theorem withstands_iff_safe {pairs : List (Bytes × Bytes)} (h : Written pairs) (number : ℕ) {p : CheckedBlock}
    {bad : Bytes} (hbad : Damaged pairs p bad) :
    Withstands number (build pairs) bad ↔ p.Safe pairs bad := by
  cases p with
  | data info => exact h.withstands_data hbad
  | index => exact iff_of_true (Or.inl ⟨_, h.openFile_of_index_damage hbad⟩) trivial
  | bloom => exact h.withstands_bloom hbad

/-- A table of one pair, after a change in its Bloom block. -/
theorem withstands_iff_safe_small : Withstands 1 (build [([97], [1])])
    ((build [([97], [1])]).set (footerField (build [([97], [1])]) 16) 11) := by
  have hw : Written [([97], [1])] := ⟨by decide +kernel, by decide +kernel, by decide +kernel⟩
  have hbad : Damaged [([97], [1])] .bloom
      ((build [([97], [1])]).set (footerField (build [([97], [1])]) 16) 11) :=
    damagedAt_set (x := 10) (by decide +kernel) (by decide) (by decide +kernel)
  exact (withstands_iff_safe hw 1 hbad).2 (noneHidden_of_few (by decide))

/-! ## A filter that hides its only key -/

/-- `n` times the same pair. -/
def crowded (n : ℕ) : List (Bytes × Bytes) := List.replicate n ([97], [1])

theorem crowded_keys (n : ℕ) : (crowded n).map Prod.fst = List.replicate n [97] := by
  rw [crowded, List.map_replicate]

theorem hidden_crowded {n : ℕ} (hn : n = 429496730) (k : Bytes) :
    (filterOf (crowded n)).mayContain k = false := by
  have hprobes : ∀ i < numProbes 10,
      8 ≤ (fnvHash [97] + UInt32.ofNat i * bloomDelta (fnvHash [97])).toNat := by decide +kernel
  apply BloomFilter.mayContain_of_head
  · rw [filterOf]
    exact (show (0 : ℤ) < (numProbes 10 : ℤ) by decide)
  · rw [filterOf, BloomFilter.filterBits_length, crowded_keys, List.length_replicate, hn]
    omega
  · rw [filterOf, crowded_keys]
    apply BloomFilter.filterBits_replicate_head
    intro i hi
    have hlt := (fnvHash [97] + UInt32.ofNat i * bloomDelta (fnvHash [97])).toNat_lt
    rw [Nat.mod_eq_of_lt (by omega)]
    exact hprobes i hi

theorem mem_crowded {n : ℕ} {e : Bytes × Bytes} (he : e ∈ tableEntries (crowded n)) :
    extractUserKey e.1 = [97] ∧ e.1.length = 9 ∧ e.2 = [1] := by
  obtain ⟨p, hp, s, rfl⟩ := mem_entriesFrom he
  obtain rfl := List.eq_of_mem_replicate hp
  exact ⟨extractUserKey_makeInternalKey _ _ _, by rw [makeInternalKey_length]; rfl, rfl⟩

theorem written_crowded {n : ℕ} (hn : n = 429496730) : Written (crowded n) := by
  obtain ⟨blocks, hok, hcut, -, -, hinfos⟩ := build_layout (crowded n)
  have hentry : ∀ e ∈ tableEntries (crowded n), (encodeEntry e.1 e.2).length ≤ 25 := by
    intro e he
    obtain ⟨-, hkey, hvalue⟩ := mem_crowded he
    have hle := encodeEntry_length_le e.1 e.2
    have hone : e.2.length = 1 := by rw [hvalue]; rfl
    omega
  have hlength : (tableEntries (crowded n)).length = n := by
    rw [tableEntries, entriesFrom_length, crowded, List.length_replicate]
  have hblocks : blocks.length * 4000 ≤ n * 25 + 4000 := by
    have hcount := @cutBlocks_length_le 4000 [] (tableEntries (crowded n)) (by
      intro e he
      have := hentry e he
      rw [show blockSize = 4096 from rfl]
      omega)
    have htotal := entriesBytes_length_le hentry
    rw [← hcut, List.length_map, show (entriesBytes []).length = 0 from rfl] at hcount
    rw [hlength] at htotal
    omega
  refine ⟨?_, ?_, ?_⟩
  · rw [← hcut]
    intro es hes
    obtain ⟨b, hb, rfl⟩ := List.mem_map.1 hes
    rcases (hok b hb).small with h1 | h4
    · have hsmall := @entriesBytes_length_le 25 b.entries fun e he => hentry e (by
        rw [← flatMap_entries_of_cut hcut]
        exact List.mem_flatMap.2 ⟨b, hb, he⟩)
      have := Nat.mul_le_mul_right 25 h1
      omega
    · have : blockSize = 4096 := rfl
      omega
  · have hkeys : ∀ info ∈ infosFrom 0 blocks, info.lastKey.length ≤ 9 := by
      intro info hinfo
      obtain ⟨pre, b, post, rfl, rfl⟩ := mem_infosFrom hinfo
      obtain ⟨e, he, heq⟩ := DataBlock.exists_lastKey (hok b (by simp)).ne
      have hmem : e ∈ tableEntries (crowded n) := by
        rw [← flatMap_entries_of_cut hcut]
        exact List.mem_flatMap.2 ⟨b, by simp, he⟩
      rw [heq]
      exact (mem_crowded hmem).2.1.le
    have hindex := indexBytes_length_le hkeys
    rw [infosFrom_length] at hindex
    have hblock := indexBlock_length_le (infosFrom 0 blocks)
    rw [hinfos]
    omega
  · rw [bloomBlock, List.length_append, encodeFixed32_length, BloomFilter.createFilter_length,
      List.length_map, crowded, List.length_replicate, hn]
    decide

theorem shown_crowded {n : ℕ} (hn : n = 429496730) :
    Shown [97] (cutBlocks [] (tableEntries (crowded n))) := by
  obtain ⟨blocks, hok, hcut, -⟩ := build_layout (crowded n)
  set bs := cutBlocks [] (tableEntries (crowded n)) with hbs
  have hflat : bs.flatten = tableEntries (crowded n) := by rw [hbs, cutBlocks_flatten, List.nil_append]
  have hpos : 0 < bs.length := by
    apply List.length_pos_iff.2
    intro hnil
    have hlen := congrArg List.length hflat
    rw [hnil, tableEntries, entriesFrom_length, crowded, List.length_replicate, hn] at hlen
    cases hlen
  -- wherever the search ends, there is a block, and all its entries are of the one key
  have hlt : Search.lowerBound (endsBelow [97] bs) bs.length 0 (bs.length - 1) < bs.length := by
    have := (Search.lowerBound_mem (Nat.zero_le _) :
      0 ≤ Search.lowerBound (endsBelow [97] bs) bs.length 0 (bs.length - 1) ∧ _).2
    omega
  have hkey : ∀ e ∈ searched [97] bs, extractUserKey e.1 = [97] := fun e he =>
    (mem_crowded (hflat ▸ mem_flatten_of_mem_searched he)).1
  have hblocks : ∀ es ∈ bs, es ≠ [] := by
    rw [← hcut]
    intro es hes
    obtain ⟨b, hb, rfl⟩ := List.mem_map.1 hes
    exact (hok b hb).ne
  have hne : searched [97] bs ≠ [] := by
    rw [searched, List.getD_eq_getElem _ _ hlt]
    exact hblocks _ (List.getElem_mem hlt)
  obtain ⟨e, es, hes⟩ := List.exists_cons_of_ne_nil hne
  unfold Shown
  simp only [hes] at hkey ⊢
  have he := hkey e List.mem_cons_self
  rw [before_cons_self he]
  exact ⟨by simp [userPairs, he], by simp⟩

/-- The file of `n` equal pairs after the first byte of its Bloom block has changed from 10 to 11. -/
def crowdedDamage (n : ℕ) : Bytes :=
  (build (crowded n)).set (footerField (build (crowded n)) 16) 11

theorem damaged_crowded {n : ℕ} (hn : n = 429496730) :
    Damaged (crowded n) .bloom (crowdedDamage n) := by
  obtain ⟨blocks, -, -, -, -, hbuild, -, hsize⟩ := (written_crowded hn).layout
  obtain ⟨-, -, -, h16, h24, -⟩ := SSTable.partsBytes_field (parts_lt hsize)
  change footerField (fileBytes blocks ((crowded n).map Prod.fst)) 16 = _ at h16
  change footerField (fileBytes blocks ((crowded n).map Prod.fst)) 24 = _ at h24
  rw [Damaged, crowdedDamage, hbuild]
  refine damagedAt_set (x := 10) ?_ (by decide) ?_
  · -- the block starts with `bits_per_key`
    rw [h16, fileBytes, ← List.append_assoc, List.getElem?_append_right (by rw [List.length_append]),
      List.length_append, Nat.sub_self]
    rfl
  · rw [h24, bloomBlock, List.length_append, encodeFixed32_length, BloomFilter.createFilter_length]
    omega

/-- **A damaged Bloom block can change an answer**: the filter over 429,496,730 keys has
`2 ^ 32 + 8` bits and hides the key that is found without it. -/
theorem damage_unhides : Written (crowded 429496730) ∧
    Damaged (crowded 429496730) .bloom (crowdedDamage 429496730) ∧
    ∀ number, ¬Withstands number (build (crowded 429496730)) (crowdedDamage 429496730) := by
  refine ⟨written_crowded rfl, damaged_crowded rfl, fun number h => ?_⟩
  have hnone := ((written_crowded rfl).withstands_bloom (damaged_crowded rfl)).1 h
  exact hnone.hidden [97] (hidden_crowded rfl [97]) (shown_crowded rfl)

end MiniLSM
