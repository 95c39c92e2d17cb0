import MiniLSM.Proof.RoundTrip

/-!
# Seeking in a table

`Seek` and `Get` search the index alike, but in the block `Seek` stops at the first internal key
that is not below the lookup key, and `Get` at the first user key that is not below `k`.

* `Laid.seek_yields`: where `Seek` leaves the iterator of a table.
* `seek_agrees_iff`: when `Seek` ends on an entry of `k` exactly if `Get` finds one.
* `seek_differs`: a table without entries, and one in which a shorter key stands in front.
-/

namespace MiniLSM

namespace SSTableIterator

variable {it : SSTableIterator} {t : SSTable} {pairs : List (Bytes × Bytes)}
  {blocks bs₁ bs₂ : List DataBlock} {b : DataBlock} {xs ys : List (Bytes × Bytes)}

/-! ## Where `Seek` ends -/

/-- `Next` at the end of a block goes to the blocks behind it. -/
theorem next_behind (ht : Laid t pairs blocks) (hblocks : blocks = bs₁ ++ b :: bs₂)
    (h : it.At t bs₁ b b.entries) :
    ∃ it', it.next = .ok it' ∧ it'.table = t ∧ Yields it' (bs₂.flatMap DataBlock.entries) := by
  have hindex : t.index.length = bs₁.length + 1 + bs₂.length := by
    rw [ht.index_eq, hblocks]; simp; omega
  have hend : ¬it.pos < it.entriesEnd := by rw [h.pos, h.entriesEnd]; omega
  cases bs₂ with
  | nil =>
    refine ⟨{ it with currentBlockIdx := it.currentBlockIdx + 1, valid := false }, ?_, h.table, rfl⟩
    rw [next, if_neg hend]
    simp only [pure_bind, if_neg hend]
    rw [if_pos (by rw [h.table, h.idx, hindex]; simp)]
    rfl
  | cons c bs₂ =>
    have hc := ht.readable.bounded c (by rw [hblocks]; simp)
    obtain ⟨e, ys, hces⟩ := List.exists_cons_of_ne_nil hc.ne
    have hblocks' : blocks = (bs₁ ++ [b]) ++ c :: bs₂ := by rw [hblocks]; simp
    obtain ⟨it', henter, hat, hv, hk, hval⟩ := enterBlock_at ht.spread hblocks' h.table hces
    have hy := yields_of_on ht.spread hblocks' (show c.entries = [] ++ e :: ys from hces) ⟨hat, hv, hk, hval⟩
    refine ⟨it', ?_, hat.table, by simpa [hces] using hy⟩
    rw [next, if_neg hend]
    simp only [pure_bind, if_neg hend]
    rw [if_neg (by rw [h.table, h.idx, hindex]; simp), h.idx]
    rw [List.length_append, List.length_singleton] at henter
    exact henter

/-- The scan of `Seek` inside a block. -/
theorem seekInBlock_at (ht : Laid t pairs blocks) (hblocks : blocks = bs₁ ++ b :: bs₂)
    (lookupKey : Bytes) {n : ℕ} (h : it.At t bs₁ b xs) (hes : b.entries = xs ++ ys) (hn : ys.length ≤ n) :
    ∃ it', seekInBlock lookupKey n it = .ok it' ∧ it'.table = t ∧
      Yields it' (ys.dropWhile (fun e => e.1 < lookupKey) ++ bs₂.flatMap DataBlock.entries) := by
  have hb := ht.readable.bounded b (by rw [hblocks]; simp)
  induction ys generalizing it xs n with
  | nil =>
    rw [List.append_nil] at hes
    obtain ⟨it', hnext, htable, hy⟩ := @next_behind { it with valid := false } _ _ _ _ _ _ ht hblocks
      ⟨h.table, h.idx, h.blockData, h.entriesEnd, by rw [hes]; exact h.pos⟩
    refine ⟨it', ?_, htable, hy⟩
    cases n with
    | zero => exact hnext
    | succ n => rw [seekInBlock, if_pos (by rw [h.entriesEnd, h.pos, hes]), hnext]
  | cons e ys ih =>
    obtain ⟨n, rfl⟩ : ∃ m, n = m + 1 := ⟨n - 1, by simp at hn; omega⟩
    obtain ⟨s, a, c, hentry⟩ := entryAt_block hb hes
    have hsize := hentry.size
    have hin := hentry.inside
    have ha := hentry.keyLen_pos
    have hend := entriesBytes_cons_length xs ys e
    rw [← hes] at hend
    have hpos : ¬it.entriesEnd ≤ it.pos := by rw [h.entriesEnd, h.pos]; omega
    rw [seekInBlock, if_neg hpos]
    simp only [bind, Except.bind, h.blockData, h.pos, hentry.shared, hentry.keyLen, sliceAt]
    rw [if_neg (by omega)]
    simp only [hentry.keyAt, hentry.valueLen, ne_eq, Slice.compare_eq_lt]
    by_cases hlt : e.1 < lookupKey
    · rw [if_neg (not_not.2 hlt), List.dropWhile_cons_of_pos (by simpa using hlt)]
      have hskip : (entriesBytes xs).length + s + a + e.1.length + c + e.2.length =
          (entriesBytes (xs ++ [e])).length := by
        have hlen := entriesBytes_cons_length xs [] e
        simp only [entriesBytes, List.flatMap_nil, List.length_nil] at hlen ⊢
        omega
      rw [hskip]
      exact @ih { it with blockData := b.bytes, pos := (entriesBytes (xs ++ [e])).length } (xs ++ [e]) n
        ⟨h.table, h.idx, rfl, h.entriesEnd, rfl⟩ (by rw [hes]; simp) (by simpa using hn)
    · rw [if_pos hlt, List.dropWhile_cons_of_neg (by simpa using hlt)]
      obtain ⟨it', hparse, hat, hv, hk, hval⟩ := parseCurrentEntry_at hb h hes
      exact ⟨it', hparse, hat.table, yields_of_on ht.spread hblocks hes ⟨hat, hv, hk, hval⟩⟩

end SSTableIterator

/-- The block at which the search over the index ends. -/
def searchedBlock (k : Bytes) (bs : List (List (Bytes × Bytes))) : ℕ :=
  Search.lowerBound (endsBelow k bs) bs.length 0 (bs.length - 1)

/-- What lies before an iterator behind `Seek`: the entries of the searched block from the first one
on that is not below the lookup key, and those of the blocks behind. -/
def seekEntries (k : Bytes) (bs : List (List (Bytes × Bytes))) : List (Bytes × Bytes) :=
  (bs.getD (searchedBlock k bs) []).dropWhile (fun e => e.1 < makeLookupKey k) ++
    (bs.drop (searchedBlock k bs + 1)).flatten

section seeking

variable {t : SSTable} {pairs : List (Bytes × Bytes)} {blocks : List DataBlock} {k : Bytes}

/-- The index search, seen from the blocks. -/
theorem Laid.target_eq_searchedBlock (ht : Laid t pairs blocks) (k : Bytes) :
    Laid.target t k = searchedBlock k (blocks.map DataBlock.entries) := by
  rw [ht.target_eq, searchedBlock, List.length_map]

/-- **Where `Seek` leaves the iterator of a table**, wherever it stood. -/
theorem Laid.seek_yields (ht : Laid t pairs blocks) (hne : blocks ≠ []) {it : SSTableIterator}
    (htable : it.table = t) (k : Bytes) : ∃ it', it.seek k = .ok it' ∧ it'.table = t ∧
      Yields it' (seekEntries k (blocks.map DataBlock.entries)) := by
  obtain ⟨b, hb⟩ : ∃ b, blocks[Laid.target t k]? = some b :=
    ⟨_, List.getElem?_eq_getElem (ht.target_lt hne k)⟩
  obtain ⟨hlt, hget⟩ := List.getElem?_eq_some_iff.1 hb
  have hsplit : blocks = blocks.take (Laid.target t k) ++ b :: blocks.drop (Laid.target t k + 1) := by
    rw [← hget]; simp
  have hlen : (blocks.take (Laid.target t k)).length = Laid.target t k := by
    rw [List.length_take]; omega
  obtain ⟨it₁, hload, hat⟩ := SSTableIterator.loadCurrentBlock_at ht.spread hsplit htable
  rw [hlen] at hload
  have hentries : (entriesBytes b.entries).length ≤ b.bytes.length := by rw [b.bytes_length]; omega
  obtain ⟨it', hseek, htable', hy⟩ := SSTableIterator.seekInBlock_at ht hsplit (makeLookupKey k)
    (n := it₁.blockData.length) hat (List.nil_append _).symm
    (by rw [hat.blockData]; exact (length_le_entriesBytes _).trans hentries)
  refine ⟨it', ?_, htable', ?_⟩
  · rw [Laid.target, ← htable] at hload
    rw [SSTableIterator.seek]
    simp only [hload, bind, Except.bind]
    exact hseek
  · rw [seekEntries, ← ht.target_eq_searchedBlock, List.getD_eq_getElem?_getD, List.getElem?_map, hb,
      ← List.map_drop, ← List.flatMap_def]
    exact hy

/-! ## `Seek` beside `Get` -/

/-- What `Seek` and `Get` look into: the entries of the searched block. -/
def searchedEntries (pairs : List (Bytes × Bytes)) (k : Bytes) : List (Bytes × Bytes) :=
  let bs := cutBlocks [] (tableEntries pairs)
  bs.getD (searchedBlock k bs) []

/-- The entries that the scan of `Seek` passes. -/
theorem before_eq_takeWhile {b ys : List (Bytes × Bytes)} {e : Bytes × Bytes} (hs : ∀ e ∈ b, Stored e)
    (hdrop : b.dropWhile (fun e => decide (e.1 < makeLookupKey k)) = e :: ys)
    (hk : extractUserKey e.1 = k) :
    before k b = b.takeWhile fun e => decide (e.1 < makeLookupKey k) := by
  have hsplit := List.takeWhile_append_dropWhile (p := fun e => decide (e.1 < makeLookupKey k)) (l := b)
  rw [hdrop] at hsplit
  have hpass : ∀ x ∈ b.takeWhile (fun e => decide (e.1 < makeLookupKey k)), extractUserKey x.1 ≠ k := by
    -- an entry of `k` is not below the lookup key
    intro x hx heq
    have hlt : x.1 < makeLookupKey k := by simpa using List.mem_takeWhile_imp hx
    have hxb : x ∈ b := hsplit ▸ List.mem_append_left _ hx
    exact absurd hlt (not_lt.2 ((hs x hxb).le_of_le heq.ge))
  conv_lhs => rw [← hsplit]
  rw [before, List.takeWhile_append_of_pos (by simpa using hpass), List.takeWhile_cons_of_neg (by simpa using hk),
    List.append_nil]

/-- The scan of `Seek` ends on the first entry of `k` if all in front of it is below the lookup key. -/
theorem dropWhile_of_clear {b ys : List (Bytes × Bytes)} {e : Bytes × Bytes}
    (hs : ∀ e ∈ b, Stored e) (hes : b = before k b ++ e :: ys) (hk : extractUserKey e.1 = k)
    (hclear : ∀ e ∈ before k b, e.1 < makeLookupKey k) :
    b.dropWhile (fun e => decide (e.1 < makeLookupKey k)) = e :: ys := by
  have hle := (hs e (by rw [hes]; simp)).le_of_le hk.ge
  conv_lhs => rw [hes]
  rw [List.dropWhile_append_of_pos (by simpa using hclear), List.dropWhile_cons_of_neg (by simpa using hle)]

/-- Where all of the searched block is below the lookup key, no block is behind it. -/
theorem searchedBlock_last {bs : List (List (Bytes × Bytes))}
    (h : ∀ e ∈ bs.getD (searchedBlock k bs) [], e.1 < makeLookupKey k) :
    bs.drop (searchedBlock k bs + 1) = [] := by
  refine List.drop_eq_nil_of_le ?_
  by_contra hlt
  have hends : endsBelow k bs (searchedBlock k bs) = false :=
    Search.lowerBound_stops (by omega) (by rw [searchedBlock] at hlt; omega)
  rw [endsBelow, decide_eq_false_iff_not] at hends
  cases hl : (bs.getD (searchedBlock k bs) []).getLast? with
  | none => exact hends (by rw [hl, makeLookupKey_eq]; cases k <;> exact List.nil_lt_cons _ _)
  | some l => exact hends (by rw [hl]; exact h l (List.mem_of_getLast? hl))

/-- **`Seek` ends on the first entry of `k`** in the searched block, or on none of `k`. -/
theorem seekEntries_head {bs : List (List (Bytes × Bytes))} (hs : ∀ e ∈ bs.flatten, Stored e) {v : Bytes} :
    (∃ e ∈ (seekEntries k bs).head?, extractUserKey e.1 = k ∧ e.2 = v) ↔
      (∀ e ∈ before k (bs.getD (searchedBlock k bs) []), e.1 < makeLookupKey k) ∧
        (userPairs (bs.getD (searchedBlock k bs) [])).lookup k = some v := by
  have hsb : ∀ e ∈ bs.getD (searchedBlock k bs) [], Stored e := by
    intro e he
    rw [List.getD_eq_getElem?_getD] at he
    cases hget : bs[searchedBlock k bs]? with
    | none => simp [hget] at he
    | some c =>
      rw [hget] at he
      exact hs e (List.mem_flatten.2 ⟨c, List.mem_of_getElem? hget, he⟩)
  rw [seekEntries]
  constructor
  · rintro ⟨e, he, hk, rfl⟩
    cases hdrop : (bs.getD (searchedBlock k bs) []).dropWhile
        (fun e => decide (e.1 < makeLookupKey k)) with
    | nil =>
      have hlt := List.dropWhile_eq_nil_iff.1 hdrop
      rw [hdrop, searchedBlock_last (by simpa using hlt)] at he
      simp at he
    | cons x ys =>
      rw [hdrop, List.cons_append, List.head?_cons, Option.mem_some_iff] at he
      subst he
      have hbefore := before_eq_takeWhile hsb hdrop hk
      have hmem : k ∈ (userPairs (bs.getD (searchedBlock k bs) [])).map Prod.fst := by
        have hx := (List.dropWhile_sublist _).subset (hdrop ▸ List.mem_cons_self)
        exact List.mem_map.2 ⟨_, List.mem_map_of_mem hx, hk⟩
      obtain ⟨e, zs, hes, -, hlook⟩ := exists_before hmem
      have hsplit := List.takeWhile_append_dropWhile
        (p := fun e => decide (e.1 < makeLookupKey k)) (l := bs.getD (searchedBlock k bs) [])
      rw [hdrop, ← hbefore] at hsplit
      obtain ⟨rfl, -⟩ := List.cons.inj (List.append_cancel_left (hsplit.trans hes))
      refine ⟨fun y hy => ?_, hlook⟩
      rw [hbefore] at hy
      simpa using List.mem_takeWhile_imp hy
  · rintro ⟨hclear, hlook⟩
    have hmem : k ∈ (userPairs (bs.getD (searchedBlock k bs) [])).map Prod.fst := by
      by_contra hnot
      rw [lookup_eq_none hnot] at hlook
      simp at hlook
    obtain ⟨e, ys, hes, hk, hlook'⟩ := exists_before hmem
    rw [dropWhile_of_clear hsb hes hk hclear]
    exact ⟨e, rfl, hk, Option.some.inj (hlook'.symm.trans hlook)⟩

/-- `Seek(k)` reads inside the index and the blocks, wherever the iterator of the table stood, and
**agrees with `Get(k)`**: it ends on an entry of `k` with the value `v` if and only if `Get` returns
OK with `v`. -/
def SeekAgrees (t : SSTable) (k : Bytes) : Prop :=
  ∀ it : SSTableIterator, it.table = t → ∃ it', it.seek k = .ok it' ∧
    ∀ v, (it'.valid = true ∧ extractUserKey it'.keyBuf = k ∧ it'.valueBuf = v) ↔
      t.get k = .ok (.OK, some v)

/-- What an iterator ends on is the first entry it yields. -/
theorem yields_head_iff {it : SSTableIterator} {es : List (Bytes × Bytes)} (h : Yields it es) {v : Bytes} :
    (it.valid = true ∧ extractUserKey it.keyBuf = k ∧ it.valueBuf = v) ↔
      ∃ e ∈ es.head?, extractUserKey e.1 = k ∧ e.2 = v := by
  cases es with
  | nil =>
    have hv : it.valid = false := h
    simp [hv]
  | cons e es =>
    obtain ⟨hv, hk, hval, -⟩ := h
    have hv' : it.valid = true := hv
    have hk' : it.keyBuf = e.1 := hk
    have hval' : it.valueBuf = e.2 := hval
    simp [hv', hk', hval']

/-- Among sorted user keys the scan of `Get` finds the first entry of `k`. -/
theorem scan_of_sorted {b : List (Bytes × Bytes)} (hs : ∀ e ∈ b, Stored e)
    (hsorted : (userPairs b).Pairwise fun p q => p.1 ≤ q.1) : scan k b = (userPairs b).lookup k := by
  by_cases hk : k ∈ (userPairs b).map Prod.fst
  · obtain ⟨e, ys, hes, hek, -⟩ := exists_before hk
    refine scan_of_clear hs hk fun f hf => ?_
    rw [userPairs, List.pairwise_map, hes, List.pairwise_append] at hsorted
    exact hek ▸ hsorted.2.2 f hf e List.mem_cons_self
  · rw [lookup_eq_none hk]
    cases hscan : scan k b with
    | none => rfl
    | some v => exact absurd (List.mem_map_of_mem (scan_eq_some hscan)) hk

/-- `Get` finds the first entry of `k` in the searched block, if the Bloom filter lets it. -/
theorem Laid.get_eq_some_iff (ht : Laid t pairs blocks) (hne : blocks ≠ [])
    (hsorted : pairs.Pairwise fun p q => p.1 ≤ q.1) {v : Bytes} :
    t.get k = .ok (.OK, some v) ↔
      ((filterOf pairs).dividesByZero = false ∧ (filterOf pairs).mayContain k = true) ∧
        (userPairs (searchedEntries pairs k)).lookup k = some v := by
  have hfilter : t.bloomFilter = filterOf pairs := by rw [ht.table]; rfl
  obtain ⟨b, hb⟩ : ∃ b, blocks[target t k]? = some b :=
    ⟨_, List.getElem?_eq_getElem (ht.target_lt hne k)⟩
  have hsearched : searchedEntries pairs k = b.entries := by
    rw [searchedEntries, ← ht.cut, ← ht.target_eq_searchedBlock, List.getD_eq_getElem?_getD,
      List.getElem?_map, hb]
    rfl
  have hmem : b.entries.Sublist (tableEntries pairs) := by
    rw [← ht.flatten]
    exact List.sublist_flatten_of_mem (List.mem_map_of_mem (List.mem_of_getElem? hb))
  have hscan : scan k b.entries = (userPairs b.entries).lookup k := by
    refine scan_of_sorted (fun e he => stored_tableEntries (hmem.subset he)) ?_
    rw [← userPairs_tableEntries pairs] at hsorted
    exact hsorted.sublist (hmem.map _)
  rw [hsearched, ← hscan, ← hfilter]
  rw [SSTable.get_eq, ht.hasBloom_eq, Bool.true_and, Bool.true_and]
  cases hz : t.bloomFilter.dividesByZero with
  | true => simp
  | false =>
    cases hmay : t.bloomFilter.mayContain k with
    | false => simp
    | true =>
      obtain ⟨r, hr, hans⟩ := ht.getPast_scan hb
      simp only [Bool.false_eq_true, if_false, Bool.not_true, hr, true_and, Except.ok.injEq]
      rw [← hans.value]
      constructor
      · rintro rfl
        rfl
      · intro hv
        exact Prod.ext (hans.found (by rw [← hans.value, hv]; simp)) hv

/-- Where `Seek` ends, in the searched block. -/
theorem Laid.seek_ends (ht : Laid t pairs blocks) (hne : blocks ≠ []) {it : SSTableIterator}
    (htable : it.table = t) : ∃ it', it.seek k = .ok it' ∧ ∀ v,
      ((it'.valid = true ∧ extractUserKey it'.keyBuf = k ∧ it'.valueBuf = v) ↔
        (∀ e ∈ before k (searchedEntries pairs k), e.1 < makeLookupKey k) ∧
          (userPairs (searchedEntries pairs k)).lookup k = some v) := by
  obtain ⟨it', hseek, -, hy⟩ := ht.seek_yields hne htable k
  refine ⟨it', hseek, fun v => ?_⟩
  have hsearched : (blocks.map DataBlock.entries).getD
      (searchedBlock k (blocks.map DataBlock.entries)) [] = searchedEntries pairs k := by
    rw [searchedEntries, ← ht.cut]
  rw [yields_head_iff hy, seekEntries_head ht.stored, hsearched]

/-- Agreeing takes two conditions on the searched block to be one. -/
theorem Laid.seekAgrees_iff (ht : Laid t pairs blocks) (hne : blocks ≠ [])
    (hsorted : pairs.Pairwise fun p q => p.1 ≤ q.1) : SeekAgrees t k ↔ ∀ v,
      ((∀ e ∈ before k (searchedEntries pairs k), e.1 < makeLookupKey k) ∧
          (userPairs (searchedEntries pairs k)).lookup k = some v ↔
        ((filterOf pairs).dividesByZero = false ∧ (filterOf pairs).mayContain k = true) ∧
          (userPairs (searchedEntries pairs k)).lookup k = some v) := by
  constructor
  · intro hagree v
    obtain ⟨it', hseek, hends⟩ := ht.seek_ends hne (show ({ table := t } : SSTableIterator).table = t from rfl)
    obtain ⟨it'', hseek', hget⟩ := hagree { table := t } rfl
    obtain rfl := Except.ok.inj (hseek.symm.trans hseek')
    rw [← hends, hget, ht.get_eq_some_iff hne hsorted]
  · intro hsame it htable
    obtain ⟨it', hseek, hends⟩ := ht.seek_ends hne htable
    refine ⟨it', hseek, fun v => ?_⟩
    rw [hends, hsame, ht.get_eq_some_iff hne hsorted]

/-- On a table without entries `Seek` takes the first of no index entries. -/
theorem seek_of_empty {it : SSTableIterator} (h : it.table.index = []) (k : Bytes) :
    it.seek k = .error .outOfBounds := by
  rw [SSTableIterator.seek, h]
  simp only [SSTableIterator.loadCurrentBlock, h]
  rfl

/-- Among sorted user keys the search over the index does not pass the first block of a key. -/
theorem searchedBlock_le {bs : List (List (Bytes × Bytes))} (hne : ∀ b ∈ bs, b ≠ [])
    (hs : ∀ e ∈ bs.flatten, Stored e) (hsorted : (userPairs bs.flatten).Pairwise fun p q => p.1 ≤ q.1)
    (hk : k ∈ (userPairs bs.flatten).map Prod.fst) : searchedBlock k bs ≤ firstBlock k bs :=
  Search.lowerBound_le (Nat.zero_le _) fun _ hi hlt =>
    endsBelow_of_sorted hne hs hsorted hk hi (by omega)

/-- It ends there if and only if it is led there. -/
theorem searchedBlock_eq_iff {bs : List (List (Bytes × Bytes))} (hne : ∀ b ∈ bs, b ≠ [])
    (hs : ∀ e ∈ bs.flatten, Stored e) (hsorted : (userPairs bs.flatten).Pairwise fun p q => p.1 ≤ q.1)
    (hk : k ∈ (userPairs bs.flatten).map Prod.fst) :
    searchedBlock k bs = firstBlock k bs ↔ Reached k bs := by
  obtain ⟨b, hb, -, -⟩ := firstBlock_spec hk
  have hlt := (List.getElem?_eq_some_iff.1 hb).1
  rw [← inTable_iff_reached hne hs hsorted hk, searchedBlock,
    Search.lowerBound_eq_iff (Nat.zero_le _) (by omega) (by omega)]
  exact ⟨fun h => ⟨h, before_of_sorted hsorted hk⟩, fun h => h.found⟩

/-- The searched block has an entry of `k` if and only if the table has one and the search over the
index reaches the first block with one. -/
theorem mem_searchedBlock_iff {bs : List (List (Bytes × Bytes))} (hne : ∀ b ∈ bs, b ≠ [])
    (hs : ∀ e ∈ bs.flatten, Stored e)
    (hsorted : (userPairs bs.flatten).Pairwise fun p q => p.1 ≤ q.1) :
    k ∈ (userPairs (bs.getD (searchedBlock k bs) [])).map Prod.fst ↔
      k ∈ (userPairs bs.flatten).map Prod.fst ∧ Reached k bs := by
  constructor
  · intro h
    obtain ⟨b, hb⟩ : ∃ b, bs[searchedBlock k bs]? = some b := by
      cases hget : bs[searchedBlock k bs]? with
      | none => simp [List.getD_eq_getElem?_getD, hget, userPairs] at h
      | some b => exact ⟨b, rfl⟩
    rw [List.getD_eq_getElem?_getD, hb, Option.getD_some] at h
    have hk : k ∈ (userPairs bs.flatten).map Prod.fst := by
      obtain ⟨p, hp, hpk⟩ := List.mem_map.1 h
      exact List.mem_map.2 ⟨p, ((List.sublist_flatten_of_mem (List.mem_of_getElem? hb)).map _).subset hp, hpk⟩
    refine ⟨hk, (searchedBlock_eq_iff hne hs hsorted hk).1 ?_⟩
    exact (searchedBlock_le hne hs hsorted hk).eq_or_lt.resolve_right fun hlt =>
      not_mem_of_lt_firstBlock hb hlt h
  · rintro ⟨hk, hreached⟩
    obtain ⟨b, hb, hkb, -⟩ := firstBlock_spec hk
    rw [(searchedBlock_eq_iff hne hs hsorted hk).2 hreached, List.getD_eq_getElem?_getD, hb]
    exact hkb

/-- The entries in front of the first one of `k` in its block. -/
def inFront (pairs : List (Bytes × Bytes)) (k : Bytes) : List (Bytes × Bytes) :=
  let bs := cutBlocks [] (tableEntries pairs)
  before k (bs.getD (firstBlock k bs) [])

/-- **`Seek` agrees with `Get`** on a table of sorted user keys if and only if the table has an
entry and, for a key of the table whose first block the search over the index reaches, the Bloom
filter lets the key through exactly if all in front of it in that block is below its lookup key. -/
theorem seek_agrees_iff {pairs : List (Bytes × Bytes)} (h : Written pairs)
    (hsorted : pairs.Pairwise fun p q => p.1 ≤ q.1) (number : ℕ) (k : Bytes) :
    ∃ t, SSTable.openFile number (SSTableBuilder.build pairs) = .ok t ∧ (SeekAgrees t k ↔ pairs ≠ [] ∧
      (k ∈ pairs.map Prod.fst → Reached k (cutBlocks [] (tableEntries pairs)) →
        ((filterOf pairs).dividesByZero = false ∧ (filterOf pairs).mayContain k = true ↔
          ∀ e ∈ inFront pairs k, e.1 < makeLookupKey k))) := by
  obtain ⟨blocks, -, hopen, ht⟩ := h.openFile number
  refine ⟨_, hopen, ?_⟩
  by_cases hne : blocks = []
  · have hnil : pairs = [] := by
      rw [← userPairs_tableEntries pairs, ← ht.entries, hne]; rfl
    refine iff_of_false (fun hagree => ?_) fun hand => hand.1 hnil
    obtain ⟨it', hseek, -⟩ := hagree { table := tableOf number blocks (pairs.map Prod.fst) } rfl
    rw [seek_of_empty (by rw [hne]; rfl)] at hseek
    simp at hseek
  · have hpairs : pairs ≠ [] := by
      rintro rfl
      exact hne (List.map_eq_nil_iff.1 ht.cut)
    have hflat : userPairs (blocks.map DataBlock.entries).flatten = pairs := by
      rw [ht.flatten, userPairs_tableEntries]
    have hmem := mem_searchedBlock_iff (k := k) ht.entries_ne ht.stored (by rwa [hflat])
    have heq := fun hk => (searchedBlock_eq_iff (k := k) ht.entries_ne ht.stored (by rwa [hflat]) hk).2
    rw [hflat, ht.cut] at hmem heq
    have hfront : k ∈ pairs.map Prod.fst → Reached k (cutBlocks [] (tableEntries pairs)) →
        inFront pairs k = before k (searchedEntries pairs k) := by
      intro hk hreached
      rw [inFront, searchedEntries, heq hk hreached]
    rw [ht.seekAgrees_iff hne hsorted, and_iff_right hpairs]
    constructor
    · intro hsame hk hreached
      obtain ⟨e, ys, -, -, hlook⟩ := exists_before (hmem.2 ⟨hk, hreached⟩)
      have hv := hsame e.2
      rw [searchedEntries, hlook, and_iff_left rfl, and_iff_left rfl] at hv
      rw [hfront hk hreached]
      exact hv.symm
    · intro hbloom v
      by_cases hk : k ∈ (userPairs (searchedEntries pairs k)).map Prod.fst
      · obtain ⟨hkp, hreached⟩ := hmem.1 hk
        rw [← hfront hkp hreached, hbloom hkp hreached]
      · simp [lookup_eq_none hk]

/-- Three pairs in one block, two of them of the key looked up. -/
theorem seek_agrees_iff_small : ∃ t,
    SSTable.openFile 1 (SSTableBuilder.build [([97], [1]), ([97], [2]), ([98], [])]) = .ok t ∧
      SeekAgrees t [97] := by
  have hw : Written [([97], [1]), ([97], [2]), ([98], [])] :=
    ⟨by decide +kernel, by decide +kernel, by decide +kernel⟩
  obtain ⟨hz, hbloom⟩ := @filterOf_small [([97], [1]), ([97], [2]), ([98], [])] (by decide)
  obtain ⟨t, hopen, hiff⟩ := seek_agrees_iff hw (by decide) 1 [97]
  refine ⟨t, hopen, hiff.2 ⟨by decide, fun _ _ => iff_of_true ⟨hz, hbloom _ (by decide)⟩ ?_⟩⟩
  decide +kernel

/-- Two pairs in one block: the second key continues the first by a zero byte. -/
def prefixPairs : List (Bytes × Bytes) := [([97], [1]), ([97, 0], [2])]

/-- **`Seek` differs from `Get`**: on a table without entries it indexes outside the index, and
where a shorter key stands in front, which as raw bytes is above the lookup key, it ends on that. -/
theorem seek_differs :
    (∃ t, SSTable.openFile 1 (SSTableBuilder.build []) = .ok t ∧
      ∀ it : SSTableIterator, it.table = t → it.seek [97] = .error .outOfBounds) ∧
    ∃ t, SSTable.openFile 1 (SSTableBuilder.build prefixPairs) = .ok t ∧
      t.get [97, 0] = .ok (.OK, some [2]) ∧
      ∀ it : SSTableIterator, it.table = t → ∃ it', it.seek [97, 0] = .ok it' ∧
        ¬(it'.valid = true ∧ extractUserKey it'.keyBuf = [97, 0] ∧ it'.valueBuf = [2]) := by
  have hwnil : Written [] := ⟨by decide +kernel, by decide +kernel, by decide +kernel⟩
  have hw : Written prefixPairs := ⟨by decide +kernel, by decide +kernel, by decide +kernel⟩
  constructor
  · obtain ⟨blocks, -, hopen, ht⟩ := hwnil.openFile 1
    obtain rfl : blocks = [] := List.map_eq_nil_iff.1 ht.cut
    exact ⟨_, hopen, fun it htable => seek_of_empty (by rw [htable]; rfl) _⟩
  · obtain ⟨blocks, -, hopen, ht⟩ := hw.openFile 1
    have hne : blocks ≠ [] := by
      rintro rfl
      exact absurd ht.cut (by decide +kernel)
    refine ⟨_, hopen, ?_, fun it htable => ?_⟩
    · rw [ht.get_eq_some_iff hne (by decide +kernel)]
      decide +kernel
    · obtain ⟨it', hseek, hends⟩ := ht.seek_ends (k := [97, 0]) hne htable
      refine ⟨it', hseek, fun hand => ?_⟩
      exact absurd ((hends [2]).1 hand).1 (by decide +kernel)

end seeking

end MiniLSM
