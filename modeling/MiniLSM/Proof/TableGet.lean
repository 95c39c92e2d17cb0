import MiniLSM.Lib.Search
import MiniLSM.Proof.TableFile
import Mathlib.Data.List.TakeWhile

/-!
# Looking a key up in a table

The search over the index leads to a block, the scan of the block to its first entry with a
user key from `k` on.

* `InTable k bs`: between blocks `bs` the search leads to the first entry of `k`.
* `get_of_inTable`, `get_of_not_inTable`: what `SSTable::Get` returns then, and otherwise.
* `Shown k bs`: wherever the search leads, the scan comes to an entry of `k`.
-/

namespace MiniLSM

/-- `r` is the answer `v`: the value and a status to match. -/
structure Answers (r : Status × Option Bytes) (v : Option Bytes) : Prop where
  value : r.2 = v
  found : v ≠ none → r.1 = .OK
  missing : v = none → r.1.code = .notFound

@[simp] theorem extractUserKey_makeLookupKey (k : Bytes) : extractUserKey (makeLookupKey k) = k :=
  extractUserKey_makeInternalKey _ _ _

theorem stored_tableEntries {pairs : List (Bytes × Bytes)} {e : Bytes × Bytes}
    (h : e ∈ tableEntries pairs) : Stored e := by
  obtain ⟨p, -, s, rfl⟩ := mem_entriesFrom h
  exact ⟨p.1, s, rfl⟩

theorem userPairs_append (es fs : List (Bytes × Bytes)) :
    userPairs (es ++ fs) = userPairs es ++ userPairs fs := List.map_append

/-! ## In front of the first entry of a key -/

/-- The entries in front of the first one of `k`. -/
def before (k : Bytes) (es : List (Bytes × Bytes)) : List (Bytes × Bytes) :=
  es.takeWhile fun e => extractUserKey e.1 ≠ k

theorem before_cons_self {k : Bytes} {e : Bytes × Bytes} (h : extractUserKey e.1 = k)
    (es : List (Bytes × Bytes)) : before k (e :: es) = [] := by simp [before, h]

theorem before_cons_ne {k : Bytes} {e : Bytes × Bytes} (h : extractUserKey e.1 ≠ k)
    (es : List (Bytes × Bytes)) : before k (e :: es) = e :: before k es := by simp [before, h]

theorem ne_of_mem_before {k : Bytes} {es : List (Bytes × Bytes)} {e : Bytes × Bytes}
    (h : e ∈ before k es) : extractUserKey e.1 ≠ k := by
  simpa using List.mem_takeWhile_imp h

theorem lookup_cons_self' {k : Bytes} {e : Bytes × Bytes} (h : extractUserKey e.1 = k)
    (es : List (Bytes × Bytes)) : (userPairs (e :: es)).lookup k = some e.2 := by
  simp [userPairs, h]

theorem lookup_cons_ne {k : Bytes} {e : Bytes × Bytes} (h : extractUserKey e.1 ≠ k)
    (es : List (Bytes × Bytes)) : (userPairs (e :: es)).lookup k = (userPairs es).lookup k := by
  rw [userPairs, List.map_cons, List.lookup_cons, beq_false_of_ne (Ne.symm h)]
  rfl

theorem lookup_eq_none {k : Bytes} {ps : List (Bytes × Bytes)} (h : k ∉ ps.map Prod.fst) :
    ps.lookup k = none := by
  rw [List.lookup_eq_none_iff]
  intro p hp
  simpa using fun heq : k = p.1 => h (heq ▸ List.mem_map_of_mem hp)

/-- The first entry of a key. -/
theorem exists_before {k : Bytes} {es : List (Bytes × Bytes)} (h : k ∈ (userPairs es).map Prod.fst) :
    ∃ e ys, es = before k es ++ e :: ys ∧ extractUserKey e.1 = k ∧
      (userPairs es).lookup k = some e.2 := by
  induction es with
  | nil => simp [userPairs] at h
  | cons e es ih =>
    by_cases hk : extractUserKey e.1 = k
    · exact ⟨e, es, by rw [before_cons_self hk]; rfl, hk, lookup_cons_self' hk es⟩
    · obtain ⟨f, ys, hes, hf, hlook⟩ := ih (by simpa [userPairs, Ne.symm hk] using h)
      refine ⟨f, ys, ?_, hf, by rw [lookup_cons_ne hk, hlook]⟩
      rw [before_cons_ne hk, List.cons_append, ← hes]

/-! ## Inside a block -/

/-- What the scan of a block finds among its entries. -/
def scan (k : Bytes) : List (Bytes × Bytes) → Option Bytes
  | [] => none
  | e :: es =>
    if e.1 < makeLookupKey k ∨ extractUserKey e.1 < k then scan k es
    else if extractUserKey e.1 = k then some e.2 else none

/-- The scan finds only entries of `k`. -/
theorem scan_eq_some {k v : Bytes} {es : List (Bytes × Bytes)} (h : scan k es = some v) :
    (k, v) ∈ userPairs es := by
  induction es with
  | nil => simp [scan] at h
  | cons e es ih =>
    rw [scan] at h
    split at h
    · exact List.mem_cons_of_mem _ (ih h)
    · split at h
      · rename_i hk
        obtain rfl := Option.some.inj h
        rw [← hk]
        exact List.mem_cons_self
      · simp at h

/-- **The scan finds the first entry of `k`** behind smaller user keys. -/
theorem scan_of_clear {k : Bytes} {es : List (Bytes × Bytes)} (hs : ∀ e ∈ es, Stored e)
    (hk : k ∈ (userPairs es).map Prod.fst) (h : ∀ e ∈ before k es, extractUserKey e.1 ≤ k) :
    scan k es = (userPairs es).lookup k := by
  induction es with
  | nil => simp [userPairs] at hk
  | cons e es ih =>
    rw [scan]
    by_cases hek : extractUserKey e.1 = k
    · have hle := (hs e List.mem_cons_self).le_of_le hek.ge
      rw [if_neg (not_or.2 ⟨not_lt.2 hle, hek.not_lt⟩), if_pos hek, lookup_cons_self' hek]
    · rw [before_cons_ne hek] at h
      have hlt := lt_of_le_of_ne (h e List.mem_cons_self) hek
      rw [if_pos (Or.inr hlt), lookup_cons_ne hek]
      exact ih (fun x hx => hs x (List.mem_cons_of_mem _ hx)) (by simpa [userPairs, Ne.symm hek] using hk)
        fun x hx => h x (List.mem_cons_of_mem _ hx)

/-- **It finds nothing** when a greater user key comes first. -/
theorem scan_of_blocked {k : Bytes} {es : List (Bytes × Bytes)} (hs : ∀ e ∈ es, Stored e)
    (h : ∃ e ∈ before k es, k < extractUserKey e.1) : scan k es = none := by
  obtain ⟨f, hf, hfk⟩ := h
  induction es with
  | nil => simp [before] at hf
  | cons e es ih =>
    rw [scan]
    by_cases hek : extractUserKey e.1 = k
    · rw [before_cons_self hek] at hf
      exact absurd hf List.not_mem_nil
    · rw [before_cons_ne hek] at hf
      rcases lt_or_gt_of_ne hek with hlt | hgt
      · rw [if_pos (Or.inr hlt)]
        rcases List.mem_cons.1 hf with rfl | hf
        · exact absurd hfk hlt.not_gt
        · exact ih (fun x hx => hs x (List.mem_cons_of_mem _ hx)) hf
      · have hle := (hs e List.mem_cons_self).le_of_le hgt.le
        rw [if_neg (not_or.2 ⟨not_lt.2 hle, hgt.not_gt⟩), if_neg hek]

namespace SSTable

/-- **The scan over the encoded entries is the scan over the entries.** -/
theorem searchEntries_entriesBytes {k : Bytes} {es : List (Bytes × Bytes)}
    (hk : ∀ e ∈ es, e.1.length < 2 ^ 32) (hv : ∀ e ∈ es, e.2.length < 2 ^ 32) :
    ∀ {buf pre rest : Bytes} {p limit n : ℕ}, buf = pre ++ (entriesBytes es ++ rest) →
      p = pre.length → limit = p + (entriesBytes es).length → es.length < n →
      searchEntries buf (makeLookupKey k) limit n p = .ok (scan k es) := by
  induction es with
  | nil =>
    intro buf pre rest p limit n _ _ hlimit hn
    obtain ⟨n, rfl⟩ : ∃ m, n = m + 1 := ⟨n - 1, by simp at hn; omega⟩
    rw [searchEntries, if_pos (by simp [hlimit, entriesBytes])]
    rfl
  | cons e es ih =>
    intro buf pre rest p limit n hbuf hp hlimit hn
    obtain ⟨n, rfl⟩ : ∃ m, n = m + 1 := ⟨n - 1, by simp at hn; omega⟩
    have hcons : entriesBytes (e :: es) = encodeEntry e.1 e.2 ++ entriesBytes es := rfl
    have hlen : (entriesBytes (e :: es)).length =
        (encodeEntry e.1 e.2).length + (entriesBytes es).length := by rw [hcons, List.length_append]
    have hpos := length_le_entriesBytes (e :: es)
    have hbuf' : buf = pre ++ (encodeEntry e.1 e.2 ++ (entriesBytes es ++ rest)) := by
      rw [hbuf, hcons, List.append_assoc]
    have hparse := parseEntry_encodeEntry hbuf' hp (show _ ≤ limit by omega)
      (hk e List.mem_cons_self) (hv e List.mem_cons_self)
    have hrest : searchEntries buf (makeLookupKey k) limit n (p + (encodeEntry e.1 e.2).length) =
        .ok (scan k es) :=
      ih (fun x hx => hk x (List.mem_cons_of_mem _ hx)) (fun x hx => hv x (List.mem_cons_of_mem _ hx))
        (show buf = (pre ++ encodeEntry e.1 e.2) ++ (entriesBytes es ++ rest) by
          rw [hbuf', List.append_assoc]) (by simp [hp]) (by omega) (by simpa using hn)
    -- below the lookup key, or of a smaller user key: on to the next entry
    rw [searchEntries, if_neg (by simp at hpos; omega)]
    simp only [bind, Except.bind, hparse, Slice.compare_eq_lt, extractUserKey_makeLookupKey, scan,
      hrest]
    by_cases hlt : e.1 < makeLookupKey k
    · rw [if_pos hlt, if_pos (Or.inl hlt)]
    · rw [if_neg hlt]
      rcases lt_trichotomy (extractUserKey e.1) k with hu | hu | hu
      · rw [Slice.compare_eq_lt.2 hu, if_pos (Or.inr hu)]
      · rw [Slice.compare_eq_eq.2 hu, if_neg (not_or.2 ⟨hlt, hu.not_lt⟩), if_pos hu]
        rfl
      · rw [Slice.compare_eq_gt.2 hu, if_neg (not_or.2 ⟨hlt, hu.not_gt⟩), if_neg hu.ne']
        rfl

/-- **The search in a block** scans its entries. -/
theorem binarySearchInBlock_bytes {b : DataBlock} (hb : b.Bounded) (k : Bytes) :
    ∃ r, binarySearchInBlock b.bytes (makeLookupKey k) = .ok r ∧ Answers r (scan k b.entries) := by
  have hlen := b.bytes_length
  have hend : entriesEnd b.bytes = (entriesBytes b.entries).length :=
    entriesEnd_blockContents (by have := hb.restarts; omega) _
  obtain ⟨rest, hrest⟩ : ∃ rest, b.bytes = [] ++ (entriesBytes b.entries ++ rest) := by
    rw [DataBlock.bytes]
    conv in b.contents ++ _ => rw [DataBlock.contents, blockContents]
    simp only [List.append_assoc, List.nil_append]
    exact ⟨_, rfl⟩
  have hsearch : searchEntries b.bytes (makeLookupKey k) (entriesEnd b.bytes) b.bytes.length 0 =
      .ok (scan k b.entries) :=
    searchEntries_entriesBytes hb.key hb.value hrest rfl (by rw [hend, Nat.zero_add])
      (by have := length_le_entriesBytes b.entries; omega)
  have hcrc : crcMatches b.bytes = true := crcMatches_append _
  rw [binarySearchInBlock, if_neg (by omega), hcrc]
  simp only [bind, Except.bind, hsearch, Bool.not_true, Bool.false_eq_true, if_false]
  cases scan k b.entries with
  | none => exact ⟨_, rfl, rfl, fun h => absurd rfl h, fun _ => rfl⟩
  | some v => exact ⟨_, rfl, rfl, fun _ => rfl, fun h => by simp at h⟩

end SSTable

/-! ## Across the blocks -/

/-- The first block with an entry of `k`. -/
def firstBlock (k : Bytes) (bs : List (List (Bytes × Bytes))) : ℕ :=
  bs.findIdx fun b => b.any fun e => extractUserKey e.1 = k

/-- Whether block `i` ends below the lookup key of `k`. -/
def endsBelow (k : Bytes) (bs : List (List (Bytes × Bytes))) (i : ℕ) : Bool :=
  decide ((((bs.getD i []).getLast?.map Prod.fst).getD []) < makeLookupKey k)

/-- The search over the index leads to the first block with an entry of `k`, and no greater
user key comes first in it. -/
structure InTable (k : Bytes) (bs : List (List (Bytes × Bytes))) : Prop where
  found : ∀ i ∈ Search.probes (firstBlock k bs) bs.length 0 (bs.length - 1),
    (endsBelow k bs i = true ↔ i < firstBlock k bs)
  clear : ∀ e ∈ before k (bs.getD (firstBlock k bs) []), extractUserKey e.1 ≤ k

instance (k : Bytes) (bs : List (List (Bytes × Bytes))) : Decidable (InTable k bs) :=
  decidable_of_iff (_ ∧ _) ⟨fun h => ⟨h.1, h.2⟩, fun h => ⟨h.found, h.clear⟩⟩

/-- No block from the first one with an entry of `k` on ends below the lookup key. -/
def NotPast (k : Bytes) (bs : List (List (Bytes × Bytes))) : Prop :=
  ∀ i < bs.length - 1, firstBlock k bs ≤ i → endsBelow k bs i = false

instance (k : Bytes) (bs : List (List (Bytes × Bytes))) : Decidable (NotPast k bs) :=
  inferInstanceAs (Decidable (∀ i < bs.length - 1, firstBlock k bs ≤ i → endsBelow k bs i = false))

section Blocks

variable {k : Bytes} {bs : List (List (Bytes × Bytes))}

theorem any_iff_mem {b : List (Bytes × Bytes)} :
    (b.any fun e => decide (extractUserKey e.1 = k)) = true ↔ k ∈ (userPairs b).map Prod.fst := by
  simp [userPairs]

/-- The first block of a key is there, holds it, and no block before does. -/
theorem firstBlock_spec (hk : k ∈ (userPairs bs.flatten).map Prod.fst) :
    ∃ b, bs[firstBlock k bs]? = some b ∧ k ∈ (userPairs b).map Prod.fst ∧
      (userPairs bs.flatten).lookup k = (userPairs b).lookup k := by
  induction bs with
  | nil => simp [userPairs] at hk
  | cons b bs ih =>
    by_cases hb : k ∈ (userPairs b).map Prod.fst
    · obtain ⟨e, ys, -, -, hlook⟩ := exists_before hb
      refine ⟨b, ?_, hb, ?_⟩
      · rw [firstBlock, List.findIdx_cons, any_iff_mem.2 hb]; rfl
      · rw [List.flatten_cons, userPairs_append, List.lookup_append, hlook, Option.some_or]
    · rw [List.flatten_cons, userPairs_append, List.map_append, List.mem_append] at hk
      obtain ⟨c, hc, hkc, hlook⟩ := ih (hk.resolve_left hb)
      refine ⟨c, ?_, hkc, ?_⟩
      · rw [firstBlock, List.findIdx_cons, Bool.eq_false_iff.2 (mt any_iff_mem.1 hb)]
        simpa [firstBlock] using hc
      · rw [← hlook, List.flatten_cons, userPairs_append, List.lookup_append, lookup_eq_none hb,
          Option.none_or]

theorem not_mem_of_lt_firstBlock {i : ℕ} {b : List (Bytes × Bytes)} (hb : bs[i]? = some b)
    (hi : i < firstBlock k bs) : k ∉ (userPairs b).map Prod.fst := by
  obtain ⟨hlt, rfl⟩ := List.getElem?_eq_some_iff.1 hb
  have hnot := List.not_of_lt_findIdx hi
  exact fun hmem => absurd (any_iff_mem.2 hmem) (by simpa using hnot)

end Blocks

namespace SSTable

/-- `Get` behind the Bloom filter. -/
def getPast (t : SSTable) (userKey : Bytes) : Checked (Status × Option Bytes) :=
  if t.index = [] then return (.notFound "empty sstable", none)
  else
    let lookupKey := makeLookupKey userKey
    let left := findBlock t.index lookupKey t.index.length 0 (t.index.length - 1)
    let entry := t.index.getD left ⟨[], 0, 0⟩
    match t.readBlock entry.blockOffset entry.blockSize with
    | .ok block => binarySearchInBlock block lookupKey
    | .error (.status s) => return (s, none)
    | .error f => throw f

/-- The Bloom filter answers first. -/
theorem get_eq (t : SSTable) (k : Bytes) : t.get k =
    if t.hasBloom && t.bloomFilter.dividesByZero then .error .outOfBounds
    else if t.hasBloom && !t.bloomFilter.mayContain k then
      .ok (.notFound "bloom filter: not present", none)
    else t.getPast k := rfl

/-- The search over the index is a lower bound. -/
theorem findBlock_eq (index : List IndexEntry) (lookupKey : Bytes) (n left right : ℕ) :
    findBlock index lookupKey n left right = Search.lowerBound
      (fun i => decide ((index.getD i ⟨[], 0, 0⟩).lastKey < lookupKey)) n left right := by
  induction n generalizing left right with
  | zero => rfl
  | succ n ih => simp only [findBlock, Search.lowerBound, Slice.compare_eq_lt, ih, decide_eq_true_eq]

end SSTable

/-! ## The whole table -/

/-- The entries of a table are the pairs under internal keys. -/
theorem userPairs_tableEntries (pairs : List (Bytes × Bytes)) :
    userPairs (tableEntries pairs) = pairs := by
  have h : ∀ seq, userPairs (entriesFrom seq pairs) = pairs := by
    induction pairs with
    | nil => intro seq; rfl
    | cons p ps ih => intro seq; simpa [userPairs, entriesFrom] using ih (seq + 1)
  exact h 0

namespace Laid

variable {t : SSTable} {pairs : List (Bytes × Bytes)} {blocks : List DataBlock}

theorem index_eq (h : Laid t pairs blocks) : t.index = (infosFrom 0 blocks).map BlockInfo.entry := by
  rw [h.table]; rfl

theorem data_eq (h : Laid t pairs blocks) : t.data = fileBytes blocks (pairs.map Prod.fst) := by
  rw [h.table]; rfl

theorem hasBloom_eq (h : Laid t pairs blocks) : t.hasBloom = true := by rw [h.table]; rfl

/-- The block that the index search ends at. -/
def target (t : SSTable) (k : Bytes) : ℕ :=
  SSTable.findBlock t.index (makeLookupKey k) t.index.length 0 (t.index.length - 1)

/-- The index search, seen from the blocks. -/
theorem target_eq (h : Laid t pairs blocks) (k : Bytes) :
    target t k = Search.lowerBound (endsBelow k (blocks.map DataBlock.entries)) blocks.length 0
      (blocks.length - 1) := by
  have hlen : t.index.length = blocks.length := by rw [h.index_eq]; simp
  have hbelow : (fun i => decide ((t.index.getD i ⟨[], 0, 0⟩).lastKey < makeLookupKey k)) =
      endsBelow k (blocks.map DataBlock.entries) := by
    funext i
    have hkey : (t.index.getD i ⟨[], 0, 0⟩).lastKey =
        ((((blocks.map DataBlock.entries).getD i []).getLast?.map Prod.fst).getD []) := by
      rw [h.index_eq, List.getD_eq_getElem?_getD, List.getD_eq_getElem?_getD, List.getElem?_map,
        List.getElem?_map, infosFrom_getElem?]
      cases blocks[i]? <;> rfl
    rw [endsBelow, hkey]
  rw [target, SSTable.findBlock_eq, hlen, hbelow]

theorem target_lt (h : Laid t pairs blocks) (hne : blocks ≠ []) (k : Bytes) :
    target t k < blocks.length := by
  have hlen : t.index.length = blocks.length := by rw [h.index_eq]; simp
  have hpos := List.length_pos_iff.2 hne
  have hle : target t k ≤ t.index.length - 1 := by
    rw [target, SSTable.findBlock_eq]; exact (Search.lowerBound_mem (Nat.zero_le _)).2
  omega

/-- Behind the Bloom filter, `Get` scans the block that the index search ends at. -/
theorem getPast_scan (h : Laid t pairs blocks) {k : Bytes} {b : DataBlock}
    (hb : blocks[target t k]? = some b) :
    ∃ r, t.getPast k = .ok r ∧ Answers r (scan k b.entries) := by
  obtain ⟨hlt, hget⟩ := List.getElem?_eq_some_iff.1 hb
  have hsplit : blocks = blocks.take (target t k) ++ b :: blocks.drop (target t k + 1) := by
    rw [← hget]; simp
  have hne : t.index ≠ [] := by
    rw [h.index_eq, hsplit, infosFrom_append]; simp [infosFrom]
  have hentry : t.index.getD (target t k) ⟨[], 0, 0⟩ =
      ⟨b.lastKey, (blocksBytes (blocks.take (target t k))).length, b.bytes.length⟩ := by
    rw [h.index_eq, List.getD_eq_getElem?_getD, List.getElem?_map, infosFrom_getElem?, hb]
    simp [BlockInfo.entry]
  have hdata : t.data = fileBytes
      (blocks.take (target t k) ++ b :: blocks.drop (target t k + 1)) (pairs.map Prod.fst) := by
    rw [← hsplit]; exact h.data_eq
  have hread := SSTable.readBlock_fileBytes hdata (by rw [← hsplit]; exact h.readable)
  obtain ⟨r, hr, hans⟩ := SSTable.binarySearchInBlock_bytes
    (h.readable.bounded b (List.mem_of_getElem? hb)) k
  refine ⟨r, ?_, hans⟩
  rw [SSTable.getPast, if_neg hne]
  rw [target] at hentry hread
  simp only [hentry, hread, hr]

/-- Looking up past the Bloom filter scans the block that the index search ends at. -/
theorem get_scan (h : Laid t pairs blocks) {k : Bytes} (hz : t.bloomFilter.dividesByZero = false)
    (hbloom : (t.hasBloom && !t.bloomFilter.mayContain k) = false) {b : DataBlock}
    (hb : blocks[target t k]? = some b) :
    ∃ r, t.get k = .ok r ∧ Answers r (scan k b.entries) := by
  obtain ⟨r, hr, hans⟩ := h.getPast_scan hb
  refine ⟨r, ?_, hans⟩
  rw [SSTable.get_eq, hz, Bool.and_false, if_neg (by decide), hbloom, if_neg (by decide), hr]

/-- **A table never answers for a key it does not hold.** -/
theorem get_of_not_mem (h : Laid t pairs blocks) (hz : t.bloomFilter.dividesByZero = false) {k : Bytes}
    (hk : k ∉ pairs.map Prod.fst) : ∃ r, t.get k = .ok r ∧ Answers r none := by
  have hz' : ¬(t.hasBloom && t.bloomFilter.dividesByZero) = true := by simp [hz]
  by_cases hbloom : (t.hasBloom && !t.bloomFilter.mayContain k) = true
  · rw [SSTable.get, if_neg hz', if_pos hbloom]
    exact ⟨_, rfl, rfl, fun h => absurd rfl h, fun _ => rfl⟩
  · by_cases hindex : t.index = []
    · rw [SSTable.get, if_neg hz', if_neg hbloom, if_pos hindex]
      exact ⟨_, rfl, rfl, fun h => absurd rfl h, fun _ => rfl⟩
    · have hne : blocks ≠ [] := by
        rintro rfl
        exact hindex (by rw [h.index_eq]; rfl)
      obtain ⟨b, hb⟩ : ∃ b, blocks[target t k]? = some b :=
        ⟨_, List.getElem?_eq_getElem (h.target_lt hne k)⟩
      obtain ⟨r, hr, hans⟩ := h.get_scan hz (by simpa using hbloom) hb
      refine ⟨r, hr, ?_⟩
      cases hscan : scan k b.entries with
      | none => rwa [hscan] at hans
      | some v =>
        have hmem : (k, v) ∈ pairs := by
          rw [← userPairs_tableEntries pairs, ← h.entries]
          obtain ⟨e, he, hek⟩ := List.mem_map.1 (scan_eq_some hscan)
          exact List.mem_map.2 ⟨e, List.mem_flatMap.2 ⟨_, List.mem_of_getElem? hb, he⟩, hek⟩
        exact absurd (List.mem_map.2 ⟨_, hmem, rfl⟩) hk

/-- A table that holds a key has blocks. -/
theorem blocks_ne (h : Laid t pairs blocks) {k : Bytes} (hk : k ∈ pairs.map Prod.fst) :
    blocks ≠ [] := by
  rintro rfl
  have hnil : tableEntries pairs = [] := h.entries.symm
  rw [← userPairs_tableEntries pairs, hnil] at hk
  simp [userPairs] at hk

/-- A key of a table has a first block, with the first entry of the key. -/
theorem exists_firstBlock (h : Laid t pairs blocks) {k : Bytes} (hk : k ∈ pairs.map Prod.fst) :
    ∃ b, blocks[firstBlock k (blocks.map DataBlock.entries)]? = some b ∧
      k ∈ (userPairs b.entries).map Prod.fst ∧ pairs.lookup k = (userPairs b.entries).lookup k ∧
      ∀ e ∈ b.entries, Stored e := by
  have hflat : userPairs (blocks.map DataBlock.entries).flatten = pairs := by
    rw [← List.flatMap_def, h.entries, userPairs_tableEntries]
  obtain ⟨es, hes, hkes, hlook⟩ := firstBlock_spec (by rwa [hflat])
  rw [List.getElem?_map] at hes
  obtain ⟨b, hb, rfl⟩ := Option.map_eq_some_iff.1 hes
  refine ⟨b, hb, hkes, by rw [← hlook, hflat], fun e he => ?_⟩
  have hmem : e ∈ tableEntries pairs := by
    rw [← h.entries]
    exact List.mem_flatMap.2 ⟨b, List.mem_of_getElem? hb, he⟩
  exact stored_tableEntries hmem

/-- **A table finds the first entry of a key** that its search leads to. -/
theorem get_of_inTable (h : Laid t pairs blocks) (hz : t.bloomFilter.dividesByZero = false) {k : Bytes}
    (hk : k ∈ pairs.map Prod.fst) (hbloom : t.bloomFilter.mayContain k = true)
    (hin : InTable k (blocks.map DataBlock.entries)) :
    ∃ r, t.get k = .ok r ∧ Answers r (pairs.lookup k) := by
  obtain ⟨b, hb, hkb, hlook, hs⟩ := h.exists_firstBlock hk
  have hlt := (List.getElem?_eq_some_iff.1 hb).1
  have htarget : target t k = firstBlock k (blocks.map DataBlock.entries) := by
    rw [h.target_eq]
    exact (Search.lowerBound_eq_iff (Nat.zero_le _) (by omega) (by omega)).2
      (by simpa using hin.found)
  have hclear := hin.clear
  rw [List.getD_eq_getElem?_getD, List.getElem?_map, hb] at hclear
  rw [hlook, ← scan_of_clear hs hkb hclear]
  exact h.get_scan hz (by simp [hbloom]) (by rw [htarget, hb])

/-- **Otherwise it finds nothing**, unless the search passes the key. -/
theorem get_of_not_inTable (h : Laid t pairs blocks) (hz : t.bloomFilter.dividesByZero = false)
    {k : Bytes} (hk : k ∈ pairs.map Prod.fst) (hbloom : t.bloomFilter.mayContain k = true)
    (hin : ¬InTable k (blocks.map DataBlock.entries))
    (hpast : NotPast k (blocks.map DataBlock.entries)) :
    ∃ r, t.get k = .ok r ∧ Answers r none := by
  obtain ⟨b, hb, hkb, hlook, hs⟩ := h.exists_firstBlock hk
  have hlt := (List.getElem?_eq_some_iff.1 hb).1
  have hle : target t k ≤ firstBlock k (blocks.map DataBlock.entries) := by
    rw [h.target_eq]
    exact Search.lowerBound_le (Nat.zero_le _) fun i hi hlt => hpast i (by simpa using hlt) hi
  obtain ⟨c, hc⟩ : ∃ c, blocks[target t k]? = some c :=
    ⟨_, List.getElem?_eq_getElem (h.target_lt (h.blocks_ne hk) k)⟩
  obtain ⟨r, hr, hans⟩ := h.get_scan hz (by simp [hbloom]) hc
  refine ⟨r, hr, ?_⟩
  rcases hle.eq_or_lt with heq | hlt'
  · -- the search ends at the right block, which shows a greater user key first
    have hfound := (Search.lowerBound_eq_iff (Nat.zero_le _) (by omega) (by omega)).1
      ((h.target_eq k).symm.trans heq)
    have hblocked : ∃ e ∈ before k b.entries, k < extractUserKey e.1 := by
      by_contra hnot
      push Not at hnot
      refine hin ⟨by simpa using hfound, fun e he => hnot e ?_⟩
      rwa [List.getD_eq_getElem?_getD, List.getElem?_map, hb] at he
    obtain rfl : c = b := by
      rw [← heq, hc] at hb
      exact Option.some.inj hb
    rwa [scan_of_blocked hs hblocked] at hans
  · -- the search ends at an earlier block, which has no version of `k`
    have hnone : scan k c.entries = none := by
      cases hscan : scan k c.entries with
      | none => rfl
      | some v =>
        refine absurd (List.mem_map_of_mem (scan_eq_some hscan)) (not_mem_of_lt_firstBlock ?_ hlt')
        rw [List.getElem?_map, hc, Option.map_some]
    rwa [hnone] at hans

end Laid

/-! ## Where the search ends -/

/-- The block that the search over the index ends at. -/
def searched (k : Bytes) (bs : List (List (Bytes × Bytes))) : List (Bytes × Bytes) :=
  bs.getD (Search.lowerBound (endsBelow k bs) bs.length 0 (bs.length - 1)) []

/-- What the scan of this block finds for `k`. -/
def lookupPast (k : Bytes) (bs : List (List (Bytes × Bytes))) : Option Bytes := scan k (searched k bs)

/-- **The lookup of `k` behind the Bloom filter comes to an entry of `k`**: the block that the
search over the index ends at has one, and no entry of a greater user key in front of it. -/
def Shown (k : Bytes) (bs : List (List (Bytes × Bytes))) : Prop :=
  k ∈ (userPairs (searched k bs)).map Prod.fst ∧ ∀ e ∈ before k (searched k bs), extractUserKey e.1 ≤ k

instance (k : Bytes) (bs : List (List (Bytes × Bytes))) : Decidable (Shown k bs) :=
  inferInstanceAs (Decidable (_ ∧ _))

theorem mem_flatten_of_mem_searched {k : Bytes} {bs : List (List (Bytes × Bytes))} {e : Bytes × Bytes}
    (he : e ∈ searched k bs) : e ∈ bs.flatten := by
  rw [searched, List.getD_eq_getElem?_getD] at he
  cases hget : bs[Search.lowerBound (endsBelow k bs) bs.length 0 (bs.length - 1)]? with
  | none => rw [hget] at he; cases he
  | some c =>
    rw [hget] at he
    exact List.mem_flatten.2 ⟨c, List.mem_of_getElem? hget, he⟩

/-- It comes to keys that were added. -/
theorem Shown.mem {k : Bytes} {pairs : List (Bytes × Bytes)}
    (h : Shown k (cutBlocks [] (tableEntries pairs))) : k ∈ pairs.map Prod.fst := by
  obtain ⟨q, hq, rfl⟩ := List.mem_map.1 h.1
  obtain ⟨e, he, rfl⟩ := List.mem_map.1 hq
  have hmem := mem_flatten_of_mem_searched he
  rw [cutBlocks_flatten, List.nil_append] at hmem
  rw [← userPairs_tableEntries pairs]
  exact List.mem_map_of_mem (List.mem_map_of_mem hmem)

section lookup

variable {k : Bytes} {bs : List (List (Bytes × Bytes))} (hs : ∀ e ∈ bs.flatten, Stored e)

include hs

/-- **It finds the first entry of `k` in this block.** -/
theorem Shown.lookupPast (h : Shown k bs) : lookupPast k bs = (userPairs (searched k bs)).lookup k :=
  scan_of_clear (fun e he => hs e (mem_flatten_of_mem_searched he)) h.1 h.2

theorem lookupPast_ne_none_iff : lookupPast k bs ≠ none ↔ Shown k bs := by
  constructor
  · intro hne
    obtain ⟨v, hv⟩ := Option.ne_none_iff_exists'.1 hne
    refine ⟨List.mem_map_of_mem (scan_eq_some hv), ?_⟩
    by_contra hnot
    push Not at hnot
    exact hne (scan_of_blocked (fun e he => hs e (mem_flatten_of_mem_searched he)) hnot)
  · intro h
    obtain ⟨e, ys, -, -, hlook⟩ := exists_before h.1
    rw [h.lookupPast hs, hlook]
    exact Option.some_ne_none _

end lookup

/-- Behind the Bloom filter, `Get` answers what the scan finds. -/
theorem Laid.getPast_lookup {t : SSTable} {pairs : List (Bytes × Bytes)} {blocks : List DataBlock}
    (h : Laid t pairs blocks) (k : Bytes) :
    ∃ r, t.getPast k = .ok r ∧ Answers r (lookupPast k (cutBlocks [] (tableEntries pairs))) := by
  rw [lookupPast, searched, ← h.cut, List.length_map, ← h.target_eq k]
  by_cases hne : blocks = []
  · have hindex : t.index = [] := by rw [h.index_eq, hne]; rfl
    rw [SSTable.getPast, if_pos hindex, hne]
    exact ⟨_, rfl, rfl, fun h => absurd rfl h, fun _ => rfl⟩
  · have hlt := h.target_lt hne k
    obtain ⟨r, hr, hans⟩ := h.getPast_scan (List.getElem?_eq_getElem hlt)
    refine ⟨r, hr, ?_⟩
    rwa [List.getD_eq_getElem?_getD, List.getElem?_map, List.getElem?_eq_getElem hlt, Option.map_some,
      Option.getD_some]

namespace Holds

variable {t : SSTable} {pairs : List (Bytes × Bytes)} {blocks : List DataBlock} {k : Bytes}

/-- The Bloom filter of a table contains its user keys. -/
theorem mayContain (h : Holds t pairs blocks) (hk : k ∈ pairs.map Prod.fst) :
    t.bloomFilter.mayContain k = true := by
  have hbits := h.fits.count
  rw [h.table]
  exact BloomFilter.mayContain_createFilter (by simp only [List.length_map]; omega)
    (BloomFilter.decode_createFilter _ 10) hk

/-- Its bits are counted in 32 bits. -/
theorem not_dividesByZero (h : Holds t pairs blocks) : t.bloomFilter.dividesByZero = false := by
  have hcount := h.fits.count
  rw [h.table]
  apply BloomFilter.not_dividesByZero
  rw [List.length_map]
  omega

theorem get_of_not_mem (h : Holds t pairs blocks) (hk : k ∉ pairs.map Prod.fst) :
    ∃ r, t.get k = .ok r ∧ Answers r none := h.toLaid.get_of_not_mem h.not_dividesByZero hk

theorem get_of_inTable (h : Holds t pairs blocks) (hk : k ∈ pairs.map Prod.fst)
    (hin : InTable k (blocks.map DataBlock.entries)) :
    ∃ r, t.get k = .ok r ∧ Answers r (pairs.lookup k) :=
  h.toLaid.get_of_inTable h.not_dividesByZero hk (h.mayContain hk) hin

/-- **For its keys `Get` answers what the scan of the block finds** at which the search ends. -/
theorem get_lookup (h : Holds t pairs blocks) (hk : k ∈ pairs.map Prod.fst) :
    ∃ r, t.get k = .ok r ∧ Answers r (lookupPast k (cutBlocks [] (tableEntries pairs))) := by
  obtain ⟨r, hr, hans⟩ := h.getPast_lookup k
  refine ⟨r, ?_, hans⟩
  rw [SSTable.get_eq, h.not_dividesByZero, Bool.and_false, if_neg (by decide), h.mayContain hk,
    Bool.not_true, Bool.and_false, if_neg (by decide), hr]

end Holds

end MiniLSM
