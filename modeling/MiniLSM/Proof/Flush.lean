import MiniLSM.Proof.MemTable
import MiniLSM.Spec.DB

/-!
# The table of a flush against its memtable

The builder keeps the order of the memtable but numbers the entries anew, so entries in front of
the first one of a user key `k` can stand on different sides of its lookup key in the two.

* `FoundAlike`: memtable and table come to the same value of `k`, or both to none.
  `foundAlike_of_apart`: they do where no key continues another one by a type byte.
* `flush_get_iff`: the flushed table answers as the memtable if and only if all keys added are
  found alike.
-/

namespace MiniLSM

/-- The bytes that adds store: internal keys and values. -/
def storedSize (adds : List (Bytes × Bytes × ℕ)) : ℕ :=
  (adds.map fun a => a.1.length + 8 + a.2.1.length).sum

theorem le_storedSize {adds : List (Bytes × Bytes × ℕ)} {a : Bytes × Bytes × ℕ} (h : a ∈ adds) :
    a.1.length + 8 + a.2.1.length ≤ storedSize adds := by
  induction adds with
  | nil => simp at h
  | cons b adds ih =>
    simp only [storedSize, List.map_cons, List.sum_cons] at ih ⊢
    rcases List.mem_cons.1 h with rfl | h
    · omega
    · have := ih h
      omega

theorem length_le_storedSize (adds : List (Bytes × Bytes × ℕ)) : 8 * adds.length ≤ storedSize adds := by
  induction adds with
  | nil => simp [storedSize]
  | cons a adds ih =>
    simp only [storedSize, List.map_cons, List.sum_cons, List.length_cons] at ih ⊢
    omega

namespace MemTable

theorem pairs_add {m : MemTable} {u v : Bytes} {height : ℕ} {p : Bytes × Bytes}
    (h : p ∈ (m.add u v height).pairs) : p = (u, v) ∨ p ∈ m.pairs := by
  obtain ⟨e, he, rfl⟩ := List.mem_map.1 h
  rcases mem_insertChain he with rfl | he
  · exact Or.inl (by rw [extractUserKey_makeInternalKey])
  · exact Or.inr (List.mem_map_of_mem he)

theorem length_insertChain_le (key value : Bytes) (height : ℕ) (nodes : List Node) :
    (SkipList.insertChain key value height nodes).length ≤ nodes.length + 1 := by
  induction nodes with
  | nil => simp [SkipList.insertChain]
  | cons x xs ih =>
    rw [SkipList.insertChain]
    split <;> simp only [List.length_cons] <;> omega

theorem pairs_length (m : MemTable) : m.pairs.length = m.table.nodes.length := by
  simp [pairs, userPairs, entries]

/-- **What any adds leave** in a new memtable. -/
theorem addAll_spec (adds : List (Bytes × Bytes × ℕ)) :
    (new.addAll adds).WF ∧ (new.addAll adds).pairs.length ≤ adds.length ∧
      ∀ p ∈ (new.addAll adds).pairs, ∃ a ∈ adds, p = (a.1, a.2.1) := by
  induction adds using List.reverseRecOn with
  | nil => exact ⟨new_wf, by simp [addAll, pairs, userPairs, entries, new, SkipList.new],
      by simp [addAll, pairs, userPairs, entries, new, SkipList.new]⟩
  | append_singleton adds a ih =>
    obtain ⟨hwf, hlen, hmem⟩ := ih
    have hadd : new.addAll (adds ++ [a]) = (new.addAll adds).add a.1 a.2.1 a.2.2 := by simp [addAll]
    rw [hadd]
    refine ⟨add_wf hwf _ _ _, ?_, fun p hp => ?_⟩
    · rw [pairs_length] at hlen ⊢
      have := length_insertChain_le (makeInternalKey a.1 ((new.addAll adds).lastSeq + 1)
        (typeOf a.2.1)) a.2.1 a.2.2 (new.addAll adds).table.nodes
      rw [List.length_append, List.length_singleton]
      exact this.trans (by omega)
    · rcases pairs_add hp with rfl | hp
      · exact ⟨a, by simp, rfl⟩
      · obtain ⟨b, hb, rfl⟩ := hmem p hp
        exact ⟨b, List.mem_append_left _ hb, rfl⟩

/-- Below 2^31 bytes, the table of a memtable stays within the integers of the format. -/
theorem fits_addAll {adds : List (Bytes × Bytes × ℕ)} (h : storedSize adds < 2 ^ 31) :
    Fits (new.addAll adds).pairs := by
  obtain ⟨-, hlen, hmem⟩ := addAll_spec adds
  refine ⟨fun p hp => ?_, ?_⟩
  · obtain ⟨a, ha, rfl⟩ := hmem p hp
    exact (le_storedSize ha).trans_lt h
  · have := length_le_storedSize adds
    omega

end MemTable

/-! ## Memtable and table -/

/-- Entries that fit into one block are not cut. -/
theorem cutBlocks_small {es : List (Bytes × Bytes)} (hne : es ≠ [])
    (h : (entriesBytes es).length ≤ SSTableBuilder.blockSize) : cutBlocks [] es = [es] := by
  suffices hcur : ∀ cur, cur ++ es ≠ [] →
      (entriesBytes (cur ++ es)).length ≤ SSTableBuilder.blockSize →
      cutBlocks cur es = [cur ++ es] from hcur [] hne h
  clear hne h
  intro cur hne h
  induction es generalizing cur with
  | nil =>
    rw [List.append_nil] at hne ⊢
    rw [cutBlocks, if_neg hne]
  | cons e es ih =>
    have hsplit : cur ++ e :: es = (cur ++ [e]) ++ es := by simp
    have hlen : (entriesBytes cur).length + (encodeEntry e.1 e.2).length ≤
        (entriesBytes (cur ++ e :: es)).length := by
      rw [entriesBytes_append, List.length_append, entriesBytes, entriesBytes, List.flatMap_cons,
        List.length_append]
      omega
    rw [cutBlocks, if_neg fun hbig => absurd hbig.1 (by omega), hsplit]
    exact ih _ (by simp) (by rwa [← hsplit])

/-- In a table of one block only greater user keys get in the way. -/
theorem inTable_singleton {k : Bytes} {es : List (Bytes × Bytes)}
    (hk : k ∈ (userPairs es).map Prod.fst) (h : ∀ e ∈ before k es, extractUserKey e.1 ≤ k) :
    InTable k [es] := by
  have hfirst : firstBlock k [es] = 0 := by
    rw [firstBlock, List.findIdx_cons, any_iff_mem.2 hk]; rfl
  exact ⟨fun i hi => absurd (Search.mem_probes hi).2 (by simp), by rwa [hfirst]⟩

/-- When every write succeeds, `Finish` does and the file is the one of `build`. -/
theorem buildTable_sound (m : MemTable) :
    DB.buildTable m (fun _ => none) = (.OK, SSTableBuilder.build m.pairs) := by
  obtain ⟨-, -, -, hstatus, -⟩ := SSTableBuilder.build_layout m.pairs
  exact Prod.ext hstatus rfl

/-- **Memtable and table find `k` alike**: the entries in front of the first one of `k` in the memtable
are all below its lookup key exactly if the search in the table comes to a block that shows an entry
of `k`, and the first of `k` in that block has the value of the first of all. -/
structure FoundAlike (k : Bytes) (m : MemTable) : Prop where
  found : InMemTable k m.entries ↔ Shown k (cutBlocks [] (tableEntries m.pairs))
  first : Shown k (cutBlocks [] (tableEntries m.pairs)) →
    (userPairs (searched k (cutBlocks [] (tableEntries m.pairs)))).lookup k = m.pairs.lookup k

instance (k : Bytes) (m : MemTable) : Decidable (FoundAlike k m) :=
  decidable_of_iff (_ ∧ _) ⟨fun h => ⟨h.1, h.2⟩, fun h => ⟨h.found, h.first⟩⟩

/-- The flushed table against its memtable, for one key. -/
theorem answers_iff {m : MemTable} (hwf : m.WF) {t : SSTable} {blocks : List DataBlock}
    (h : Holds t m.pairs blocks) {k : Bytes} (hk : k ∈ m.pairs.map Prod.fst) :
    (∃ r, t.get k = .ok r ∧ Answers r (m.get k)) ↔ FoundAlike k m := by
  obtain ⟨r, hr, hans⟩ := h.get_lookup hk
  have hstored : ∀ e ∈ (cutBlocks [] (tableEntries m.pairs)).flatten, Stored e := by
    rw [cutBlocks_flatten, List.nil_append]
    exact fun e he => stored_tableEntries he
  -- the table answers what its scan finds, so the memtable has to find the same
  have hsame : (∃ r, t.get k = .ok r ∧ Answers r (m.get k)) ↔
      m.get k = lookupPast k (cutBlocks [] (tableEntries m.pairs)) := by
    constructor
    · rintro ⟨s, hs, hans'⟩
      obtain rfl : r = s := Except.ok.inj (hr.symm.trans hs)
      exact hans'.value.symm.trans hans.value
    · intro heq
      exact ⟨r, hr, heq ▸ hans⟩
  rw [hsame]
  by_cases hmem : InMemTable k m.entries
  · obtain ⟨e, ys, -, -, hlook⟩ := exists_before hk
    have hsome : m.pairs.lookup k = some e.2 := hlook
    rw [MemTable.get_of_inMemTable hwf hk hmem]
    constructor
    · intro heq
      have hshown : Shown k (cutBlocks [] (tableEntries m.pairs)) := by
        rw [← lookupPast_ne_none_iff hstored, ← heq, hsome]
        exact Option.some_ne_none _
      exact ⟨iff_of_true hmem hshown, fun hshown => by rw [heq, hshown.lookupPast hstored]⟩
    · intro halike
      have hshown := halike.found.1 hmem
      rw [hshown.lookupPast hstored, halike.first hshown]
  · rw [MemTable.get_of_not_inMemTable hmem]
    constructor
    · intro heq
      have hnot : ¬Shown k (cutBlocks [] (tableEntries m.pairs)) := fun hshown =>
        (lookupPast_ne_none_iff hstored).2 hshown heq.symm
      exact ⟨iff_of_false hmem hnot, fun hshown => absurd hshown hnot⟩
    · intro halike
      by_contra hne
      exact hmem (halike.found.2 ((lookupPast_ne_none_iff hstored).1 (Ne.symm hne)))

/-- **Keys that stay apart** are found alike. -/
theorem foundAlike_of_apart {m : MemTable} (hwf : m.WF) (hfits : Fits m.pairs) (ha : AllApart m.pairs)
    {k : Bytes} (hk : k ∈ m.pairs.map Prod.fst) : FoundAlike k m := by
  obtain ⟨t, blocks, -, -, hholds⟩ := openFile_build hfits 0
  refine (answers_iff hwf hholds hk).1 ?_
  rw [MemTable.get_eq_lookup hwf ha]
  exact hholds.get_eq_lookup (userPairs_sorted hwf.stored hwf.sorted ha) ha k

/-- **The table of a flush answers as its memtable** if and only if each user key added is found
alike in both. -/
theorem flush_get_iff (adds : List (Bytes × Bytes × ℕ)) (number : ℕ)
    (hsize : storedSize adds < 2 ^ 31) :
    ∃ t, (DB.buildTable (MemTable.new.addAll adds) fun _ => none).1 = .OK ∧
      SSTable.openFile number (DB.buildTable (MemTable.new.addAll adds) fun _ => none).2 = .ok t ∧
      ((∀ k, ∃ r, t.get k = .ok r ∧ Answers r ((MemTable.new.addAll adds).get k)) ↔
        ∀ k ∈ (MemTable.new.addAll adds).pairs.map Prod.fst,
          FoundAlike k (MemTable.new.addAll adds)) := by
  have hwf := (MemTable.addAll_spec adds).1
  have hfits := MemTable.fits_addAll hsize
  generalize MemTable.new.addAll adds = m at hwf hfits ⊢
  obtain ⟨t, blocks, hopen, -, hholds⟩ := openFile_build hfits number
  rw [buildTable_sound]
  refine ⟨t, rfl, hopen, ?_⟩
  constructor
  · intro h k hk
    exact (answers_iff hwf hholds hk).1 (h k)
  · intro h k
    by_cases hk : k ∈ m.pairs.map Prod.fst
    · exact (answers_iff hwf hholds hk).2 (h k hk)
    · rw [MemTable.get_of_not_mem hk]
      exact hholds.get_of_not_mem hk

/-- A flush of three adds, one of them a delete. -/
theorem flush_get_small : ∃ t, SSTable.openFile 1 (DB.buildTable (MemTable.new.addAll
    [([98], [1], 1), ([97], [], 1), ([98], [2], 1)]) fun _ => none).2 = .ok t ∧
    ∀ k, ∃ r, t.get k = .ok r ∧ Answers r ((MemTable.new.addAll
      [([98], [1], 1), ([97], [], 1), ([98], [2], 1)]).get k) := by
  obtain ⟨t, -, ht, hiff⟩ := flush_get_iff [([98], [1], 1), ([97], [], 1), ([98], [2], 1)] 1
    (by decide)
  exact ⟨t, ht, hiff.2 (by decide +kernel)⟩

/-- The adds that set memtable and table apart: `a` is the 255th add, so in the memtable, but
not in the table, its entry is above the lookup key of `a` followed by the byte 1. -/
def mixedAdds : List (Bytes × Bytes × ℕ) :=
  List.replicate 254 ([98], [1], 1) ++ [([97], [2], 1), ([97, 1], [3], 1)]

/-- **The table of a flush can answer where its memtable does not.** -/
theorem flush_get_differs : storedSize mixedAdds < 2 ^ 31 ∧
    (MemTable.new.addAll mixedAdds).get [97, 1] = none ∧
    ∃ t, SSTable.openFile 1 (DB.buildTable (MemTable.new.addAll mixedAdds) fun _ => none).2 = .ok t ∧
      ∃ r, t.get [97, 1] = .ok r ∧ Answers r (some [3]) := by
  have hsize : storedSize mixedAdds < 2 ^ 31 := by decide +kernel
  obtain ⟨t, blocks, hopen, -, hholds⟩ := openFile_build (MemTable.fits_addAll hsize) 1
  refine ⟨hsize, by decide +kernel, t, by simp only [buildTable_sound]; exact hopen, ?_⟩
  have hk : [97, 1] ∈ (MemTable.new.addAll mixedAdds).pairs.map Prod.fst := by decide +kernel
  have hcut : cutBlocks [] (tableEntries (MemTable.new.addAll mixedAdds).pairs) =
      [tableEntries (MemTable.new.addAll mixedAdds).pairs] :=
    cutBlocks_small (by decide +kernel) (by decide +kernel)
  have hclear : ∀ e ∈ before [97, 1] (tableEntries (MemTable.new.addAll mixedAdds).pairs),
      extractUserKey e.1 ≤ [97, 1] := by decide +kernel
  have hin : InTable [97, 1] (blocks.map DataBlock.entries) := by
    rw [hholds.cut, hcut]
    exact inTable_singleton (by rwa [userPairs_tableEntries]) hclear
  obtain ⟨r, hr, hans⟩ := hholds.get_of_inTable hk hin
  have hlook : (MemTable.new.addAll mixedAdds).pairs.lookup [97, 1] = some [3] := by decide +kernel
  exact ⟨r, hr, hlook ▸ hans⟩

end MiniLSM
