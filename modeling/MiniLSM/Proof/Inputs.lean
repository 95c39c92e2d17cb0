import MiniLSM.Proof.Level
import MiniLSM.Proof.MergeIterator
import MiniLSM.Proof.RefCount

/-!
# The inputs of a compaction

* `l1Inputs_eq`, `removeL1_eq`: the tables of L1 that pass the range test are merged, and
  removed by the commit; the others stay.
* `kept_beside`: a table that stays lies on one side of all inputs, when it has no user key of
  L0 and the user keys stay apart.
* `mergeInputs_eq`: the entries that a compaction goes through are the greedy merge of its
  inputs, and `merged_sorted`: their user keys are sorted.
-/

namespace MiniLSM

open DB

/-! ## The range of L0 -/

/-- The least and the greatest of some keys, as the loops over the snapshot find them. -/
theorem foldl_min_le (f : SSTable → Bytes) (ts : List SSTable) (k : Bytes) :
    ts.foldl (fun k t => if Slice.compare (f t) k = .lt then f t else k) k ≤ k ∧
      ∀ t ∈ ts, ts.foldl (fun k t => if Slice.compare (f t) k = .lt then f t else k) k ≤ f t := by
  induction ts generalizing k with
  | nil => exact ⟨le_refl _, by simp⟩
  | cons t ts ih =>
    obtain ⟨hk, hts⟩ := ih (if Slice.compare (f t) k = .lt then f t else k)
    have hle : (if Slice.compare (f t) k = .lt then f t else k) ≤ k ∧
        (if Slice.compare (f t) k = .lt then f t else k) ≤ f t := by
      simp only [Slice.compare_eq_lt]
      split
      · exact ⟨le_of_lt ‹_›, le_refl _⟩
      · exact ⟨le_refl _, not_lt.1 ‹_›⟩
    rw [List.foldl_cons]
    exact ⟨hk.trans hle.1, List.forall_mem_cons.2 ⟨hk.trans hle.2, hts⟩⟩

theorem le_foldl_max (f : SSTable → Bytes) (ts : List SSTable) (k : Bytes) :
    k ≤ ts.foldl (fun k t => if Slice.compare (f t) k = .gt then f t else k) k ∧
      ∀ t ∈ ts, f t ≤ ts.foldl (fun k t => if Slice.compare (f t) k = .gt then f t else k) k := by
  induction ts generalizing k with
  | nil => exact ⟨le_refl _, by simp⟩
  | cons t ts ih =>
    obtain ⟨hk, hts⟩ := ih (if Slice.compare (f t) k = .gt then f t else k)
    have hle : k ≤ (if Slice.compare (f t) k = .gt then f t else k) ∧
        f t ≤ (if Slice.compare (f t) k = .gt then f t else k) := by
      simp only [Slice.compare_eq_gt]
      split
      · exact ⟨le_of_lt ‹_›, le_refl _⟩
      · exact ⟨le_refl _, not_lt.1 ‹_›⟩
    rw [List.foldl_cons]
    exact ⟨hle.1.trans hk, List.forall_mem_cons.2 ⟨hle.2.trans hk, hts⟩⟩

/-- No table of L0 starts before `min_key`. -/
theorem minKey_le {ts : List SSTable} {t : SSTable} (ht : t ∈ ts) : minKey ts ≤ t.firstKey := by
  cases ts with
  | nil => cases ht
  | cons s ts =>
    obtain ⟨hs, hts⟩ := foldl_min_le SSTable.firstKey ts s.firstKey
    rcases List.mem_cons.1 ht with rfl | ht
    · exact hs
    · exact hts t ht

/-- No table of L0 ends behind `max_key`. -/
theorem le_maxKey {ts : List SSTable} {t : SSTable} (ht : t ∈ ts) : t.lastKey ≤ maxKey ts := by
  cases ts with
  | nil => cases ht
  | cons s ts =>
    obtain ⟨hs, hts⟩ := le_foldl_max SSTable.lastKey ts s.lastKey
    rcases List.mem_cons.1 ht with rfl | ht
    · exact hs
    · exact hts t ht

/-! ## Selecting and removing -/

/-- The indices of the elements with a property. -/
def indicesOf (p : SSTable → Bool) (ts : List SSTable) : List ℕ :=
  (List.range ts.length).filter fun i => (ts[i]?.map p).getD false

theorem l1Indices_eq (l0 l1 : List SSTable) :
    l1Indices l0 l1 = indicesOf (meetsRange (minKey l0) (maxKey l0)) l1 := rfl

theorem l1Inputs_indicesOf (p : SSTable → Bool) (ts : List SSTable) :
    World.l1Inputs ts (indicesOf p ts) = ts.filter p := by
  induction ts with
  | nil => rfl
  | cons t ts ih =>
    rw [World.l1Inputs, indicesOf] at ih ⊢
    rw [List.length_cons, List.range_succ_eq_map, List.filter_cons, List.filter_map, List.filter_cons,
      ← ih]
    cases hp : p t <;> simp [hp, List.filterMap_map, Function.comp_def]

/-- **The L1 inputs** are the tables that pass the range test. -/
theorem l1Inputs_eq (l0 l1 : List SSTable) :
    World.l1Inputs l1 (l1Indices l0 l1) = l1.filter (meetsRange (minKey l0) (maxKey l0)) := by
  rw [l1Indices_eq, l1Inputs_indicesOf]

theorem indicesOf_append (p : SSTable → Bool) (ts : List SSTable) (t : SSTable) :
    indicesOf p (ts ++ [t]) = indicesOf p ts ++ if p t then [ts.length] else [] := by
  have hrange : ∀ i ∈ List.range ts.length, (((ts ++ [t])[i]?.map p).getD false) =
      ((ts[i]?.map p).getD false) := fun i hi => by
    rw [List.getElem?_append_left (List.mem_range.1 hi)]
  rw [indicesOf, List.length_append, List.length_singleton, List.range_succ, List.filter_append,
    List.filter_congr hrange, indicesOf]
  congr 1
  cases hp : p t <;> simp [hp]

theorem indicesOf_pairwise (p : SSTable → Bool) (ts : List SSTable) : (indicesOf p ts).Pairwise (· < ·) :=
  List.pairwise_lt_range.filter _

/-- Removing from the greatest index down leaves the tables without the property. -/
theorem removeL1_indicesOf (p : SSTable → Bool) (ts us : List SSTable) :
    (removeL1 (ts ++ us) (indicesOf p ts).reverse).1 = (ts.filter fun t => !p t) ++ us := by
  induction ts using List.reverseRecOn generalizing us with
  | nil => rfl
  | append_singleton ts t ih =>
    rw [indicesOf_append, List.filter_append]
    cases hp : p t with
    | false => simpa [hp] using ih (t :: us)
    | true =>
      have hget : (ts ++ [t] ++ us)[ts.length]? = some t := by simp
      have herase : (ts ++ [t] ++ us).eraseIdx ts.length = ts ++ us := by
        rw [List.append_assoc, List.eraseIdx_append_of_length_le (le_refl _)]
        simp
      simp only [if_true, List.reverse_append, List.reverse_singleton, List.singleton_append, removeL1,
        hget, herase, ih us]
      simp [hp]

/-- **The tables of L1 that a compaction keeps** are those that fail the range test. -/
theorem removeL1_eq (l0 l1 : List SSTable) :
    (removeL1 l1 ((l1Indices l0 l1).insertionSort fun a b => b ≤ a)).1 =
      l1.filter fun t => !meetsRange (minKey l0) (maxKey l0) t := by
  have hrev : (l1Indices l0 l1).reverse.Pairwise fun a b => b ≤ a :=
    List.pairwise_reverse.2 ((indicesOf_pairwise _ l1).imp le_of_lt)
  have hsort : (l1Indices l0 l1).insertionSort (fun a b => b ≤ a) = (l1Indices l0 l1).reverse :=
    ((List.perm_insertionSort _ _).trans (List.reverse_perm _).symm).eq_of_pairwise'
      (List.pairwise_insertionSort _ _) hrev
  have h := removeL1_indicesOf (meetsRange (minKey l0) (maxKey l0)) l1 []
  rw [List.append_nil, List.append_nil] at h
  rw [hsort, l1Indices_eq, h]

/-- **Removing the snapshot** leaves the tables that were flushed behind it. -/
theorem removeL0_eq (ts us : List SSTable) : (removeL0 (ts ++ us) ts).1 = us := by
  induction ts with
  | nil => rfl
  | cons t ts ih => rw [removeL0, List.cons_append, List.erase_cons_head, ih]

/-! ## Tables that are kept -/

/-- A table that a flush can have built. -/
structure SSTable.Flushed (t : SSTable) : Prop where
  sound : t.Sound
  short : Short t.pairs
  sorted : AllApart t.pairs → t.pairs.Pairwise fun p q => p.1 ≤ q.1

/-- The tables that a compaction merges, in its order. -/
def inputs (l0 l1 : List SSTable) : List SSTable := l0 ++ l1.filter (meetsRange (minKey l0) (maxKey l0))

/-- The tables of L1 that a compaction keeps. -/
def kept (l0 l1 : List SSTable) : List SSTable :=
  l1.filter fun t => !meetsRange (minKey l0) (maxKey l0) t

/-- No table that is kept has a user key of L0. -/
def NoneMissed (l0 l1 : List SSTable) : Prop :=
  ∀ t ∈ kept l0 l1, ∀ q ∈ t.pairs, ∀ p ∈ allPairs l0, p.1 ≠ q.1

instance (l0 l1 : List SSTable) : Decidable (NoneMissed l0 l1) := by
  unfold NoneMissed; infer_instance

theorem mem_kept {l0 l1 : List SSTable} {t : SSTable} : t ∈ kept l0 l1 ↔
    t ∈ l1 ∧ (maxKey l0 < t.firstKey ∨ t.lastKey < minKey l0) := by
  simp [kept, meetsRange]

theorem mem_inputs {l0 l1 : List SSTable} {s : SSTable} : s ∈ inputs l0 l1 ↔
    s ∈ l0 ∨ s ∈ l1 ∧ s.firstKey ≤ maxKey l0 ∧ minKey l0 ≤ s.lastKey := by
  simp [inputs, meetsRange]

theorem inputs_subset (l0 l1 : List SSTable) : inputs l0 l1 ⊆ l0 ++ l1 := fun s hs => by
  rw [List.mem_append]
  exact (mem_inputs.1 hs).imp_right And.left

variable {l0 l1 : List SSTable}

/-- All tables are sorted, when their user keys stay apart. -/
theorem tables_sorted (h0 : ∀ t ∈ l0, t.Flushed) (h1 : Level l1) (ha : AllApart (allPairs (l0 ++ l1))) :
    ∀ t ∈ l0 ++ l1, t.Sorted := by
  intro t ht
  have hat : AllApart t.pairs := ha.of_subset (pairs_subset_allPairs ht)
  rcases List.mem_append.1 ht with ht | ht
  · exact ⟨(h0 t ht).sound, (h0 t ht).sorted hat, hat⟩
  · exact h1.table ht

/-- **A table that is kept lies on one side of all inputs.** -/
theorem kept_beside (h0 : ∀ t ∈ l0, t.Flushed) (h1 : Level l1) (ha : AllApart (allPairs (l0 ++ l1)))
    (hmiss : NoneMissed l0 l1) {t : SSTable} (ht : t ∈ kept l0 l1) :
    (∀ s ∈ inputs l0 l1, Below s t) ∨ ∀ s ∈ inputs l0 l1, Below t s := by
  have hts := tables_sorted h0 h1 ha
  obtain ⟨ht1, hout⟩ := mem_kept.1 ht
  have htm : t ∈ l0 ++ l1 := List.mem_append_right _ ht1
  have hmem : ∀ {s}, s ∈ inputs l0 l1 → s ∈ l0 ++ l1 := fun hs => inputs_subset l0 l1 hs
  have hne : ∀ s ∈ l1, s.firstKey ≤ maxKey l0 → minKey l0 ≤ s.lastKey → s ≠ t := by
    rintro s - hlo hhi rfl
    rcases hout with hout | hout
    · exact absurd hlo (not_le.2 hout)
    · exact absurd hhi (not_le.2 hout)
  rcases hout with hout | hout
  · refine Or.inl fun s hs => ?_
    rcases mem_inputs.1 hs with hs0 | ⟨hs1, hlo, hhi⟩
    · intro p hp q hq
      have hle := userKeys_le hts ha (hmem hs) htm ((le_maxKey hs0).trans hout.le) hp hq
      exact lt_of_le_of_ne hle (hmiss t ht q hq p (mem_allPairs.2 ⟨s, hs0, hp⟩))
    · refine (h1.compare hs1 ht1 (hne s hs1 hlo hhi)).resolve_right fun hts' => ?_
      have hlt := (hts'.keys_lt hts ha htm (hmem hs) (h1.nonempty t ht1) (h1.nonempty s hs1)).1
      exact absurd (hlo.trans hout.le) (not_le.2 hlt)
  · refine Or.inr fun s hs => ?_
    rcases mem_inputs.1 hs with hs0 | ⟨hs1, hlo, hhi⟩
    · intro q hq p hp
      have hle := userKeys_le hts ha htm (hmem hs) (hout.le.trans (minKey_le hs0)) hq hp
      exact lt_of_le_of_ne hle (hmiss t ht q hq p (mem_allPairs.2 ⟨s, hs0, hp⟩)).symm
    · refine (h1.compare hs1 ht1 (hne s hs1 hlo hhi)).resolve_left fun hst => ?_
      have hlt := (hst.keys_lt hts ha (hmem hs) htm (h1.nonempty s hs1) (h1.nonempty t ht1)).2
      exact absurd (hout.le.trans hhi) (not_le.2 hlt)

/-! ## The merge -/

/-- The iterators over the inputs. -/
theorem mapM_new {ts : List SSTable} (h : ∀ t ∈ ts, t.Sound) :
    ∃ its, ts.mapM (fun t => ChildIterator.sst <$> SSTableIterator.new t) = .ok its ∧
      List.Forall₂ (fun c l => ∃ c', Iterator.seekToFirst c = .ok c' ∧ Yields c' l) its
        (ts.map SSTable.contents) := by
  induction ts with
  | nil => exact ⟨[], rfl, .nil⟩
  | cons t ts ih =>
    obtain ⟨its, hits, hys⟩ := ih fun s hs => h s (List.mem_cons_of_mem _ hs)
    obtain ⟨blocks, hholds⟩ := h t List.mem_cons_self
    obtain ⟨it, hnew, htable, -⟩ := SSTableIterator.new_yields hholds.toLaid
    obtain ⟨it', hseek, -, hy⟩ := SSTableIterator.seekToFirst_yields hholds.toLaid htable
    refine ⟨.sst it :: its, ?_, .cons ⟨.sst it', ?_, ?_⟩ hys⟩
    · rw [List.mapM_cons, hnew, hits]
      rfl
    · show ChildIterator.sst <$> Iterator.seekToFirst it = _
      rw [show Iterator.seekToFirst it = SSTableIterator.seekToFirst it from rfl, hseek]
      rfl
    · rw [hholds.contents_eq]
      exact ChildIterator.yields_sst hy

theorem length_allContents_le {ts : List SSTable} (h : ∀ t ∈ ts, t.Sound) :
    (allContents ts).length ≤ (ts.map fun t => t.data.length).sum := by
  induction ts with
  | nil => exact le_refl _
  | cons t ts ih =>
    have hts := ih fun s hs => h s (List.mem_cons_of_mem _ hs)
    obtain ⟨blocks, hholds⟩ := h t List.mem_cons_self
    have ht := hholds.length_le_data
    rw [← hholds.contents_eq] at ht
    rw [allContents, List.flatMap_cons, List.length_append, List.map_cons, List.sum_cons]
    exact Nat.add_le_add ht hts

/-- The merge iterator over the inputs yields their greedy merge. -/
theorem exists_merge {ts : List SSTable} (h : ∀ t ∈ ts, t.Sound) : ∃ merged its it,
    ts.mapM (fun t => ChildIterator.sst <$> SSTableIterator.new t) = .ok its ∧
      MergeIterator.new its = .ok it ∧ Yields it merged ∧
      Merge.Merged Prod.fst (ts.map SSTable.contents) merged := by
  obtain ⟨merged, hm⟩ := Merge.Merged.exists_merged Prod.fst (ts.map SSTable.contents)
  obtain ⟨its, hits, hys⟩ := mapM_new h
  obtain ⟨it, hnew, hy⟩ := MergeIterator.new_yields hys hm
  exact ⟨merged, its, it, hits, hnew, hy, hm⟩

/-- **A compaction goes through the greedy merge of its inputs.** -/
theorem mergeInputs_eq {ts : List SSTable} (h : ∀ t ∈ ts, t.Sound) : ∃ merged,
    mergeInputs ts = .ok merged ∧ Merge.Merged Prod.fst (ts.map SSTable.contents) merged := by
  obtain ⟨merged, its, it, hits, hnew, hy, hm⟩ := exists_merge h
  have hlen : merged.length ≤ (ts.map fun t => t.data.length).sum := by
    rw [hm.perm.length_eq, ← List.flatMap_def]
    exact length_allContents_le h
  refine ⟨merged, ?_, hm⟩
  rw [mergeInputs, hits]
  simp only [bind, Except.bind, hnew, drain_of_yields hy hlen]

variable {ts : List SSTable} {merged : List (Bytes × Bytes)}

theorem merged_perm (hm : Merge.Merged Prod.fst (ts.map SSTable.contents) merged) :
    merged.Perm (allContents ts) := by
  rw [allContents, List.flatMap_def]
  exact hm.perm

theorem userPairs_merged_perm (hm : Merge.Merged Prod.fst (ts.map SSTable.contents) merged) :
    (userPairs merged).Perm (allPairs ts) := by
  rw [← userPairs_allContents]
  exact (merged_perm hm).map _

/-- **The user keys of the merge are sorted**, when they stay apart. -/
theorem merged_sorted (hts : ∀ t ∈ ts, t.Sorted) (ha : AllApart (allPairs ts))
    (hm : Merge.Merged Prod.fst (ts.map SSTable.contents) merged) :
    (userPairs merged).Pairwise fun p q => p.1 ≤ q.1 := by
  have hstored := allContents_stored fun t ht => (hts t ht).sound
  rw [userPairs, List.pairwise_map]
  refine hm.sorted (fun x hx y hy hlt => ?_) fun l hl => ?_
  · rw [← List.flatMap_def] at hx hy
    exact stored_lt hstored (by rwa [userPairs_allContents]) hx hy hlt
  · obtain ⟨t, ht, rfl⟩ := List.mem_map.1 hl
    have hsorted := (hts t ht).sorted
    rwa [SSTable.pairs, userPairs, List.pairwise_map] at hsorted

end MiniLSM
