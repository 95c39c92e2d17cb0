import MiniLSM.Proof.Latest

/-!
# Scanning a database

* `Ranged.newIterator_eq`: `NewIterator` yields the greedy merge of all memtables and tables.
* `scan_iff`: its user keys are strictly ascending and its entries are those that `Get` returns
  if and only if every user key has one version and that is no tombstone.
* `scan_repeats`: a deleted key is yielded twice.
-/

namespace MiniLSM

open DB Transition

/-- The first value for a key among pairs with different keys. -/
theorem lookup_eq_some_iff_mem {ps : List (Bytes × Bytes)} (h : (ps.map Prod.fst).Nodup)
    {k v : Bytes} : ps.lookup k = some v ↔ (k, v) ∈ ps := by
  induction ps with
  | nil => simp
  | cons p ps ih =>
    rw [List.map_cons, List.nodup_cons] at h
    rw [List.lookup_cons, List.mem_cons]
    by_cases hk : k = p.1
    · subst hk
      rw [beq_self_eq_true]
      refine ⟨fun hv => Or.inl (by rw [← Option.some.inj hv]), fun hv => ?_⟩
      rcases hv with hv | hv
      · rw [← hv]
      · exact absurd (List.mem_map_of_mem hv) h.1
    · rw [beq_false_of_ne hk, ih h.2]
      refine ⟨Or.inr, fun hv => hv.resolve_left ?_⟩
      rintro rfl
      exact hk rfl

theorem answer_eq_ok {u : Option Bytes} {v : Bytes} :
    answer u = (.OK, some v) ↔ present u = some v := by
  rcases answer_spec u with ⟨a, hu, ha⟩ | ⟨hu, ha⟩
  · rw [hu, ha]
    simp
  · rw [hu]
    refine ⟨fun h => ?_, nofun⟩
    rw [h] at ha
    cases ha

/-! ## What the iterator yields -/

/-- The entries of each child of `NewIterator`, in its order. -/
def DB.layers (db : DB) : List (List (Bytes × Bytes)) :=
  db.mem.entries :: ((db.imm.map MemTable.entries).toList ++ db.levels.tables.map SSTable.contents)

namespace World

variable {w : World}

theorem Ranged.tables_sound (h : w.Ranged) (hfiles : w.Files) : ∀ t ∈ w.db.levels.tables, t.Sound := by
  intro t ht
  rw [tables_eq hfiles.deeper] at ht
  rcases List.mem_append.1 ht with ht | ht
  · exact (h.l0 t ht).sound
  · exact h.l1.sound t ht

/-- The children of `NewIterator` yield the layers. -/
theorem Ranged.iterators_eq (h : w.Ranged) (hfiles : w.Files) : ∃ its, w.db.iterators = .ok its ∧
    List.Forall₂ (fun c l => ∃ c', Iterator.seekToFirst c = .ok c' ∧ Yields c' l) its w.db.layers := by
  obtain ⟨its, hits, hys⟩ := mapM_new (h.tables_sound hfiles)
  have hmem : ∀ m : MemTable, ∃ c', Iterator.seekToFirst (ChildIterator.mem (.new m)) = .ok c' ∧
      Yields c' m.entries := fun m =>
    ⟨.mem (.new m), rfl, ChildIterator.yields_mem (MemTableIterator.yields m.table.nodes)⟩
  refine ⟨_, by rw [DB.iterators, hits]; rfl, .cons (hmem _) (List.rel_append ?_ hys)⟩
  cases w.db.imm with
  | none => exact .nil
  | some m => exact .cons (hmem m) .nil

/-- **`NewIterator` yields the greedy merge of all layers.** -/
theorem Ranged.newIterator_eq (h : w.Ranged) (hfiles : w.Files) : ∃ it merged,
    w.db.newIterator = .ok it ∧ Yields it merged ∧ Merge.Merged Prod.fst w.db.layers merged := by
  obtain ⟨its, hits, hys⟩ := h.iterators_eq hfiles
  obtain ⟨merged, hm⟩ := Merge.Merged.exists_merged Prod.fst w.db.layers
  obtain ⟨it, hnew, hy⟩ := MergeIterator.new_yields hys hm
  refine ⟨it, merged, ?_, hy, hm⟩
  rw [DB.newIterator, hits]
  exact hnew

theorem userPairs_layers (hfiles : w.Files) : (userPairs w.db.layers.flatten).Perm w.db.versions := by
  have himm : userPairs ((w.db.imm.map MemTable.entries).toList.flatten) =
      (w.db.imm.map MemTable.pairs).getD [] := by
    cases w.db.imm with
    | none => rfl
    | some m => simp [MemTable.pairs]
  have htables : userPairs (w.db.levels.tables.map SSTable.contents).flatten =
      allPairs w.db.levels.l0 ++ allPairs w.db.levels.l1 := by
    rw [← List.flatMap_def, ← allPairs_append, ← userPairs_allContents, tables_eq hfiles.deeper]
    rfl
  rw [DB.layers, List.flatten_cons, List.flatten_append, userPairs_append, userPairs_append, himm,
    htables, ← List.append_assoc]
  exact ((List.reverse_perm w.db.levels.l0).symm.flatMap_right _ |>.append_right _).append_left _

/-- The user keys of the scan are sorted, when they stay apart. -/
theorem Ranged.scan_sorted (h : w.Ranged) (hfiles : w.Files) (ha : AllApart w.db.versions)
    {merged : List (Bytes × Bytes)} (hm : Merge.Merged Prod.fst w.db.layers merged) :
    (userPairs merged).Pairwise fun p q => p.1 ≤ q.1 := by
  obtain ⟨hamem, haimm, hatables⟩ := versions_parts ha
  have hstored : ∀ e ∈ w.db.layers.flatten, Stored e := by
    intro e he
    obtain ⟨l, hl, hel⟩ := List.mem_flatten.1 he
    rcases List.mem_cons.1 hl with rfl | hl
    · exact h.mem.stored e hel
    rcases List.mem_append.1 hl with hl | hl
    · obtain ⟨m, hi, rfl⟩ := Option.map_eq_some_iff.1 (Option.mem_toList.1 hl)
      exact (h.imm m hi).stored e hel
    · obtain ⟨t, ht, rfl⟩ := List.mem_map.1 hl
      exact (h.tables_sound hfiles t ht).stored e hel
  have hapart : AllApart (userPairs w.db.layers.flatten) :=
    ha.of_subset (userPairs_layers hfiles).subset
  rw [userPairs, List.pairwise_map]
  refine hm.sorted (fun x hx y hy hlt => stored_lt hstored hapart hx hy hlt) fun l hl => ?_
  rcases List.mem_cons.1 hl with rfl | hl
  · have hsorted := userPairs_sorted h.mem.stored h.mem.sorted hamem
    rwa [userPairs, List.pairwise_map] at hsorted
  rcases List.mem_append.1 hl with hl | hl
  · obtain ⟨m, hi, rfl⟩ := Option.map_eq_some_iff.1 (Option.mem_toList.1 hl)
    have hsorted := userPairs_sorted (h.imm m hi).stored (h.imm m hi).sorted (haimm m hi)
    rwa [userPairs, List.pairwise_map] at hsorted
  · obtain ⟨t, ht, rfl⟩ := List.mem_map.1 hl
    rw [tables_eq hfiles.deeper] at ht
    have hsorted := (tables_sorted h.l0 h.l1 hatables t ht).sorted
    rwa [SSTable.pairs, userPairs, List.pairwise_map] at hsorted

/-! ## The scan against `Get` -/

/-- A scan in strictly ascending user keys, with the entries that `Get` returns. -/
def Faithful (db : DB) (es : List (Bytes × Bytes)) : Prop :=
  (userPairs es).Pairwise (fun p q => p.1 < q.1) ∧
    ∀ k v, (k, v) ∈ userPairs es ↔ db.get k = .ok (.OK, some v)

/-- Every user key has one version, which is no tombstone. -/
def OneVersion (ps : List (Bytes × Bytes)) : Prop := (ps.map Prod.fst).Nodup ∧ ∀ p ∈ ps, p.2 ≠ []

instance (ps : List (Bytes × Bytes)) : Decidable (OneVersion ps) := by
  unfold OneVersion; infer_instance

/-- **When a scan agrees with `Get`**: if and only if every user key has one version over all
memtables and tables, which is no tombstone. -/
theorem scan_iff {options : Options} (h : Reach World.step Orderly (fresh options) w)
    (ha : AllApart w.db.versions) : ∃ it es, w.db.newIterator = .ok it ∧
      (∀ n, es.length ≤ n → drain n it = .ok es) ∧
      (Faithful w.db es ↔ OneVersion w.db.versions) := by
  have hr := ranged_of_reach h
  have hfiles := files_of_reach h
  obtain ⟨it, es, hnew, hy, hm⟩ := hr.newIterator_eq hfiles
  refine ⟨it, es, hnew, fun n hn => drain_of_yields hy hn, ?_⟩
  have hperm : (userPairs es).Perm w.db.versions := (hm.perm.map _).trans (userPairs_layers hfiles)
  have hkeys : ((userPairs es).map Prod.fst).Nodup ↔ (w.db.versions.map Prod.fst).Nodup :=
    (hperm.map _).nodup_iff
  have hget : ∀ k v, w.db.get k = .ok (.OK, some v) ↔ present (w.db.versions.lookup k) = some v :=
    fun k v => by
      rw [hr.get_eq hfiles ha k, ← answer_eq_ok]
      exact ⟨Except.ok.inj, congrArg Except.ok⟩
  constructor
  · rintro ⟨hsorted, hall⟩
    refine ⟨hkeys.1 ?_, fun p hp hnil => ?_⟩
    · rw [List.Nodup, List.pairwise_map]
      exact hsorted.imp ne_of_lt
    -- a tombstone in the scan would be a key with a value for `Get`
    · have hpresent := (hget p.1 p.2).1 ((hall p.1 p.2).1 (hperm.mem_iff.2 hp))
      rw [hnil, present, Option.filter_eq_some_iff] at hpresent
      simp at hpresent
  · rintro ⟨hnodup, hvalues⟩
    refine ⟨?_, fun k v => ?_⟩
    · have hne := hkeys.2 hnodup
      rw [List.Nodup, List.pairwise_map] at hne
      exact ((hr.scan_sorted hfiles ha hm).and hne).imp fun h => lt_of_le_of_ne h.1 h.2
    · rw [hperm.mem_iff, hget, ← lookup_eq_some_iff_mem hnodup]
      refine ⟨fun hv => ?_, fun hv => ?_⟩
      · rw [hv]
        exact present_some (hvalues _ ((lookup_eq_some_iff_mem hnodup).1 hv))
      · rw [present, Option.filter_eq_some_iff] at hv
        exact hv.1

theorem scan_iff_levelRun : ∃ w it es, run World.step Orderly (fresh smallest)
      (thenFlush (.put [106] [1]) ++ thenFlush (.put [107] [1]) ++ thenFlush (.put [122] [1]) ++
        compactOnce ++ thenFlush (.put [108] [1])) = some w ∧
    w.db.levels.l0.length = 1 ∧ w.db.levels.l1.length = 1 ∧ w.db.newIterator = .ok it ∧
      (∀ n, es.length ≤ n → drain n it = .ok es) ∧ Faithful w.db es := by
  have hrun : (run World.step Orderly (fresh smallest)
      (thenFlush (.put [106] [1]) ++ thenFlush (.put [107] [1]) ++ thenFlush (.put [122] [1]) ++
        compactOnce ++ thenFlush (.put [108] [1]))).map (fun w => (w.db.levels.l0.length,
          w.db.levels.l1.length, decide (AllApart w.db.versions), decide (OneVersion w.db.versions))) =
      some (1, 1, true, true) := by decide +kernel
  obtain ⟨w, hw, heq⟩ := Option.map_eq_some_iff.1 hrun
  simp only [Prod.mk.injEq, decide_eq_true_eq] at heq
  obtain ⟨hl0, hl1, ha, hone⟩ := heq
  obtain ⟨it, es, hnew, hdrain, hiff⟩ := scan_iff (reach_of_run hw) ha
  exact ⟨w, it, es, hw, hl0, hl1, hnew, hdrain, hiff.2 hone⟩

set_option synthInstance.maxSize 1000 in
/-- **A scan repeats a deleted key**: it yields the tombstone and the value below it, while `Get`
finds nothing. -/
theorem scan_repeats : ∃ w, Reach World.step Orderly (fresh {}) w ∧
    (w.db.newIterator >>= fun it => userPairs <$> drain 3 it).toOption =
      some [([107], []), ([107], [1])] ∧
      (w.db.get [107]).toOption = some (.notFound "deleted", some []) := by
  have hrun : (run World.step Orderly (fresh {})
      [.write (.put [107] [1]) 1 true, .write (.delete [107]) 1 true]).map (fun w =>
        ((w.db.newIterator >>= fun it => userPairs <$> drain 3 it).toOption,
          (w.db.get [107]).toOption)) =
      some (some [([107], []), ([107], [1])], some (.notFound "deleted", some [])) := by
    decide +kernel
  obtain ⟨w, hw, heq⟩ := Option.map_eq_some_iff.1 hrun
  simp only [Prod.mk.injEq] at heq
  exact ⟨w, reach_of_run hw, heq⟩

end World

end MiniLSM
