import MiniLSM.Proof.Reading

/-!
# A compaction against `Get`

* `winner`: of the first values of a key in each input, the one that the merge yields first.
* `winner_eq`: it is the value that the outputs have for the key.
* `compaction_get_iff`: `Get` gives the same answer before and after a commit if and only if the
  key has a version above the inputs, or the winner is what `Get` finds first in them.
* `compaction_revives`: a deleted key that comes back.
-/

namespace MiniLSM

open DB Transition

/-! ## What the merge puts first -/

/-- An entry with a value for `k`. -/
def valueFor (k : Bytes) (e : Bytes × Bytes) : Bool := extractUserKey e.1 = k && e.2 ≠ []

/-- Of the first values of `k` in each table, the one with the least internal key, the leftmost
one winning a tie. -/
def winner (k : Bytes) (ts : List SSTable) : Option (Bytes × Bytes) :=
  Merge.least Prod.fst (ts.map fun t => t.contents.find? (valueFor k))

theorem lookup_live (k : Bytes) (es : List (Bytes × Bytes)) :
    (live es).lookup k = (es.find? (valueFor k)).map Prod.snd := by
  induction es with
  | nil => rfl
  | cons e es ih =>
    obtain ⟨ik, v⟩ := e
    by_cases hv : v = []
    · subst hv
      rw [live_cons_nil, ih, List.find?_cons_of_neg (by simp [valueFor])]
    · rw [live_cons hv, List.lookup_cons]
      by_cases hk : k = extractUserKey ik
      · rw [List.find?_cons_of_pos (by simp [valueFor, hk, hv]), hk, beq_self_eq_true]
        rfl
      · rw [List.find?_cons_of_neg (by simp [valueFor, Ne.symm hk]), ← ih, beq_false_of_ne hk]

/-- **What the outputs have for a key** is the winner's value. -/
theorem winner_eq {ts : List SSTable} {merged : List (Bytes × Bytes)} (hts : ∀ t ∈ ts, t.Sorted)
    (ha : AllApart (allPairs ts)) (hm : Merge.Merged Prod.fst (ts.map SSTable.contents) merged)
    (k : Bytes) : (live merged).lookup k = (winner k ts).map Prod.snd := by
  have hstored := allContents_stored fun t ht => (hts t ht).sound
  rw [lookup_live, winner, hm.find?_eq, List.map_map]
  · rfl
  · rintro l hl A x B rfl hA hx a haA e he hpe
    obtain ⟨t, ht, hcont⟩ := List.mem_map.1 hl
    rw [← List.flatMap_def] at he
    have hmem : ∀ {f}, f ∈ A ++ x :: B → f ∈ allContents ts := fun hf =>
      List.mem_flatMap.2 ⟨t, ht, hcont ▸ hf⟩
    have ham : a ∈ A ++ x :: B := List.mem_append_left _ haA
    simp only [valueFor, Bool.and_eq_true, decide_eq_true_eq] at hx hpe
    have hle : extractUserKey a.1 ≤ k := by
      have hsorted := (hts t ht).sorted
      rw [SSTable.pairs, userPairs, List.pairwise_map, hcont, List.pairwise_append] at hsorted
      exact hx.1 ▸ hsorted.2.2 a haA x List.mem_cons_self
    rcases lt_or_eq_of_le hle with hlt | heq
    · exact stored_lt hstored (by rwa [userPairs_allContents]) (hmem ham) he (hpe.1.symm ▸ hlt)
    · -- a version of `k` in front of its first value is a tombstone
      have hnil : a.2 = [] := by simpa [valueFor, heq] using hA a haA
      obtain ⟨u, s, hu⟩ := hstored a (hmem ham)
      obtain ⟨u', s', hu'⟩ := hstored e he
      rw [hu, extractUserKey_makeInternalKey] at heq
      rw [hu', extractUserKey_makeInternalKey] at hpe
      rw [hu, hu', heq, hpe.1, typeOf, if_pos hnil, typeOf, if_neg (by simpa using hpe.2)]
      exact deletion_lt_value _ _ _

/-! ## Lookups over tables that do not overlap -/

/-- A key of a table is looked up there, whatever the order of the tables. -/
theorem lookup_of_mem {ts : List SSTable} (hcmp : ts.Pairwise fun a b => Below a b ∨ Below b a)
    {t : SSTable} (ht : t ∈ ts) {k : Bytes} (hk : k ∈ t.pairs.map Prod.fst) :
    (allPairs ts).lookup k = t.pairs.lookup k := by
  obtain ⟨us, vs, rfl⟩ := List.append_of_mem ht
  rw [List.pairwise_append, List.pairwise_cons] at hcmp
  obtain ⟨p, hp, rfl⟩ := List.mem_map.1 hk
  have hother : ∀ s, Below s t ∨ Below t s → ∀ q ∈ s.pairs, q.1 ≠ p.1 := by
    rintro s (hs | hs) q hq
    · exact (hs q hq p hp).ne
    · exact (hs p hp q hq).ne'
  refine lookup_of_split ?_
  rintro s (hs | hs)
  · exact hother s (hcmp.2.2 s hs t List.mem_cons_self)
  · exact hother s (hcmp.2.1.1 s hs).symm

theorem lookup_perm {ts us : List SSTable} (hcmp : ts.Pairwise fun a b => Below a b ∨ Below b a)
    (hp : ts.Perm us) (k : Bytes) : (allPairs ts).lookup k = (allPairs us).lookup k := by
  by_cases hk : k ∈ (allPairs ts).map Prod.fst
  · obtain ⟨p, hpm, rfl⟩ := List.mem_map.1 hk
    obtain ⟨t, ht, hpt⟩ := mem_allPairs.1 hpm
    have hkt : p.1 ∈ t.pairs.map Prod.fst := List.mem_map_of_mem hpt
    rw [lookup_of_mem hcmp ht hkt,
      lookup_of_mem ((hp.pairwise_iff fun h => Or.symm h).1 hcmp) (hp.mem_iff.1 ht) hkt]
  · have hk' : k ∉ (allPairs us).map Prod.fst := by
      intro h
      obtain ⟨p, hpm, rfl⟩ := List.mem_map.1 h
      obtain ⟨t, ht, hpt⟩ := mem_allPairs.1 hpm
      exact hk (List.mem_map_of_mem (mem_allPairs.2 ⟨t, hp.mem_iff.2 ht, hpt⟩))
    rw [lookup_eq_none hk, lookup_eq_none hk']

theorem Level.compares {ts : List SSTable} (h : Level ts) :
    ts.Pairwise fun a b => Below a b ∨ Below b a := h.below.imp Or.inl

/-! ## A commit -/

/-- The versions above the inputs of a compaction, in the order of `Get`: the memtables and the
tables flushed behind the snapshot. -/
def DB.above (db : DB) (job : CompactionJob) : List (Bytes × Bytes) :=
  db.memVersions ++ allPairs (db.levels.l0.drop job.l0Snapshot.length).reverse

/-- The winner among the inputs is the version of `k` that `Get` finds first in them, and there
is none when that is a tombstone or missing. -/
def CompactionJob.NewestFirst (job : CompactionJob) (k : Bytes) : Prop :=
  (winner k (job.l0Snapshot ++ job.l1Snapshot)).map Prod.snd =
    present ((allPairs (job.l0Snapshot.reverse ++ job.l1Snapshot)).lookup k)

instance (job : CompactionJob) (k : Bytes) : Decidable (job.NewestFirst k) := by
  unfold CompactionJob.NewestFirst; infer_instance

theorem present_lookup_live (k : Bytes) (es : List (Bytes × Bytes)) :
    present ((live es).lookup k) = (live es).lookup k := by
  cases h : (live es).lookup k with
  | none => rfl
  | some v =>
    obtain ⟨l₁, l₂, heq, -⟩ := List.lookup_eq_some_iff.1 h
    have hmem : (k, v) ∈ live es := by rw [heq]; simp
    exact present_some (mem_of_mem_live hmem).2

theorem lookup_eq_none_of {ps : List (Bytes × Bytes)} {k : Bytes} (h : ∀ p ∈ ps, p.1 ≠ k) :
    ps.lookup k = none :=
  lookup_eq_none fun hk => by
    obtain ⟨p, hp, heq⟩ := List.mem_map.1 hk
    exact h p hp heq

section Commit

variable {levels : Levels} {job : CompactionJob} (h : Underway levels job)
  (h0 : ∀ t ∈ levels.l0, t.Flushed) (h1 : Level levels.l1) (hf : job.failed = false)
  (hbusy : job.busy = false)

include h in
theorem Underway.inputs_eq : job.l0Snapshot ++ job.l1Snapshot = inputs job.l0Snapshot levels.l1 := by
  rw [h.l1]
  rfl

include h h0 in
theorem Underway.snapshot_flushed : ∀ t ∈ job.l0Snapshot, t.Flushed := fun t ht => by
  obtain ⟨newer, hl0⟩ := h.l0
  exact h0 t (hl0 ▸ List.mem_append_left _ ht)

include h h0 h1 hf hbusy

/-- The outputs have the values of the winners, and entries of inputs only. -/
theorem Underway.lookup_outputs (k : Bytes) :
    (allPairs job.newLevel1).lookup k =
        (winner k (job.l0Snapshot ++ job.l1Snapshot)).map Prod.snd ∧
      present ((allPairs job.newLevel1).lookup k) = (allPairs job.newLevel1).lookup k ∧
      allPairs job.newLevel1 ⊆ allPairs (inputs job.l0Snapshot levels.l1) := by
  have h0' := h.snapshot_flushed h0
  obtain ⟨merged, hm, hout⟩ := h.outputs hf
  have hlive := hout.live_eq
  rw [live_of_not_busy hf hbusy, List.append_nil] at hlive
  rw [h.inputs_eq, ← hlive]
  refine ⟨winner_eq (fun t ht => ?_) ?_ hm k, present_lookup_live k merged, live_subset hm⟩
  · exact tables_sorted h0' h1 h.separable.apart t (inputs_subset _ _ ht)
  · exact h.separable.apart.of_subset (allPairs_subset (inputs_subset _ _))

/-- **The new L1 stands for what the snapshot and the old L1 stood for**, for one key, if and only
if the merge puts the newest version first. -/
theorem Underway.present_iff (k : Bytes) :
    present ((allPairs (job.l0Snapshot.reverse ++ levels.l1)).lookup k) =
        present ((allPairs (sortLevel (kept job.l0Snapshot levels.l1 ++ job.newLevel1))).lookup k) ↔
      job.NewestFirst k := by
  have h0' := h.snapshot_flushed h0
  obtain ⟨hwin, hpresent, hsub⟩ := h.lookup_outputs h0 h1 hf hbusy k
  have hnew : (allPairs (sortLevel (kept job.l0Snapshot levels.l1 ++ job.newLevel1))).lookup k =
      ((allPairs (kept job.l0Snapshot levels.l1)).lookup k).or
        ((allPairs job.newLevel1).lookup k) := by
    rw [lookup_perm (h.commit h0 h1 hf hbusy).compares (sortLevel_perm _), allPairs_append,
      lookup_append]
  have hold : (allPairs levels.l1).lookup k =
      ((allPairs (kept job.l0Snapshot levels.l1)).lookup k).or ((allPairs job.l1Snapshot).lookup k) := by
    have hperm : levels.l1.Perm (kept job.l0Snapshot levels.l1 ++ job.l1Snapshot) := by
      rw [h.l1]
      exact (List.filter_append_perm _ levels.l1).symm.trans List.perm_append_comm
    rw [lookup_perm h1.compares hperm, allPairs_append, lookup_append]
  rw [CompactionJob.NewestFirst, ← hwin, allPairs_append, lookup_append, hold, hnew,
    allPairs_append, lookup_append]
  by_cases hk : k ∈ (allPairs (kept job.l0Snapshot levels.l1)).map Prod.fst
  · -- no input has a key of a table that is kept
    obtain ⟨p, hp, rfl⟩ := List.mem_map.1 hk
    obtain ⟨t, ht, hpt⟩ := mem_allPairs.1 hp
    have hnone : ∀ q ∈ allPairs (inputs job.l0Snapshot levels.l1), q.1 ≠ p.1 := by
      intro q hq
      obtain ⟨s, hs, hqs⟩ := mem_allPairs.1 hq
      rcases kept_beside h0' h1 h.separable.apart h.separable.none_missed ht with hb | hb
      · exact (hb s hs q hqs p hpt).ne
      · exact (hb s hs p hpt q hqs).ne'
    rw [← h.inputs_eq] at hnone hsub
    have h0none : (allPairs job.l0Snapshot.reverse).lookup p.1 = none := lookup_eq_none_of fun q hq =>
      hnone q (allPairs_subset (fun s hs => List.mem_append_left _ (List.mem_reverse.1 hs)) hq)
    have h1none : (allPairs job.l1Snapshot).lookup p.1 = none := lookup_eq_none_of fun q hq =>
      hnone q (allPairs_subset (List.subset_append_right _ _) hq)
    have houtnone : (allPairs job.newLevel1).lookup p.1 = none := lookup_eq_none_of fun q hq =>
      hnone q (hsub hq)
    rw [h0none, h1none, houtnone, Option.none_or, Option.none_or]
    exact iff_of_true rfl rfl
  · rw [lookup_eq_none hk, Option.none_or, Option.none_or, hpresent]
    exact eq_comm

end Commit

namespace World

variable {w : World}

/-- The state that the commit of a compaction leaves. -/
theorem step_compactEnd {i : ℕ} {job : CompactionJob} (hi : w.compactions[i]? = some job)
    (hf : job.failed = false) (hbusy : job.busy = false) :
    w.step (.compactEnd i) = some (w.compactionCommitted i job) := by
  simp only [World.step, endCompaction, hi, bind, Option.bind, hf, hbusy]
  rfl

/-- The versions before a commit, and those after it. -/
theorem Ranged.versions_commit (h : w.Ranged) {i : ℕ} {job : CompactionJob}
    (hi : w.compactions[i]? = some job) :
    w.db.versions = w.db.memVersions ++ (allPairs (w.db.levels.l0.drop job.l0Snapshot.length).reverse ++
        allPairs (job.l0Snapshot.reverse ++ w.db.levels.l1)) ∧
      (w.compactionCommitted i job).db.versions = w.db.memVersions ++
        (allPairs (w.db.levels.l0.drop job.l0Snapshot.length).reverse ++
          allPairs (sortLevel (kept job.l0Snapshot w.db.levels.l1 ++ job.newLevel1))) := by
  obtain ⟨-, rfl, hjob⟩ := h.job hi
  obtain ⟨newer, hl0⟩ := hjob.l0
  have hlevels : (w.compactionCommitted 0 job).db.levels = _ := hjob.levels_eq hl0
  have hmem : (w.compactionCommitted 0 job).db.memVersions = w.db.memVersions := rfl
  rw [DB.versions, DB.versions, hmem, hlevels, hl0, List.drop_left, List.reverse_append,
    allPairs_append, allPairs_append, List.append_assoc]
  exact ⟨rfl, rfl⟩

/-- A commit brings no new user key. -/
theorem Ranged.versions_commit_apart (h : w.Ranged) {i : ℕ} {job : CompactionJob}
    (hi : w.compactions[i]? = some job) (hf : job.failed = false) (hbusy : job.busy = false)
    (ha : AllApart w.db.versions) : AllApart (w.compactionCommitted i job).db.versions := by
  obtain ⟨hold, hnew⟩ := h.versions_commit hi
  have hjob := (h.job hi).2.2
  rw [hold] at ha
  rw [hnew]
  refine ha.of_subset fun p hp => ?_
  simp only [List.mem_append] at hp ⊢
  refine hp.imp_right (Or.imp_right fun hp => ?_)
  obtain ⟨t, ht, hpt⟩ := mem_allPairs.1 hp
  rcases List.mem_append.1 ((sortLevel_perm _).mem_iff.1 ht) with ht | ht
  · exact mem_allPairs.2 ⟨t, List.mem_append_right _ (mem_kept.1 ht).1, hpt⟩
  · have hin := (hjob.lookup_outputs h.l0 h.l1 hf hbusy []).2.2 (pairs_subset_allPairs ht hpt)
    refine allPairs_subset (fun s hs => ?_) (allPairs_subset (inputs_subset _ _) hin)
    exact List.mem_append.2 ((List.mem_append.1 hs).imp_left List.mem_reverse.2)

/-- **When `Get` gives the same answer before and after a compaction's commit**: if the key has a
version above the inputs, or the merge puts first what `Get` finds first in them. -/
theorem compaction_get_iff {options : Options} (h : Reach World.step Orderly (fresh options) w) {i : ℕ}
    {job : CompactionJob} (hi : w.compactions[i]? = some job) (hf : job.failed = false)
    (hbusy : job.busy = false) (ha : AllApart w.db.versions) :
    ∃ w', w.step (.compactEnd i) = some w' ∧ ∀ k, ∃ r r', w.db.get k = .ok r ∧ w'.db.get k = .ok r' ∧
      (Agree r r' ↔ (w.db.above job).lookup k ≠ none ∨ job.NewestFirst k) := by
  have hr := ranged_of_reach h
  have hfiles := files_of_reach h
  have hstep := step_compactEnd hi hf hbusy
  obtain ⟨hold, hnew⟩ := hr.versions_commit hi
  have hjob := (hr.job hi).2.2
  have ha' := hr.versions_commit_apart hi hf hbusy ha
  refine ⟨_, hstep, fun k => ⟨_, _, hr.get_eq hfiles ha k,
    (hr.compactionCommitted hi hf hbusy).get_eq (hfiles.compactionCommitted hi) ha' k, ?_⟩⟩
  rw [agree_answer, hold, hnew, ← List.append_assoc, ← List.append_assoc, ← DB.above,
    lookup_append (w.db.above job), lookup_append (w.db.above job)]
  cases (w.db.above job).lookup k with
  | some v => exact iff_of_true rfl (Or.inl (by simp))
  | none =>
    rw [Option.none_or, Option.none_or, hjob.present_iff hr.l0 hr.l1 hf hbusy k]
    simp

/-- A run up to a commit, with a flush and a write behind the snapshot. -/
def commitReadyRun : List Label :=
  thenFlush (.put [106] [1]) ++ thenFlush (.put [107] [1]) ++ thenFlush (.delete [107]) ++
    [.compactBegin] ++ thenFlush (.put [107] [3]) ++ [.compactOutput 0 (fun _ => none) true]

instance (w : World) : Decidable (AllApart w.db.versions) := by unfold AllApart; infer_instance

theorem compaction_get_iff_commitReadyRun : ∃ w w',
    run World.step Orderly (fresh smallest) commitReadyRun = some w ∧
      w.step (.compactEnd 0) = some w' ∧ ∀ k ∈ [[106], [107]], ∃ r r', w.db.get k = .ok r ∧
        w'.db.get k = .ok r' ∧ Agree r r' := by
  have hrun : ((run World.step Orderly (fresh smallest) commitReadyRun).bind fun w =>
      w.compactions[0]?.map fun job => (job.failed, job.busy, decide (AllApart w.db.versions),
        decide (∀ k ∈ ([[106], [107]] : List Bytes), (w.db.above job).lookup k ≠ none ∨ job.NewestFirst k))) =
      some (false, false, true, true) := by decide +kernel
  obtain ⟨w, hw, hjob⟩ := Option.bind_eq_some_iff.1 hrun
  obtain ⟨job, hi, heq⟩ := Option.map_eq_some_iff.1 hjob
  simp only [Prod.mk.injEq, decide_eq_true_eq] at heq
  obtain ⟨hf, hbusy, ha, hcond⟩ := heq
  obtain ⟨w', hstep, hget⟩ := compaction_get_iff (reach_of_run hw) hi hf hbusy ha
  refine ⟨w, w', hw, hstep, fun k hk => ?_⟩
  obtain ⟨r, r', hr, hr', hiff⟩ := hget k
  exact ⟨r, r', hr, hr', hiff.2 (hcond k hk)⟩

/-- **A deleted key comes back**: the compaction drops the tombstone of `[107]` and keeps the
value below it. -/
theorem compaction_revives : ∃ w w', Reach World.step Orderly (fresh smallest) w ∧
    w.step (.compactEnd 0) = some w' ∧
      (w.db.get [107]).toOption = some (.notFound "deleted", some []) ∧
      (w'.db.get [107]).toOption = some (.OK, some [1]) := by
  have hrun : ((run World.step Orderly (fresh smallest)
      (thenFlush (.put [107] [1]) ++ thenFlush (.delete [107]) ++ thenFlush (.put [122] [9]) ++
        [.compactBegin, .compactOutput 0 (fun _ => none) true])).bind fun w =>
      (w.step (.compactEnd 0)).map fun w' => ((w.db.get [107]).toOption, (w'.db.get [107]).toOption)) =
      some (some (.notFound "deleted", some []), some (.OK, some [1])) := by decide +kernel
  obtain ⟨w, hw, hstep⟩ := Option.bind_eq_some_iff.1 hrun
  obtain ⟨w', hw', heq⟩ := Option.map_eq_some_iff.1 hstep
  simp only [Prod.mk.injEq] at heq
  exact ⟨w, w', reach_of_run hw, hw', heq⟩

end World

end MiniLSM
