import MiniLSM.Proof.Flush
import MiniLSM.Proof.Inputs

/-!
# L1 under flushes and compactions

* `Separable`: inputs on which a compaction keeps L1 sorted.
* `Underway`: the outputs of a compaction are the merge of its inputs so far.
* `Underway.commit`: the commit of a compaction leaves a level.
-/

namespace MiniLSM

open DB Transition

/-! ## The outputs -/

/-- The entries with a value have one user key each, or they fit one output file. -/
def OneFile (es : List (Bytes × Bytes)) : Prop :=
  ((live es).map Prod.fst).Nodup ∨ totalSpace (live es) < maxOutputSize

instance (es : List (Bytes × Bytes)) : Decidable (OneFile es) := by unfold OneFile; infer_instance

instance (ps : List (Bytes × Bytes)) : Decidable (AllApart ps) := by unfold AllApart; infer_instance

/-- Inputs on which a compaction keeps L1 sorted: user keys that stay apart, no user key of L0 in
a table of L1 that is left out, and no user key with values for two output files. -/
structure Separable (l0 l1 : List SSTable) : Prop where
  apart : AllApart (allPairs (l0 ++ l1))
  none_missed : NoneMissed l0 l1
  one_file : OneFile (allContents (inputs l0 l1))

instance (l0 l1 : List SSTable) : Decidable (Separable l0 l1) :=
  decidable_of_iff (AllApart (allPairs (l0 ++ l1)) ∧ NoneMissed l0 l1 ∧
    OneFile (allContents (inputs l0 l1))) ⟨fun ⟨h1, h2, h3⟩ => ⟨h1, h2, h3⟩, fun ⟨h1, h2, h3⟩ => ⟨h1, h2, h3⟩⟩

theorem live_perm {es fs : List (Bytes × Bytes)} (h : es.Perm fs) : (live es).Perm (live fs) :=
  (h.map _).filter _

theorem OneFile.perm {es fs : List (Bytes × Bytes)} (h : OneFile es) (hp : es.Perm fs) : OneFile fs := by
  have hl := live_perm hp
  rcases h with h | h
  · exact Or.inl ((hl.map _).nodup_iff.1 h)
  · refine Or.inr ?_
    rwa [totalSpace, ← (hl.map _).sum_nat]

/-- The outputs so far and the entries left of a merge. -/
structure Outputs (merged : List (Bytes × Bytes)) (job : CompactionJob) : Prop where
  sound : ∀ t ∈ job.newLevel1, t.Sound ∧ t.pairs ≠ []
  live_eq : live merged = allPairs job.newLevel1 ++ live job.rest
  one : ((live merged).map Prod.fst).Nodup ∨
    job.newLevel1 = [] ∨ job.newLevel1.length ≤ 1 ∧ live job.rest = []

theorem live_of_busy {job : CompactionJob} (h : job.busy = true) : live job.rest ≠ [] := by
  rw [CompactionJob.busy, Bool.and_eq_true, List.any_eq_true] at h
  obtain ⟨-, e, he, hv⟩ := h
  exact List.ne_nil_of_mem (List.mem_filter.2 ⟨List.mem_map_of_mem he, by simpa using hv⟩)

theorem live_of_not_busy {job : CompactionJob} (hf : job.failed = false) (h : job.busy = false) :
    live job.rest = [] := by
  rw [CompactionJob.busy, hf, Bool.not_false, Bool.true_and, List.any_eq_false] at h
  rw [live, List.filter_eq_nil_iff]
  intro p hp
  obtain ⟨e, he, rfl⟩ := List.mem_map.1 hp
  simpa using h e he

theorem outputs_nil (merged : List (Bytes × Bytes)) {job : CompactionJob} (hrest : job.rest = merged)
    (hnil : job.newLevel1 = []) : Outputs merged job := by
  refine ⟨by simp [hnil], ?_, Or.inr (Or.inl hnil)⟩
  rw [hnil, hrest]
  rfl

/-- **Another output** takes its part of the merge. -/
theorem Outputs.next {merged : List (Bytes × Bytes)} {job : CompactionJob} (h : Outputs merged job)
    (hshort : Short (live merged)) (hone : OneFile merged) (hbusy : job.busy = true)
    {faults : ℕ → Option ℕ}
    (hio : outputResult faults job.rest = outputResult (fun _ => none) job.rest) {number : ℕ}
    {t : SSTable} {b : SSTableBuilder} {rest : List (Bytes × Bytes)}
    (hfill : fillOutput (SSTableBuilder.new { faults := faults }) job.rest = (b, rest))
    (hopen : SSTable.openFile number b.finish.2.fd.file = .ok t) :
    Outputs merged { job with rest := rest, newLevel1 := job.newLevel1 ++ [t] } := by
  have hlive := live_of_busy hbusy
  obtain rfl : (fillOutput (SSTableBuilder.new { faults := faults }) job.rest).1 = b := by rw [hfill]
  obtain rfl : (fillOutput (SSTableBuilder.new { faults := faults }) job.rest).2 = rest := by rw [hfill]
  have hsplit := h.live_eq
  obtain ⟨hsound, hne, hout, -, hall⟩ := output_table (fun p hp => hshort p (by
    rw [hsplit]; exact List.mem_append_right _ hp)) hlive hio hopen
  refine ⟨fun s hs => ?_, ?_, ?_⟩
  · rcases List.mem_append.1 hs with hs | hs
    · exact h.sound s hs
    · obtain rfl := List.mem_singleton.1 hs
      exact ⟨hsound, hne⟩
  · rw [hsplit, hout, allPairs_append, allPairs_cons, List.append_assoc, List.append_assoc]
    rfl
  · rcases h.one with hnodup | hnil | ⟨-, hnil⟩
    · exact Or.inl hnodup
    · rcases hone with hnodup | hsmall
      · exact Or.inl hnodup
      · refine Or.inr (Or.inr ⟨by simp [hnil], hall ?_⟩)
        rw [hsplit, totalSpace_append] at hsmall
        exact lt_of_le_of_lt (Nat.le_add_left _ _) hsmall
    · exact absurd hnil hlive

/-- Strictly sorted entries make tables that are below each other. -/
theorem below_of_sorted {ts : List SSTable} (h : (allPairs ts).Pairwise fun p q => p.1 < q.1) :
    ts.Pairwise Below := by
  rw [allPairs, List.pairwise_flatMap] at h
  exact h.2

/-- **The outputs of a finished merge** are below each other. -/
theorem Outputs.below {merged : List (Bytes × Bytes)} {job : CompactionJob} (h : Outputs merged job)
    (hsorted : (userPairs merged).Pairwise fun p q => p.1 ≤ q.1) (hrest : live job.rest = []) :
    job.newLevel1.Pairwise Below := by
  have hlive := h.live_eq
  rw [hrest, List.append_nil] at hlive
  rcases h.one with hnodup | hnil | ⟨hlen, -⟩
  · refine below_of_sorted ?_
    have hle : (live merged).Pairwise fun p q => p.1 ≤ q.1 :=
      List.Pairwise.sublist List.filter_sublist hsorted
    rw [List.Nodup, List.pairwise_map] at hnodup
    rw [← hlive]
    exact (hle.and hnodup).imp fun ⟨hpq, hne⟩ => lt_of_le_of_ne hpq hne
  · rw [hnil]; exact List.Pairwise.nil
  · match hts : job.newLevel1, hlen with
    | [], _ => exact List.Pairwise.nil
    | [t], _ => exact List.pairwise_singleton _ _

/-! ## A compaction under way -/

/-- A compaction against `levels_`: its snapshot is at the front of L0, L1 is as it was, and
unless it failed its outputs are those of the merge so far. -/
structure Underway (levels : Levels) (job : CompactionJob) : Prop where
  l0 : ∃ newer, levels.l0 = job.l0Snapshot ++ newer
  l1 : job.l1Snapshot = levels.l1.filter (meetsRange (minKey job.l0Snapshot) (maxKey job.l0Snapshot))
  indices : job.l1Indices = l1Indices job.l0Snapshot levels.l1
  separable : Separable job.l0Snapshot levels.l1
  outputs : job.failed = false → ∃ merged,
    Merge.Merged Prod.fst ((inputs job.l0Snapshot levels.l1).map SSTable.contents) merged ∧
      Outputs merged job

/-- The pairs of the inputs are short. -/
theorem inputs_short {l0 l1 : List SSTable} (h0 : ∀ t ∈ l0, t.Flushed) (h1 : Level l1) :
    Short (allPairs (inputs l0 l1)) := by
  intro p hp
  obtain ⟨t, ht, hpt⟩ := mem_allPairs.1 hp
  rcases List.mem_append.1 (inputs_subset l0 l1 ht) with ht | ht
  · exact (h0 t ht).short p hpt
  · exact h1.short t ht p hpt

theorem live_subset {ts : List SSTable} {merged : List (Bytes × Bytes)}
    (hm : Merge.Merged Prod.fst (ts.map SSTable.contents) merged) : live merged ⊆ allPairs ts :=
  fun _ hp => (userPairs_merged_perm hm).mem_iff.1 (mem_of_mem_live hp).1

theorem inputs_sorted {l0 l1 : List SSTable} (h0 : ∀ t ∈ l0, t.Flushed) (h1 : Level l1)
    (ha : AllApart (allPairs (l0 ++ l1))) {merged : List (Bytes × Bytes)}
    (hm : Merge.Merged Prod.fst ((inputs l0 l1).map SSTable.contents) merged) :
    (userPairs merged).Pairwise fun p q => p.1 ≤ q.1 :=
  merged_sorted (fun t ht => tables_sorted h0 h1 ha t (inputs_subset l0 l1 ht))
    (ha.of_subset (allPairs_subset (inputs_subset l0 l1))) hm

/-- **What the commit leaves**: the tables flushed behind the snapshot, and the tables kept with
the outputs. -/
theorem Underway.levels_eq {db : DB} {job : CompactionJob} (h : Underway db.levels job)
    {newer : List SSTable} (hl0 : db.levels.l0 = job.l0Snapshot ++ newer) :
    (db.compactCommit job.l0Snapshot job.l1Indices job.newLevel1).1.levels =
      { db.levels with
        l0 := newer
        l1 := sortLevel (kept job.l0Snapshot db.levels.l1 ++ job.newLevel1) } := by
  have h0 : (removeL0 db.levels.l0 job.l0Snapshot).1 = newer := by rw [hl0, removeL0_eq]
  have h1 := removeL1_eq job.l0Snapshot db.levels.l1
  rw [← h.indices] at h1
  simp only [compactCommit, h0, h1, kept]

/-- **The commit of a compaction leaves a level.** -/
theorem Underway.commit {levels : Levels} {job : CompactionJob} (h : Underway levels job)
    (h0 : ∀ t ∈ levels.l0, t.Flushed) (h1 : Level levels.l1) (hf : job.failed = false)
    (hbusy : job.busy = false) : Level (sortLevel (kept job.l0Snapshot levels.l1 ++ job.newLevel1)) := by
  obtain ⟨newer, hl0⟩ := h.l0
  have h0' : ∀ t ∈ job.l0Snapshot, t.Flushed := fun t ht => h0 t (hl0 ▸ List.mem_append_left _ ht)
  obtain ⟨merged, hm, hout⟩ := h.outputs hf
  have hrest := live_of_not_busy hf hbusy
  have hsorted := inputs_sorted h0' h1 h.separable.apart hm
  have hlive := hout.live_eq
  rw [hrest, List.append_nil] at hlive
  have hsub : allPairs job.newLevel1 ⊆ allPairs (inputs job.l0Snapshot levels.l1) := by
    rw [← hlive]; exact live_subset hm
  have hkept : ∀ {t}, t ∈ kept job.l0Snapshot levels.l1 → t ∈ levels.l1 := fun ht => (mem_kept.1 ht).1
  have hpairs : ∀ {t}, t ∈ job.newLevel1 → t.pairs.Sublist (live merged) := fun {t} ht => by
    rw [hlive, allPairs, List.flatMap_def]
    exact List.sublist_flatten_of_mem (List.mem_map_of_mem ht)
  refine level_sortLevel (fun t ht => ?_) (fun t ht => ?_) (fun t ht => ?_) (fun t ht => ?_) ?_ ?_
  -- what is kept is in order as before, what is new by the outputs
  · rcases List.mem_append.1 ht with ht | ht
    · exact h1.sound t (hkept ht)
    · exact (hout.sound t ht).1
  · rcases List.mem_append.1 ht with ht | ht
    · exact h1.short t (hkept ht)
    · exact fun p hp => inputs_short h0' h1 p (hsub (pairs_subset_allPairs ht hp))
  · rcases List.mem_append.1 ht with ht | ht
    · exact h1.nonempty t (hkept ht)
    · exact (hout.sound t ht).2
  · rcases List.mem_append.1 ht with ht | ht
    · exact h1.sorted t (hkept ht)
    · exact (hsorted.sublist List.filter_sublist).sublist (hpairs ht)
  · refine h.separable.apart.of_subset fun p hp => ?_
    rw [allPairs_append, List.mem_append] at hp
    rcases hp with hp | hp
    · exact allPairs_subset (fun t ht => List.mem_append_right _ (hkept ht)) hp
    · exact allPairs_subset (inputs_subset _ _) (hsub hp)
  · rw [List.pairwise_append]
    refine ⟨(h1.below.sublist List.filter_sublist).imp Or.inl,
      (hout.below hsorted hrest).imp Or.inl, fun t ht s hs => ?_⟩
    -- all entries of an output are entries of inputs
    rcases kept_beside h0' h1 h.separable.apart h.separable.none_missed ht with hin | hin
    · refine Or.inr fun p hp q hq => ?_
      obtain ⟨u, hu, hpu⟩ := mem_allPairs.1 (hsub (pairs_subset_allPairs hs hp))
      exact hin u hu p hpu q hq
    · refine Or.inl fun q hq p hp => ?_
      obtain ⟨u, hu, hpu⟩ := mem_allPairs.1 (hsub (pairs_subset_allPairs hs hp))
      exact hin u hu q hq p hpu

end MiniLSM
