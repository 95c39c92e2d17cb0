import MiniLSM.Proof.RefCount
import MiniLSM.Proof.Ordered

/-!
# The tables that a compaction's commit removes

L0 inputs are removed by pointer, L1 inputs at the positions they had at the snapshot.

* `CommitsOwn db job`: the commit removes and unlinks the tables of its own snapshot and no others.
* `InPlace job l1`: the recorded positions of `levels_[1]` still hold the snapshot's tables.
* `commitsOwn_iff_inPlace`: in every reachable state the first is the second.
* `inPlace_of_commitsAlone`: they do when no commit finds another compaction under way.
* `commit_removes_output`: of two compactions at a time the second removes the output of the first.
-/

namespace MiniLSM

open Transition

/-- **A commit removes its own inputs**: all of them that are still there, and no other table of
`levels_` is removed nor any other file unlinked. -/
structure CommitsOwn (db : DB) (job : CompactionJob) : Prop where
  removed : ∀ t ∈ db.levels.tables,
    t ∉ (db.compactCommit job.l0Snapshot job.l1Indices job.newLevel1).1.levels.tables → t ∈ job.inputs
  unlinked : ∀ n, .unlinkSst n ∈ (db.compactCommit job.l0Snapshot job.l1Indices job.newLevel1).2 →
    ∃ t ∈ job.inputs, t.number = n
  gone : ∀ t ∈ job.inputs,
    t ∉ (db.compactCommit job.l0Snapshot job.l1Indices job.newLevel1).1.levels.tables

/-- The tables at the recorded positions are those of the L1 snapshot that are still in L1. -/
def CompactionJob.InPlace (job : CompactionJob) (l1 : List SSTable) : Prop :=
  ∀ t ∈ l1, t ∈ job.l1Snapshot ↔ ∃ i ∈ job.l1Indices, l1[i]? = some t

instance (job : CompactionJob) (l1 : List SSTable) : Decidable (job.InPlace l1) :=
  List.decidableBAll _ _

namespace World

variable {w w' : World}

/-! ## Removing by position -/

/-- Positions below an erased one keep their tables. -/
theorem mem_removedL1 {l1 : List SSTable} {indices : List ℕ} (h : indices.Pairwise fun a b => b < a)
    {t : SSTable} : t ∈ DB.removedL1 l1 indices ↔ ∃ i ∈ indices, l1[i]? = some t := by
  induction indices generalizing l1 with
  | nil => simp [DB.removedL1]
  | cons i indices ih =>
    obtain ⟨hlt, htail⟩ := List.pairwise_cons.1 h
    have hkeep : ∀ j ∈ indices, (l1.eraseIdx i)[j]? = l1[j]? := fun j hj =>
      List.getElem?_eraseIdx_of_lt (hlt j hj)
    rw [DB.removedL1]
    cases hi : l1[i]? with
    | none => simp [ih htail, hi]
    | some s =>
      simp only [List.mem_cons, ih htail, exists_eq_or_imp, hi, Option.some.injEq]
      refine or_congr eq_comm (exists_congr fun j => and_congr_right fun hj => ?_)
      rw [hkeep j hj]

/-- The recorded positions in the order in which they are removed. -/
theorem sorted_indices {indices : List ℕ} (h : indices.Nodup) :
    (indices.insertionSort fun a b => b ≤ a).Pairwise fun a b => b < a := by
  have hsorted := List.pairwise_insertionSort (fun a b : ℕ => b ≤ a) indices
  have hnodup : (indices.insertionSort fun a b => b ≤ a).Pairwise fun a b => a ≠ b :=
    (List.perm_insertionSort _ indices).nodup_iff.2 h
  exact (hsorted.and hnodup).imp fun h => lt_of_le_of_ne h.1 (Ne.symm h.2)

/-! ## Snapshots of L1 -/

/-- The numbers in use: of tables, of flushes, and of outputs. -/
theorem exists_mem_files {n : ℕ} : (∃ f ∈ w.files, f.1 = n) ↔ (∃ t ∈ w.db.levels.tables, t.number = n) ∨
    (∃ job ∈ w.flushes, job.number = n) ∨ ∃ job ∈ w.compactions, ∃ t ∈ job.newLevel1, t.number = n := by
  simp only [files, numbered, List.mem_append, List.mem_map, List.mem_flatMap]
  constructor
  · rintro ⟨_, ⟨t, ht, rfl⟩ | ⟨job, hjob, rfl⟩ | ⟨t, ⟨job, hjob, ht⟩, rfl⟩, rfl⟩
    · exact .inl ⟨t, ht, rfl⟩
    · exact .inr (.inl ⟨job, hjob, rfl⟩)
    · exact .inr (.inr ⟨job, hjob, t, ht, rfl⟩)
  · rintro (⟨t, ht, rfl⟩ | ⟨job, hjob, rfl⟩ | ⟨job, hjob, t, ht, rfl⟩)
    · exact ⟨_, .inl ⟨t, ht, rfl⟩, rfl⟩
    · exact ⟨_, .inr (.inl ⟨job, hjob, rfl⟩), rfl⟩
    · exact ⟨_, .inr (.inr ⟨t, ⟨job, hjob, ht⟩, rfl⟩), rfl⟩

/-- A number that can no longer come into use. -/
def Spent (w : World) (n : ℕ) : Prop := n < w.db.nextFileNumber ∧ ∀ f ∈ w.files, f.1 ≠ n

theorem Spent.next {n : ℕ} (h : w.Spent n) (hle : w.db.nextFileNumber ≤ w'.db.nextFileNumber)
    (hnum : (∃ f ∈ w'.files, f.1 = n) → n = w.db.nextFileNumber ∨ ∃ f ∈ w.files, f.1 = n) :
    w'.Spent n := by
  refine ⟨h.1.trans_le hle, fun f hf heq => ?_⟩
  rcases hnum ⟨f, hf, heq⟩ with hn | ⟨g, hg, hgn⟩
  · exact absurd h.1 (by omega)
  · exact h.2 g hg hgn

/-- What a step does to the numbers and to L1. -/
structure Advances (w w' : World) : Prop where
  spent : ∀ n, w.Spent n → w'.Spent n
  l1 : ∀ t ∈ w.db.levels.l1, t ∈ w'.db.levels.l1 ∨ w'.Spent t.number

/-- Steps that leave `levels_` alone and give out at most the next number. -/
theorem advances_of_levels (hl : w'.db.levels = w.db.levels)
    (hle : w.db.nextFileNumber ≤ w'.db.nextFileNumber)
    (hf : ∀ job ∈ w'.flushes, job.number = w.db.nextFileNumber ∨
      ∃ old ∈ w.flushes, old.number = job.number)
    (hc : ∀ job ∈ w'.compactions, ∀ t ∈ job.newLevel1, t.number = w.db.nextFileNumber ∨
      ∃ old ∈ w.compactions, t ∈ old.newLevel1) : Advances w w' := by
  refine ⟨fun n h => h.next hle fun hn => ?_, fun t ht => .inl (hl ▸ ht)⟩
  rw [exists_mem_files, hl] at hn
  rw [exists_mem_files]
  rcases hn with hn | ⟨job, hjob, rfl⟩ | ⟨job, hjob, t, ht, rfl⟩
  · exact .inr (.inl hn)
  · exact (hf job hjob).imp_right fun hold => .inr (.inl hold)
  · exact (hc job hjob t ht).imp_right fun ⟨old, hold, hmem⟩ => .inr (.inr ⟨old, hold, t, hmem, rfl⟩)

theorem Files.advances_flush (h : w.Files) {i : ℕ} {job : FlushJob} {t : SSTable}
    (hi : w.flushes[i]? = some job) (hres : job.result = .opened t) :
    Advances w (w.flushCommitted i t) := by
  have hnum : t.number = job.number := by
    refine (h.registered.onDisk job.number t ((files_flush_self hi).mem_iff.2 ?_)).1
    rw [FlushJob.table, hres]
    exact List.mem_cons_self
  refine ⟨fun n hn => hn.next (le_refl _) fun hin => .inr ?_, fun s hs => .inl hs⟩
  rw [exists_mem_files] at hin ⊢
  rcases hin with ⟨s, hs, rfl⟩ | ⟨j, hj, rfl⟩ | hout
  · rcases List.mem_append.1 hs with hs | hs
    · rcases List.mem_append.1 hs with hs | hs
      · exact .inl ⟨s, l0_subset_tables hs, rfl⟩
      · obtain rfl := List.mem_singleton.1 hs
        exact .inr (.inl ⟨job, List.mem_of_getElem? hi, hnum.symm⟩)
    · exact .inl ⟨s, List.mem_append_right _ hs, rfl⟩
  · exact .inr (.inl ⟨j, List.mem_of_mem_eraseIdx hj, rfl⟩)
  · exact .inr (.inr hout)

/-- A commit spends the numbers of all tables that leave. -/
theorem Files.advances_commit (h : w.Files) {i : ℕ} {job : CompactionJob}
    (hi : w.compactions[i]? = some job) : Advances w (w.compactionCommitted i job) := by
  obtain ⟨gone0, gone1, hperm0, hperm1, -, -, hsub1, -, -⟩ :=
    compactCommit_spec w.db job.l0Snapshot job.l1Indices job.newLevel1
  have hfiles := h.commit_files hi hperm0 hperm1
  refine ⟨fun n hn => hn.next (le_refl _) fun ⟨f, hf, heq⟩ => .inr ⟨f, ?_, heq⟩, fun t ht => ?_⟩
  · exact hfiles.mem_iff.2 (List.mem_append_right _ hf)
  · rcases List.mem_append.1 (hperm1.mem_iff.1 (List.mem_append_left _ ht)) with hg | hk
    · refine .inr ⟨h.lt_next (l1_subset_tables ht), fun f hf => ?_⟩
      exact (h.registered.perm hfiles).disjoint
        (List.mem_map_of_mem (f := fun t => (t.number, some t)) (List.mem_append_right _ hg)) hf
    · exact .inl hk

/-- **Numbers are spent for good, and a table leaves L1 for good.** -/
theorem Files.advances (h : w.Files) {l : Label} (hre : ∀ o hs, l ≠ .reopen o hs)
    (hstep : w.step l = some w') : Advances w w' := by
  have hflush : ∀ job ∈ w.flushes, job.number = w.db.nextFileNumber ∨
      ∃ old ∈ w.flushes, old.number = job.number := fun job hjob => .inr ⟨job, hjob, rfl⟩
  have hcompact : ∀ job ∈ w.compactions, ∀ t ∈ job.newLevel1, t.number = w.db.nextFileNumber ∨
      ∃ old ∈ w.compactions, t ∈ old.newLevel1 := fun job hjob t ht => .inr ⟨job, hjob, ht⟩
  cases step_event hstep with
  | wrote => exact advances_of_levels rfl (le_refl _) hflush hcompact
  | waits => exact advances_of_levels rfl (le_refl _) hflush hcompact
  | rotated => exact advances_of_levels rfl (le_refl _) hflush hcompact
  | rotateFailed => exact advances_of_levels rfl (le_refl _) hflush hcompact
  | flushBegun =>
    refine advances_of_levels rfl (Nat.le_succ _) (fun job hjob => ?_) hcompact
    rcases List.mem_append.1 hjob with hjob | hjob
    · exact hflush job hjob
    · obtain rfl := List.mem_singleton.1 hjob
      exact .inl rfl
  | flushBuilt hi =>
    refine advances_of_levels rfl (le_refl _) (fun job hjob => ?_) hcompact
    rcases List.mem_or_eq_of_mem_set hjob with hjob | rfl
    · exact hflush job hjob
    · exact .inr ⟨_, List.mem_of_getElem? hi, rfl⟩
  | flushNotBuilt hi =>
    refine advances_of_levels rfl (le_refl _) (fun job hjob => ?_) hcompact
    rcases List.mem_or_eq_of_mem_set hjob with hjob | rfl
    · exact hflush job hjob
    · exact .inr ⟨_, List.mem_of_getElem? hi, rfl⟩
  | flushCommitted hi hres => exact h.advances_flush hi hres
  | flushFailed =>
    exact advances_of_levels rfl (le_refl _) (fun job hjob => hflush job (List.mem_of_mem_eraseIdx hjob)) hcompact
  | flushDropped =>
    exact advances_of_levels rfl (le_refl _) (fun job hjob => hflush job (List.mem_of_mem_eraseIdx hjob)) hcompact
  | compactionBegun =>
    refine advances_of_levels rfl (le_refl _) hflush fun job hjob t ht => ?_
    rcases List.mem_append.1 hjob with hjob | hjob
    · exact hcompact job hjob t ht
    · obtain rfl := List.mem_singleton.1 hjob
      cases ht
  | @outputWritten i old _ _ _ _ hi _ _ _ hopen =>
    refine advances_of_levels rfl (Nat.le_succ _) hflush fun job hjob t ht => ?_
    rcases List.mem_or_eq_of_mem_set hjob with hjob | rfl
    · exact hcompact job hjob t ht
    · rcases List.mem_append.1 ht with ht | ht
      · exact .inr ⟨old, List.mem_of_getElem? hi, ht⟩
      · obtain rfl := List.mem_singleton.1 ht
        exact .inl (SSTable.openFile_ok hopen).1
  | @outputFailed i old _ _ _ _ hi =>
    refine advances_of_levels rfl (Nat.le_succ _) hflush fun job hjob t ht => ?_
    rcases List.mem_or_eq_of_mem_set hjob with hjob | rfl
    · exact hcompact job hjob t ht
    · exact .inr ⟨old, List.mem_of_getElem? hi, ht⟩
  | compactionCommitted hi => exact h.advances_commit hi
  | compactionFailed =>
    exact advances_of_levels rfl (le_refl _) hflush fun job hjob => hcompact job (List.mem_of_mem_eraseIdx hjob)
  | reopened => exact absurd rfl (hre _ _)

/-- Positions are recorded once, and a table of an L1 snapshot is still in L1 or spent. -/
structure Recalled (w : World) : Prop where
  nodup : ∀ job ∈ w.compactions, job.l1Indices.Nodup
  snapshot : ∀ job ∈ w.compactions, ∀ t ∈ job.l1Snapshot, t ∈ w.db.levels.l1 ∨ w.Spent t.number

/-- Only the first section of a compaction records a snapshot. -/
theorem snapshot_of_step {l : Label} (hstep : w.step l = some w') {job : CompactionJob}
    (hjob : job ∈ w'.compactions) :
    (∃ old ∈ w.compactions, job.l1Indices = old.l1Indices ∧ job.l1Snapshot = old.l1Snapshot) ∨
      ∃ rest, job = newCompaction w.db rest := by
  have hold : ∀ {job}, job ∈ w.compactions → (∃ old ∈ w.compactions,
      job.l1Indices = old.l1Indices ∧ job.l1Snapshot = old.l1Snapshot) ∨
        ∃ rest, job = newCompaction w.db rest := fun {job} h => .inl ⟨job, h, rfl, rfl⟩
  cases step_event hstep with
  | compactionBegun =>
    rcases List.mem_append.1 hjob with hjob | hjob
    · exact hold hjob
    · exact .inr ⟨_, List.mem_singleton.1 hjob⟩
  | @outputWritten i old _ _ _ _ hi =>
    rcases List.mem_or_eq_of_mem_set hjob with hjob | rfl
    · exact hold hjob
    · exact .inl ⟨old, List.mem_of_getElem? hi, rfl, rfl⟩
  | @outputFailed i old _ _ _ _ hi =>
    rcases List.mem_or_eq_of_mem_set hjob with hjob | rfl
    · exact hold hjob
    · exact .inl ⟨old, List.mem_of_getElem? hi, rfl, rfl⟩
  | compactionCommitted => exact hold (List.mem_of_mem_eraseIdx hjob)
  | compactionFailed => exact hold (List.mem_of_mem_eraseIdx hjob)
  | _ => exact hold hjob

theorem Recalled.step (h : w.Recalled) (hfiles : w.Files) {l : Label} (hstep : w.step l = some w') :
    w'.Recalled := by
  by_cases hre : ∀ o hs, l ≠ .reopen o hs
  · have hadv := hfiles.advances hre hstep
    refine ⟨fun job hjob => ?_, fun job hjob t ht => ?_⟩
    · rcases snapshot_of_step hstep hjob with ⟨old, hold, hidx, -⟩ | ⟨rest, rfl⟩
      · exact hidx ▸ h.nodup old hold
      · exact List.nodup_range.filter _
    · have hbefore : t ∈ w.db.levels.l1 ∨ w.Spent t.number := by
        rcases snapshot_of_step hstep hjob with ⟨old, hold, -, hsnap⟩ | ⟨rest, rfl⟩
        · exact h.snapshot old hold t (hsnap ▸ ht)
        · exact .inl (l1Inputs_subset _ _ ht)
      rcases hbefore with hin | hspent
      · exact hadv.l1 t hin
      · exact .inr (hadv.spent _ hspent)
  · -- no compaction is under way when the database is opened again
    push Not at hre
    obtain ⟨o, hs, rfl⟩ := hre
    have hnone : ∀ job, job ∉ w'.compactions := by
      obtain ⟨-, hc, db, ops, -, rfl⟩ := reopen_cases hstep
      simp [hc]
    exact ⟨fun job hjob => absurd hjob (hnone job), fun job hjob => absurd hjob (hnone job)⟩

theorem recalled_of_reach {ok : World → Label → Prop} {options : Options}
    (h : Reach World.step ok (fresh options) w) : w.Recalled :=
  Reach.invariant_of (fun _ => files_of_reach) ⟨by simp [fresh], by simp [fresh]⟩
    (fun _ _ _ hf hi _ hs => hi.step hf hs) h

/-! ## The commit -/

theorem removeL1_ops (l1 : List SSTable) (indices : List ℕ) :
    (DB.removeL1 l1 indices).2 = (DB.removedL1 l1 indices).map fun t => .unlinkSst t.number := by
  induction indices generalizing l1 with
  | nil => rfl
  | cons i indices ih =>
    cases hi : l1[i]? with
    | none => simp only [DB.removeL1, DB.removedL1, hi, ih]
    | some t => simp only [DB.removeL1, DB.removedL1, hi, ih, List.map_cons]

/-- The tables of `levels_` behind a commit. -/
theorem mem_compactCommit {db : DB} {job : CompactionJob} (hdeeper : db.levels.deeper = [[], []])
    (h0 : db.levels.l0.Nodup) (h1 : db.levels.l1.Nodup) (hidx : job.l1Indices.Nodup) (t : SSTable) :
    t ∈ (db.compactCommit job.l0Snapshot job.l1Indices job.newLevel1).1.levels.tables ↔
      (t ∈ db.levels.l0 ∧ t ∉ job.l0Snapshot) ∨
      (t ∈ db.levels.l1 ∧ ¬∃ i ∈ job.l1Indices, db.levels.l1[i]? = some t) ∨ t ∈ job.newLevel1 := by
  have hl0 : t ∈ (DB.removeL0 db.levels.l0 job.l0Snapshot).1 ↔ t ∈ db.levels.l0 ∧ t ∉ job.l0Snapshot := by
    obtain ⟨gone, hperm, hall, hsub, -⟩ := removeL0_spec db.levels.l0 job.l0Snapshot
    have hdisj := List.disjoint_of_nodup_append (hperm.nodup_iff.1 h0)
    constructor
    · intro ht
      have hin := hperm.mem_iff.2 (List.mem_append_right _ ht)
      exact ⟨hin, fun hs => hdisj (hall t hs hin) ht⟩
    · rintro ⟨ht, hs⟩
      exact (List.mem_append.1 (hperm.mem_iff.1 ht)).resolve_left fun hg => hs (hsub t hg)
  have hl1 : t ∈ (DB.removeL1 db.levels.l1 (job.l1Indices.insertionSort fun a b => b ≤ a)).1 ↔
      t ∈ db.levels.l1 ∧ ¬∃ i ∈ job.l1Indices, db.levels.l1[i]? = some t := by
    have hperm := removeL1_perm db.levels.l1 (job.l1Indices.insertionSort fun a b => b ≤ a)
    have hdisj := List.disjoint_of_nodup_append (hperm.nodup_iff.1 h1)
    have hgone := @mem_removedL1 db.levels.l1 _ (sorted_indices hidx) t
    simp only [List.mem_insertionSort] at hgone
    rw [← hgone]
    constructor
    · intro ht
      exact ⟨hperm.mem_iff.2 (List.mem_append_right _ ht), fun hg => hdisj hg ht⟩
    · rintro ⟨ht, hg⟩
      exact (List.mem_append.1 (hperm.mem_iff.1 ht)).resolve_left hg
  rw [← hl0, ← hl1]
  simp [DB.compactCommit, Levels.tables, Levels.toList, hdeeper, DB.sortLevel]

/-- A table is in L0, in L1, or the output of one compaction. -/
theorem Files.tables_nodup (h : w.Files) {i : ℕ} {job : CompactionJob}
    (hi : w.compactions[i]? = some job) :
    (job.newLevel1 ++ (w.db.levels.l0 ++ w.db.levels.l1)).Nodup := by
  have hnd := (h.registered.perm (files_compaction_self hi)).nodup
  rw [← tables_eq h.deeper]
  have hsub : ((job.newLevel1 ++ w.db.levels.tables).map (·.number)).Sublist
      ((numbered job.newLevel1 ++
        ({ w with compactions := w.compactions.eraseIdx i } : World).files).map Prod.fst) := by
    simp only [files, numbered, List.map_append, List.map_map]
    exact List.Sublist.append_left (List.sublist_append_left _ _) _
  exact (hnd.sublist hsub).of_map _

theorem Spent.not_mem {t : SSTable} (h : w.Spent t.number) :
    t ∉ w.db.levels.tables ∧ ∀ job ∈ w.compactions, t ∉ job.newLevel1 := by
  constructor
  · intro ht
    obtain ⟨f, hf, heq⟩ := exists_mem_files.2 (.inl ⟨t, ht, rfl⟩)
    exact h.2 f hf heq
  · intro job hjob ht
    obtain ⟨f, hf, heq⟩ := exists_mem_files.2 (.inr (.inr ⟨job, hjob, t, ht, rfl⟩))
    exact h.2 f hf heq

section

variable {job : CompactionJob}

theorem Files.mem_tables (h : w.Files) {t : SSTable} :
    t ∈ w.db.levels.tables ↔ t ∈ w.db.levels.l0 ∨ t ∈ w.db.levels.l1 := by
  rw [tables_eq h.deeper, List.mem_append]

/-- A table of L0 is not one of L1, and neither is an output of the compaction. -/
theorem Files.apart (h : w.Files) (hjob : job ∈ w.compactions) {t : SSTable} :
    ¬(t ∈ w.db.levels.l0 ∧ t ∈ w.db.levels.l1) ∧ ¬(t ∈ w.db.levels.tables ∧ t ∈ job.newLevel1) := by
  obtain ⟨i, hi⟩ := List.mem_iff_getElem?.1 hjob
  obtain ⟨-, hnd, hnew⟩ := List.nodup_append.1 (h.tables_nodup hi)
  refine ⟨fun ⟨h0, h1⟩ => (List.nodup_append.1 hnd).2.2 t h0 t h1 rfl, fun ⟨ht, hout⟩ => ?_⟩
  exact hnew t hout t (List.mem_append.2 (h.mem_tables.1 ht)) rfl

/-- The tables of `levels_` behind the commit of a compaction under way. -/
theorem Recalled.mem_commit (hrecalled : w.Recalled) (hfiles : w.Files) (hjob : job ∈ w.compactions)
    (t : SSTable) :
    t ∈ (w.db.compactCommit job.l0Snapshot job.l1Indices job.newLevel1).1.levels.tables ↔
      (t ∈ w.db.levels.l0 ∧ t ∉ job.l0Snapshot) ∨
      (t ∈ w.db.levels.l1 ∧ ¬∃ i ∈ job.l1Indices, w.db.levels.l1[i]? = some t) ∨ t ∈ job.newLevel1 := by
  obtain ⟨i, hi⟩ := List.mem_iff_getElem?.1 hjob
  obtain ⟨-, hnd, -⟩ := List.nodup_append.1 (hfiles.tables_nodup hi)
  obtain ⟨h0, h1, -⟩ := List.nodup_append.1 hnd
  exact mem_compactCommit hfiles.deeper h0 h1 (hrecalled.nodup job hjob) t

/-- The tables of the snapshots are where they were, or spent. -/
theorem Recalled.inputs (hrecalled : w.Recalled) (hfiles : w.Files) (hjob : job ∈ w.compactions)
    {t : SSTable} (ht : t ∈ job.l0Snapshot ++ job.l1Snapshot) :
    (t ∈ job.l0Snapshot ∧ t ∈ w.db.levels.l0) ∨ (t ∈ job.l1Snapshot ∧ t ∈ w.db.levels.l1) ∨
      w.Spent t.number := by
  rcases List.mem_append.1 ht with hs | hs
  · exact (hfiles.snapshot job hjob t hs).imp (fun h0 => ⟨hs, h0⟩) .inr
  · exact .inr ((hrecalled.snapshot job hjob t hs).imp_left fun h1 => ⟨hs, h1⟩)

/-- A commit that removes its own inputs finds them in place. -/
theorem Recalled.inPlace_of_commitsOwn (hrecalled : w.Recalled) (hfiles : w.Files)
    (hjob : job ∈ w.compactions) (hown : CommitsOwn w.db job) : job.InPlace w.db.levels.l1 := by
  intro t ht
  have htables := hfiles.mem_tables.2 (.inr ht)
  have hmem := hrecalled.mem_commit hfiles hjob t
  obtain ⟨h01, hnew⟩ := @Files.apart _ _ hfiles hjob t
  constructor
  · intro hs
    by_contra hno
    exact hown.gone t (List.mem_append_right _ hs) (hmem.2 (.inr (.inl ⟨ht, hno⟩)))
  · intro hpos
    have hgone : t ∉ (w.db.compactCommit job.l0Snapshot job.l1Indices job.newLevel1).1.levels.tables := by
      intro hin
      rcases hmem.1 hin with ⟨ht0, -⟩ | ⟨-, hno⟩ | hout
      · exact h01 ⟨ht0, ht⟩
      · exact hno hpos
      · exact hnew ⟨htables, hout⟩
    rcases hrecalled.inputs hfiles hjob (hown.removed t htables hgone) with ⟨-, ht0⟩ | ⟨hs, -⟩ | hspent
    · exact absurd ⟨ht0, ht⟩ h01
    · exact hs
    · exact absurd htables hspent.not_mem.1

/-- A commit that finds its inputs in place removes them and nothing else. -/
theorem Recalled.commitsOwn_of_inPlace (hrecalled : w.Recalled) (hfiles : w.Files)
    (hjob : job ∈ w.compactions) (hplace : job.InPlace w.db.levels.l1) : CommitsOwn w.db job := by
  have hidx := hrecalled.nodup job hjob
  have hmem := hrecalled.mem_commit hfiles hjob
  -- what leaves `levels_`, what is unlinked, and what is still there behind the commit
  refine ⟨fun t ht hgone => ?_, fun n hn => ?_, fun t ht hin => ?_⟩
  · rw [hmem, not_or, not_or] at hgone
    rcases hfiles.mem_tables.1 ht with ht | ht
    · exact List.mem_append_left _ (by_contra fun hs => hgone.1 ⟨ht, hs⟩)
    · have hpos := by_contra fun hno => hgone.2.1 ⟨ht, hno⟩
      exact List.mem_append_right _ ((hplace t ht).2 hpos)
  · obtain ⟨gone, -, -, -, hops0⟩ := removeL0_spec w.db.levels.l0 job.l0Snapshot
    have hops : FsOp.unlinkSst n ∈ (job.l0Snapshot ++ DB.removedL1 w.db.levels.l1
        (job.l1Indices.insertionSort fun a b => b ≤ a)).map fun t => FsOp.unlinkSst t.number := by
      simpa [DB.compactCommit, hops0, removeL1_ops, DB.writeManifest] using hn
    obtain ⟨t, ht, heq⟩ := List.mem_map.1 hops
    refine ⟨t, ?_, FsOp.unlinkSst.inj heq⟩
    rcases List.mem_append.1 ht with ht | ht
    · exact List.mem_append_left _ ht
    · obtain ⟨k, hk, hat⟩ := (mem_removedL1 (sorted_indices hidx)).1 ht
      rw [List.mem_insertionSort] at hk
      exact List.mem_append_right _ ((hplace t (List.mem_of_getElem? hat)).2 ⟨k, hk, hat⟩)
  · obtain ⟨h01, hnew⟩ := @Files.apart _ _ hfiles hjob t
    -- an input is in one place only, from which the commit takes it
    rcases hrecalled.inputs hfiles hjob ht with ⟨hs, ht0⟩ | ⟨hs, ht1⟩ | hspent
    · rcases (hmem t).1 hin with ⟨-, hno⟩ | ⟨ht1, -⟩ | hout
      · exact hno hs
      · exact h01 ⟨ht0, ht1⟩
      · exact hnew ⟨hfiles.mem_tables.2 (.inl ht0), hout⟩
    · rcases (hmem t).1 hin with ⟨ht0, -⟩ | ⟨-, hno⟩ | hout
      · exact h01 ⟨ht0, ht1⟩
      · exact hno ((hplace t ht1).1 hs)
      · exact hnew ⟨hfiles.mem_tables.2 (.inr ht1), hout⟩
    · obtain ⟨hnot, hnone⟩ := hspent.not_mem
      rw [hfiles.mem_tables] at hnot
      rcases (hmem t).1 hin with ⟨ht0, -⟩ | ⟨ht1, -⟩ | hout
      · exact hnot (.inl ht0)
      · exact hnot (.inr ht1)
      · exact hnone job hjob hout

theorem Recalled.commitsOwn_iff (hrecalled : w.Recalled) (hfiles : w.Files)
    (hjob : job ∈ w.compactions) : CommitsOwn w.db job ↔ job.InPlace w.db.levels.l1 :=
  ⟨hrecalled.inPlace_of_commitsOwn hfiles hjob, hrecalled.commitsOwn_of_inPlace hfiles hjob⟩

end

/-- **A commit removes its own inputs if and only if they are in place**, in every state that any
interleaving of writes, flushes and compactions reaches. -/
theorem commitsOwn_iff_inPlace {ok : World → Label → Prop} {options : Options}
    (h : Reach World.step ok (fresh options) w) :
    ∀ job ∈ w.compactions, CommitsOwn w.db job ↔ job.InPlace w.db.levels.l1 := fun _ hjob =>
  (recalled_of_reach h).commitsOwn_iff (files_of_reach h) hjob

/-- Two compactions at a time, the second of which has nothing to replace in L1 any more. -/
theorem commitsOwn_iff_inPlace_overlap : ∃ w, Reach World.step (fun _ _ => True) (fresh smallest) w ∧
    w.compactions.length = 1 ∧ ∀ job ∈ w.compactions, CommitsOwn w.db job := by
  have hrun : (run World.step (fun _ _ => True) (fresh smallest)
      (thenFlush (.put [107] [1]) ++ thenFlush (.put [107] [2]) ++
        [.compactBegin, .compactBegin, .compactOutput 0 (fun _ => none) true, .compactEnd 0])).map
      (fun w => (w.compactions.length, decide (∀ job ∈ w.compactions, job.InPlace w.db.levels.l1))) =
        some (1, true) := by decide +kernel
  obtain ⟨w, hw, heq⟩ := Option.map_eq_some_iff.1 hrun
  simp only [Prod.mk.injEq, decide_eq_true_eq] at heq
  refine ⟨w, reach_of_run hw, heq.1, fun job hjob => ?_⟩
  exact (commitsOwn_iff_inPlace (reach_of_run hw) job hjob).2 (heq.2 job hjob)

set_option synthInstance.maxSize 1000 in
/-- **Of two compactions at a time the second removes the output of the first**: table 5 now stands
where table 3 of both snapshots stood. -/
theorem commit_removes_output : ∃ w job, Reach World.step (fun _ _ => True) (fresh smallest) w ∧
    job ∈ w.compactions ∧ job.failed = false ∧ job.busy = false ∧
      job.inputs.map (·.number) = [4, 3] ∧ w.db.levels.l1.map (·.number) = [5] ∧
      .unlinkSst 5 ∈ (w.db.compactCommit job.l0Snapshot job.l1Indices job.newLevel1).2 ∧
      ¬CommitsOwn w.db job := by
  have hrun : (run World.step (fun _ _ => True) (fresh smallest)
      (thenFlush (.put [107] [1]) ++ thenFlush (.put [107] [2]) ++ compactOnce ++
        thenFlush (.put [107] [3]) ++ [.compactBegin, .compactBegin, .compactOutput 0 (fun _ => none) true,
          .compactEnd 0, .compactOutput 0 (fun _ => none) true])).map
      (fun w => (w.db.levels.l1.map (·.number), w.compactions.map fun job =>
        (job.failed, job.busy, job.inputs.map (·.number), decide (FsOp.unlinkSst 5 ∈
          (w.db.compactCommit job.l0Snapshot job.l1Indices job.newLevel1).2)))) =
        some ([5], [(false, false, [4, 3], true)]) := by decide +kernel
  obtain ⟨w, hw, heq⟩ := Option.map_eq_some_iff.1 hrun
  simp only [Prod.mk.injEq] at heq
  obtain ⟨hl1, hjobs⟩ := heq
  obtain ⟨job, rest, hcons, hjob, -⟩ := List.map_eq_cons_iff.1 hjobs
  simp only [Prod.mk.injEq, decide_eq_true_eq] at hjob
  obtain ⟨hfailed, hbusy, hinputs, hunlink⟩ := hjob
  refine ⟨w, job, reach_of_run hw, by simp [hcons], hfailed, hbusy, hinputs, hl1, hunlink, fun hown => ?_⟩
  obtain ⟨t, ht, hnum⟩ := hown.unlinked 5 hunlink
  have hmem : t.number ∈ job.inputs.map (·.number) := List.mem_map_of_mem ht
  rw [hinputs, hnum] at hmem
  exact absurd hmem (by decide)

/-! ## Commits without company -/

/-- The commit of a compaction finds no other one under way. -/
def CommitsAlone (w : World) : Label → Prop
  | .compactEnd i => ∀ job ∈ w.compactions[i]?, job.failed = false → w.compactions = [job]
  | _ => True

/-- While a compaction is under way, such a step leaves L1 alone. -/
theorem l1_of_step {l : Label} (hok : CommitsAlone w l) (hstep : w.step l = some w') :
    w'.db.levels.l1 = w.db.levels.l1 ∨ w'.compactions = [] := by
  cases step_event hstep with
  | @compactionCommitted i job hi hfailed =>
    have hone : w.compactions = [job] := hok job hi hfailed
    refine .inr ?_
    obtain ⟨hlt, -⟩ := List.getElem?_eq_some_iff.1 hi
    rw [hone, List.length_singleton, Nat.lt_one_iff] at hlt
    show w.compactions.eraseIdx i = []
    rw [hone, hlt]
    rfl
  | reopened _ _ hc => exact .inr hc
  | _ => exact .inl rfl

/-- **Positions stay right** in every run in which no compaction commits beside another one. -/
theorem inPlace_of_commitsAlone {options : Options}
    (h : Reach World.step CommitsAlone (fresh options) w) :
    ∀ job ∈ w.compactions, job.l1Snapshot = l1Inputs w.db.levels.l1 job.l1Indices ∧
      job.InPlace w.db.levels.l1 ∧ CommitsOwn w.db job := by
  have hsnap : ∀ job ∈ w.compactions, job.l1Snapshot = l1Inputs w.db.levels.l1 job.l1Indices := by
    refine Reach.invariant (I := fun w => ∀ job ∈ w.compactions,
      job.l1Snapshot = l1Inputs w.db.levels.l1 job.l1Indices) (by simp [fresh]) ?_ h
    intro w l w' hI hok hstep job hjob
    rcases l1_of_step hok hstep with hl1 | hnil
    · rw [hl1]
      rcases snapshot_of_step hstep hjob with ⟨old, hold, hidx, hs⟩ | ⟨rest, rfl⟩
      · rw [hidx, hs, hI old hold]
      · rfl
    · rw [hnil] at hjob
      cases hjob
  intro job hjob
  have hplace : job.InPlace w.db.levels.l1 := by
    intro t ht
    rw [hsnap job hjob, l1Inputs, List.mem_filterMap]
  exact ⟨hsnap job hjob, hplace, ((recalled_of_reach h).commitsOwn_iff (files_of_reach h) hjob).2 hplace⟩

end World

end MiniLSM
