import MiniLSM.Proof.Files

/-!
# Which files of tables there are

`Littered` keeps beside a database the numbers of the files that failed flushes have left behind:
`Finish` marks the builder as finished before its first write, so its destructor does not unlink the
file, and nobody else knows it.

* `files_accounted`: on disk are the tables of `levels_`, those that a flush or a compaction has ready,
  and these leftovers, and nothing else.
-/

namespace MiniLSM

open Transition World

/-- A database, and the files that no one knows any more. -/
structure Littered where
  world : World
  orphans : List ℕ := []

namespace Littered

/-- The leftovers in a next state: a builder that is opened on a number empties the file of that number. -/
def orphansIn (s : Littered) (w : World) : Label → List ℕ
  | .flushBuild i _ _ =>
    match w.flushes[i]? with
    | some job =>
      let others := s.orphans.filter (· ≠ job.number)
      if job.table.isNone && (w.disk.ssts job.number).isSome then job.number :: others else others
    | none => s.orphans
  | .compactOutput _ _ _ => s.orphans.filter (· ≠ s.world.db.nextFileNumber)
  | _ => s.orphans

/-- A step, with the file that it leaves behind. -/
def step (s : Littered) (l : Label) : Option Littered :=
  (s.world.step l).map fun w => ⟨w, s.orphansIn w l⟩

end Littered

/-- A table with this number is in `levels_`, or ready to enter it. -/
def World.Live (w : World) (n : ℕ) : Prop := ∃ t, (n, some t) ∈ w.files

namespace World

variable {w w' : World} {n : ℕ}

theorem numbered_mem {ts : List SSTable} {t : SSTable} (ht : t ∈ ts) : (t.number, some t) ∈ numbered ts :=
  List.mem_map.2 ⟨t, ht, rfl⟩

theorem live_flush {f : ℕ × Option SSTable} (h : w'.files.Perm (f :: w.files)) :
    w'.Live n ↔ (n = f.1 ∧ f.2 ≠ none) ∨ w.Live n := by
  unfold Live
  simp only [h.mem_iff, List.mem_cons, exists_or]
  refine or_congr_left ?_
  constructor
  · rintro ⟨t, rfl⟩
    exact ⟨rfl, by simp⟩
  · rintro ⟨rfl, ht⟩
    obtain ⟨t, ht⟩ := Option.ne_none_iff_exists'.1 ht
    exact ⟨t, by rw [← ht]⟩

theorem live_compaction {ts : List SSTable} (h : w'.files.Perm (numbered ts ++ w.files)) :
    w'.Live n ↔ n ∈ ts.map (·.number) ∨ w.Live n := by
  unfold Live
  simp only [h.mem_iff, List.mem_append, exists_or]
  refine or_congr_left ?_
  unfold numbered
  simp only [List.mem_map, Prod.mk.injEq]
  constructor
  · rintro ⟨_, t, ht, rfl, -⟩
    exact ⟨t, ht, rfl⟩
  · rintro ⟨t, ht, rfl⟩
    exact ⟨t, t, ht, rfl, rfl⟩

/-- **What the live numbers are**: those of `levels_`, of flushes and of outputs. -/
theorem live_iff : w.Live n ↔ (∃ t ∈ w.db.levels.tables, t.number = n) ∨
    (∃ job ∈ w.flushes, ∃ t, job.result = .opened t ∧ job.number = n) ∨
    ∃ job ∈ w.compactions, ∃ t ∈ job.newLevel1, t.number = n := by
  have hnumbered : ∀ ts : List SSTable, (∃ t, (n, some t) ∈ numbered ts) ↔ ∃ t ∈ ts, t.number = n := by
    intro ts
    constructor
    · rintro ⟨t, ht⟩
      obtain ⟨t', ht', heq⟩ := mem_numbered ht
      exact ⟨t', ht', (Prod.ext_iff.1 heq).1.symm⟩
    · rintro ⟨t, ht, rfl⟩
      exact ⟨t, List.mem_map.2 ⟨t, ht, rfl⟩⟩
  unfold Live files
  simp only [List.mem_append, exists_or, hnumbered]
  refine or_congr_right (or_congr ?_ ?_)
  · constructor
    · rintro ⟨t, ht⟩
      obtain ⟨job, hjob, heq⟩ := List.mem_map.1 ht
      exact ⟨job, hjob, t, FlushJob.result_of_table (Prod.ext_iff.1 heq).2, (Prod.ext_iff.1 heq).1⟩
    · rintro ⟨job, hjob, t, ht, rfl⟩
      exact ⟨t, List.mem_map.2 ⟨job, hjob, by rw [FlushJob.table, ht]⟩⟩
  · simp only [List.mem_flatMap]
    constructor
    · rintro ⟨t, ⟨job, hjob, ht⟩, rfl⟩
      exact ⟨job, hjob, t, ht, rfl⟩
    · rintro ⟨job, hjob, t, ht, rfl⟩
      exact ⟨t, ⟨job, hjob, ht⟩, rfl⟩

/-- A live number is taken once. -/
theorem Files.unique (h : w.Files) {o o' : Option SSTable} (ho : (n, o) ∈ w.files) (ho' : (n, o') ∈ w.files) :
    o = o' := (Prod.ext_iff.1 (List.inj_on_of_nodup_map h.registered.nodup ho ho' rfl)).2

theorem Files.live_lt (h : w.Files) (hn : w.Live n) : n < w.db.nextFileNumber := by
  obtain ⟨t, ht⟩ := hn
  exact h.registered.lt _ ht

theorem live_of_l0 {t : SSTable} (ht : t ∈ w.db.levels.l0) : w.Live t.number :=
  live_iff.2 (.inl ⟨t, l0_subset_tables ht, rfl⟩)

end World

namespace Littered

/-- **Every file is accounted for.** -/
structure Tidy (s : Littered) : Prop where
  onDisk : ∀ n, s.world.disk.ssts n ≠ none ↔ s.world.Live n ∨ n ∈ s.orphans
  apart : ∀ n ∈ s.orphans, ¬s.world.Live n
  snapshot : ∀ job ∈ s.world.compactions, ∀ t ∈ job.l0Snapshot, t.number ∉ s.orphans

variable {s : Littered} {w : World} {orphans : List ℕ}

theorem fresh_tidy (options : Options) : Tidy ⟨World.fresh options, []⟩ := by
  refine ⟨fun n => ?_, by simp, by simp⟩
  rw [live_iff]
  simp [World.fresh, Disk.run, FsOp.apply, Levels.tables, Levels.toList]

/-- Steps that write and unlink no table. -/
theorem Tidy.keep (h : s.Tidy) (hssts : w.disk.ssts = s.world.disk.ssts)
    (hlive : ∀ n, w.Live n ↔ s.world.Live n) (hsnap : ∀ job ∈ w.compactions, ∀ t ∈ job.l0Snapshot,
      s.world.Live t.number ∨ ∃ job' ∈ s.world.compactions, t ∈ job'.l0Snapshot) : Tidy ⟨w, s.orphans⟩ := by
  refine ⟨fun n => ?_, fun n hn hl => h.apart n hn ((hlive n).1 hl), fun job hjob t ht horphan => ?_⟩
  · simp only [hssts, hlive]
    exact h.onDisk n
  · rcases hsnap job hjob t ht with hl | ⟨job', hjob', ht'⟩
    · exact h.apart _ horphan hl
    · exact h.snapshot job' hjob' t ht' horphan

/-- Steps that write the file of one number, and unlink it or not. -/
theorem Tidy.write (h : s.Tidy) (num : ℕ) (hssts : ∀ n, n ≠ num → w.disk.ssts n = s.world.disk.ssts n)
    (hlive : ∀ n, n ≠ num → (w.Live n ↔ s.world.Live n))
    (horphans : ∀ n, n ≠ num → (n ∈ orphans ↔ n ∈ s.orphans))
    (hself : w.disk.ssts num ≠ none ↔ w.Live num ∨ num ∈ orphans) (hapart : num ∈ orphans → ¬w.Live num)
    (hsnap : ∀ job ∈ w.compactions, ∀ t ∈ job.l0Snapshot, ∃ job' ∈ s.world.compactions, t ∈ job'.l0Snapshot)
    (hnum : num ∈ orphans → ∀ job ∈ s.world.compactions, ∀ t ∈ job.l0Snapshot, t.number ≠ num) :
    Tidy ⟨w, orphans⟩ := by
  refine ⟨fun n => ?_, fun n hn => ?_, fun job hjob t ht horphan => ?_⟩
  · by_cases heq : n = num
    · exact heq ▸ hself
    · simp only [hssts n heq, hlive n heq, horphans n heq]
      exact h.onDisk n
  · by_cases heq : n = num
    · exact heq ▸ hapart (heq ▸ hn)
    · rw [hlive n heq]
      exact h.apart n ((horphans n heq).1 hn)
  · obtain ⟨job', hjob', ht'⟩ := hsnap job hjob t ht
    by_cases heq : t.number = num
    · exact hnum (heq ▸ horphan) job' hjob' t ht' heq
    · exact h.snapshot job' hjob' t ht' ((horphans _ heq).1 horphan)

/-- Steps that unlink tables: what they unlink is no longer live. -/
theorem Tidy.unlink (h : s.Tidy) {gone : List ℕ}
    (hssts : ∀ n, w.disk.ssts n = if n ∈ gone then none else s.world.disk.ssts n)
    (hlive : ∀ n, w.Live n ↔ s.world.Live n ∧ n ∉ gone) (horphans : ∀ n ∈ gone, n ∉ s.orphans)
    (hsnap : ∀ job ∈ w.compactions, job ∈ s.world.compactions) : Tidy ⟨w, s.orphans⟩ := by
  refine ⟨fun n => ?_, fun n hn hl => h.apart n hn ((hlive n).1 hl).1, fun job hjob => ?_⟩
  · simp only [hssts, hlive]
    by_cases hn : n ∈ gone
    · simp [hn, horphans n hn]
    · simp only [hn, if_false, not_false_eq_true, and_true]
      exact h.onDisk n
  · exact h.snapshot job (hsnap job hjob)

theorem Tidy.flushBegun (h : s.Tidy) (path : FlushPath) (m : MemTable) :
    Tidy ⟨s.world.flushBegun path m, s.orphans⟩ := by
  refine h.keep rfl (fun n => ?_) fun job hjob t ht => .inr ⟨job, hjob, ht⟩
  simp [live_iff, World.flushBegun, or_and_right, exists_or]

/-- The end of a building of a flush: with a table, or without one and with the file or not. -/
theorem Tidy.flushBuilt (h : s.Tidy) (hfiles : s.world.Files) {i : ℕ} {job : FlushJob}
    (hi : s.world.flushes[i]? = some job) (hbuilding : job.result = .building) {result : FlushResult}
    {ops : List FsOp} (hops : ∀ n, n ≠ job.number → (s.world.disk.run ops).ssts n = s.world.disk.ssts n)
    (hresult : (∃ t, result = .opened t ∧ (s.world.disk.run ops).ssts job.number ≠ none) ∨ result = .failed)
    (faults : ℕ → Option ℕ) (opens : Bool) :
    Tidy ⟨s.world.flushBuilt i job result ops,
      s.orphansIn (s.world.flushBuilt i job result ops) (.flushBuild i faults opens)⟩ := by
  set w := s.world.flushBuilt i job result ops with hw
  have htable : job.table = none := by rw [FlushJob.table, hbuilding]
  have hself := files_flush_self hi
  have hperm := files_flush hi { job with result := result }
  have hbefore := fun n => live_flush (n := n) hself
  have hafter : ∀ n, w.Live n ↔ _ := fun n => live_flush (n := n) hperm
  simp only [htable, ne_eq, not_true_eq_false, and_false, false_or] at hbefore
  have hnone : ¬s.world.Live job.number := by
    rintro ⟨t, ht⟩
    have heq := hfiles.unique ht (hself.mem_iff.2 List.mem_cons_self)
    rw [htable] at heq
    cases heq
  have hget : w.flushes[i]? = some { job with result := result } := by
    obtain ⟨hlt, -⟩ := List.getElem?_eq_some_iff.1 hi
    exact List.getElem?_set_self hlt
  have hdisk : w.disk = s.world.disk.run ops := rfl
  unfold orphansIn
  simp only [hget]
  refine h.write job.number hops (fun n hn => ?_) (fun n hn => ?_) ?_ ?_
    (fun job hjob t ht => ⟨job, hjob, ht⟩) fun _ job' hjob' t ht heq => ?_
  · rw [hafter, hbefore]
    simp [hn]
  · split <;> simp [hn]
  · rw [hafter, ← hbefore, hdisk]
    rcases hresult with ⟨t, rfl, hfile⟩ | rfl
    · simp [FlushJob.table, hfile]
    · cases hfile : (s.world.disk.run ops).ssts job.number <;> simp [FlushJob.table, hnone]
  · rw [hafter, ← hbefore]
    rcases hresult with ⟨t, rfl, -⟩ | rfl
    · simp [FlushJob.table]
    · simp [FlushJob.table, hnone]
  · have hmem : (job.number, job.table) ∈ s.world.files := hself.mem_iff.2 List.mem_cons_self
    rcases hfiles.snapshot job' hjob' t ht with hl0 | ⟨-, hunused⟩
    · exact hnone (heq ▸ live_of_l0 hl0)
    · exact hunused _ hmem heq.symm

theorem Tidy.flushCommitted (h : s.Tidy) {i : ℕ} {job : FlushJob} {t : SSTable}
    (hi : s.world.flushes[i]? = some job) (ht : job.result = .opened t) (hfiles : s.world.Files) :
    Tidy ⟨s.world.flushCommitted i t, s.orphans⟩ := by
  have hself := files_flush_self hi
  have htable : job.table = some t := by rw [FlushJob.table, ht]
  have hnumber : t.number = job.number := by
    have hmem : (job.number, some t) ∈ s.world.files := htable ▸ hself.mem_iff.2 List.mem_cons_self
    exact (hfiles.registered.onDisk _ _ hmem).1
  refine h.keep ?_ (fun n => ?_) fun job hjob t ht => .inr ⟨job, hjob, ht⟩
  · rw [flushCommitted_disk]
  · have hbefore := live_flush (n := n) hself
    simp only [htable, ne_eq, reduceCtorEq, not_false_eq_true, and_true, ← hnumber] at hbefore
    rw [hbefore, live_iff, live_iff]
    simp only [World.flushCommitted, Levels.tables, Levels.toList, List.flatten_cons, List.mem_append,
      List.mem_singleton]
    grind

/-- A flush ends without a table. -/
theorem Tidy.flushRemoved (h : s.Tidy) {i : ℕ} {job : FlushJob} (hi : s.world.flushes[i]? = some job)
    (hfailed : job.result = .failed) {db : DB} {disk : Disk} (hl : db.levels = s.world.db.levels)
    (hs : disk.ssts = s.world.disk.ssts) :
    Tidy ⟨{ s.world with db := db, disk := disk, flushes := s.world.flushes.eraseIdx i }, s.orphans⟩ := by
  have htable : job.table = none := by rw [FlushJob.table, hfailed]
  refine h.keep hs (fun n => ?_) fun job hjob t ht => .inr ⟨job, hjob, ht⟩
  have hbefore := live_flush (n := n) (files_flush_self hi)
  simp only [htable, ne_eq, not_true_eq_false, and_false, false_or] at hbefore
  rw [hbefore, live_iff, live_iff]
  simp only [hl]

theorem Tidy.compactionBegun (h : s.Tidy) (rest : List (Bytes × Bytes)) :
    Tidy ⟨{ s.world with compactions := s.world.compactions ++ [newCompaction s.world.db rest] }, s.orphans⟩ := by
  refine h.keep rfl (fun n => ?_) fun job hjob t ht => ?_
  · rw [live_iff, live_iff]
    simp [newCompaction, or_and_right, exists_or]
  · rcases List.mem_append.1 hjob with hjob | hjob
    · exact .inr ⟨job, hjob, ht⟩
    · obtain rfl := List.mem_singleton.1 hjob
      exact .inl (live_of_l0 ht)

/-- An output of a compaction is ready, or it has failed and is unlinked. -/
theorem Tidy.outputWritten (h : s.Tidy) (hfiles : s.world.Files) {i : ℕ} {job job' : CompactionJob}
    (hi : s.world.compactions[i]? = some job) (hsnap : job'.l0Snapshot = job.l0Snapshot) {ops : List FsOp}
    (hops : ∀ n, n ≠ s.world.db.nextFileNumber → (s.world.disk.run ops).ssts n = s.world.disk.ssts n)
    (hout : job'.newLevel1 = job.newLevel1 ∧ (s.world.disk.run ops).ssts s.world.db.nextFileNumber = none ∨
      ∃ t, job'.newLevel1 = job.newLevel1 ++ [t] ∧ t.number = s.world.db.nextFileNumber ∧
        (s.world.disk.run ops).ssts s.world.db.nextFileNumber ≠ none) :
    Tidy ⟨s.world.outputWritten i job' ops, s.orphans.filter (· ≠ s.world.db.nextFileNumber)⟩ := by
  have hbefore := fun n => live_compaction (n := n) (files_compaction_self hi)
  have hafter : ∀ n, (s.world.outputWritten i job' ops).Live n ↔ _ :=
    fun n => live_compaction (n := n) (files_compaction hi job')
  have hfresh : ¬s.world.Live s.world.db.nextFileNumber := fun hl => lt_irrefl _ (hfiles.live_lt hl)
  refine h.write s.world.db.nextFileNumber hops (fun n hn => ?_) (fun n hn => by simp [hn]) ?_
    (by simp) (fun c hc t ht => ?_) (by simp)
  · rw [hafter, hbefore]
    rcases hout with ⟨hout, -⟩ | ⟨t, hout, hnum, -⟩
    · rw [hout]
    · simp [hout, hnum, hn]
  · have hdisk : (s.world.outputWritten i job' ops).disk = s.world.disk.run ops := rfl
    rw [hafter, hdisk]
    rw [hbefore] at hfresh
    rcases hout with ⟨hout, hfile⟩ | ⟨t, hout, hnum, hfile⟩
    · simp only [hout, hfile, hfresh]
      simp
    · simp [hout, hnum, hfile]
  · -- the snapshots are those of before
    rcases List.mem_or_eq_of_mem_set hc with hc | rfl
    · exact ⟨c, hc, ht⟩
    · exact ⟨job, List.mem_of_getElem? hi, hsnap ▸ ht⟩

/-- A failed compaction unlinks its outputs. -/
theorem Tidy.compactionFailed (h : s.Tidy) (hfiles : s.world.Files) {i : ℕ} {job : CompactionJob}
    (hi : s.world.compactions[i]? = some job) : Tidy ⟨s.world.compactionFailed i job, s.orphans⟩ := by
  have hself := files_compaction_self hi
  have hreg := hfiles.registered.perm hself
  have hbefore := fun n => live_compaction (n := n) hself
  obtain ⟨-, -, hunlink⟩ := Disk.run_unlink s.world.disk job.newLevel1
  refine h.unlink hunlink (fun n => ?_)
    (fun n hn horphan => h.apart n horphan ((hbefore n).2 (.inl hn))) fun c hc => List.mem_of_mem_eraseIdx hc
  rw [hbefore]
  constructor
  · rintro ⟨t, ht⟩
    refine ⟨.inr ⟨t, ht⟩, fun hmem => ?_⟩
    obtain ⟨o, ho, rfl⟩ := List.mem_map.1 hmem
    exact hreg.disjoint (numbered_mem ho) ht rfl
  · rintro ⟨hn | hl, hnone⟩
    · exact absurd hn hnone
    · exact hl

/-- **The commit of a compaction** unlinks what leaves `levels_`. -/
theorem Tidy.compactionCommitted (h : s.Tidy) (hfiles : s.world.Files) {i : ℕ} {job : CompactionJob}
    (hi : s.world.compactions[i]? = some job) : Tidy ⟨s.world.compactionCommitted i job, s.orphans⟩ := by
  obtain ⟨gone0, gone1, hperm0, hperm1, hall, hsub, hsub1, -, hops⟩ :=
    compactCommit_spec s.world.db job.l0Snapshot job.l1Indices job.newLevel1
  have hperm := hfiles.commit_files hi hperm0 hperm1
  have hreg := hfiles.registered.perm hperm
  have hbefore := fun n => live_compaction (n := n) hperm
  have hjob := List.mem_of_getElem? hi
  have hdisk := compactionCommitted_disk s.world i job hops
  -- what is unlinked is not live behind the commit
  have hgone : ∀ t ∈ gone0 ++ gone1, ¬(s.world.compactionCommitted i job).Live t.number := by
    rintro t ht ⟨o, ho⟩
    exact hreg.disjoint (numbered_mem ht) ho rfl
  have hunlinked : ∀ t ∈ job.l0Snapshot ++ gone1, ¬(s.world.compactionCommitted i job).Live t.number := by
    intro t ht
    rcases List.mem_append.1 ht with ht | ht
    · rcases hfiles.snapshot job hjob t ht with hl0 | ⟨-, hunused⟩
      · exact hgone t (List.mem_append_left _ (hall t ht hl0))
      · rintro ⟨o, ho⟩
        exact hunused _ (hperm.mem_iff.2 (List.mem_append_right _ ho)) rfl
    · exact hgone t (List.mem_append_right _ ht)
  obtain ⟨-, -, hunlink⟩ := Disk.run_unlink s.world.disk (job.l0Snapshot ++ gone1)
  refine h.unlink (fun n => (congrFun (congrArg Disk.ssts hdisk) n).trans (hunlink n)) (fun n => ?_)
    (fun n hn horphan => ?_) fun c hc => List.mem_of_mem_eraseIdx hc
  · rw [hbefore]
    constructor
    · refine fun hl => ⟨.inr hl, fun hmem => ?_⟩
      obtain ⟨t, ht, rfl⟩ := List.mem_map.1 hmem
      exact hunlinked t ht hl
    · rintro ⟨hn | hl, hnone⟩
      · obtain ⟨t, ht, rfl⟩ := List.mem_map.1 hn
        refine absurd (List.mem_map_of_mem ?_) hnone
        rcases List.mem_append.1 ht with ht | ht
        · exact List.mem_append_left _ (hsub t ht)
        · exact List.mem_append_right _ ht
      · exact hl
  · obtain ⟨t, ht, rfl⟩ := List.mem_map.1 hn
    rcases List.mem_append.1 ht with ht | ht
    · exact h.snapshot job hjob t ht horphan
    · exact h.apart _ horphan ((hbefore _).2 (.inl (List.mem_map_of_mem (List.mem_append_right _ ht))))

theorem Tidy.reopened (h : s.Tidy) (hfiles : s.world.Files) (hc : s.world.compactions = [])
    {options : Options} {heights : ℕ → ℕ} {db : DB} {ops : List FsOp}
    (hrec : DB.recover options s.world.disk heights = .ok (db, ops)) :
    Tidy ⟨{ s.world with db := db, disk := s.world.disk.run ops }, s.orphans⟩ := by
  obtain ⟨next, wal, hrecorded, -, -⟩ := hfiles.recorded
  obtain ⟨mem, seq, heq⟩ := hfiles.recover hrecorded options heights
  obtain ⟨rfl, rfl⟩ : _ = db ∧ _ = ops := by
    rw [heq] at hrec
    exact Prod.ext_iff.1 (Except.ok.inj hrec)
  refine h.keep rfl (fun n => Iff.rfl) fun job hjob => ?_
  rw [show _ = [] from hc] at hjob
  cases hjob

/-- **No step loses track of a file.** -/
theorem Tidy.step (h : s.Tidy) (hfiles : s.world.Files) {l : Label} {s' : Littered}
    (hstep : s.step l = some s') : s'.Tidy := by
  obtain ⟨w, hw, rfl⟩ := Option.map_eq_some_iff.1 hstep
  cases step_event hw with
  | wrote => exact h.keep rfl (fun _ => Iff.rfl) fun job hjob t ht => .inr ⟨job, hjob, ht⟩
  | waits => exact h.keep rfl (fun _ => Iff.rfl) fun job hjob t ht => .inr ⟨job, hjob, ht⟩
  | rotated hl =>
    rcases hl with ⟨rfl, -⟩ | ⟨i, rfl, -⟩ <;>
      exact h.keep rfl (fun _ => Iff.rfl) fun job hjob t ht => .inr ⟨job, hjob, ht⟩
  | rotateFailed hl =>
    rcases hl with ⟨rfl, -⟩ | ⟨i, rfl, -⟩ <;>
      exact h.keep rfl (fun _ => Iff.rfl) fun job hjob t ht => .inr ⟨job, hjob, ht⟩
  | flushBegun => exact h.flushBegun _ _
  | @flushBuilt i job faults t hjob hbuilding =>
    refine h.flushBuilt hfiles hjob hbuilding (fun n hn => ?_) (.inl ⟨t, rfl, ?_⟩) faults true
    · exact Function.update_of_ne hn _ _
    have hself : (s.world.disk.run [.writeSst job.number (DB.buildTable job.imm faults).2]).ssts job.number =
        some (DB.buildTable job.imm faults).2 := Function.update_self _ _ _
    rw [hself]
    exact Option.some_ne_none _
  | @flushNotBuilt i job faults opens ops hjob hbuilding _ hops =>
    refine h.flushBuilt hfiles hjob hbuilding (fun n hn => ?_) (.inr rfl) faults opens
    rcases hops with rfl | rfl
    · exact Function.update_of_ne hn _ _
    · exact (Function.update_of_ne hn _ _).trans (Function.update_of_ne hn _ _)
  | flushCommitted hjob hres => exact h.flushCommitted hjob hres hfiles
  | flushFailed hjob hres => exact h.flushRemoved hjob hres rfl rfl
  | @flushDropped i job m hjob hres =>
    refine h.flushRemoved hjob hres rfl ?_
    exact (congrArg Disk.ssts (flushDropped_disk s.world i)).trans rfl
  | compactionBegun => exact h.compactionBegun _
  | @outputWritten i job faults t b rest hjob _ _ _ hopen =>
    obtain ⟨hnum, -⟩ := SSTable.openFile_ok hopen
    refine h.outputWritten hfiles hjob ?_ (fun n hn => ?_) (.inr ⟨t, ?_, hnum, ?_⟩)
    · rfl
    · exact Function.update_of_ne hn _ _
    · rfl
    have hself : (s.world.disk.run [.writeSst s.world.db.nextFileNumber b.finish.2.fd.file]).ssts
        s.world.db.nextFileNumber = some b.finish.2.fd.file := Function.update_self _ _ _
    rw [hself]
    exact Option.some_ne_none _
  | outputFailed hjob =>
    refine h.outputWritten hfiles hjob ?_ (fun n hn => ?_) (.inl ⟨?_, ?_⟩)
    · rfl
    · exact (Function.update_of_ne hn _ _).trans (Function.update_of_ne hn _ _)
    · rfl
    · exact Function.update_self _ _ _
  | compactionCommitted hjob => exact h.compactionCommitted hfiles hjob
  | compactionFailed hjob => exact h.compactionFailed hfiles hjob
  | reopened _ _ hc _ hrec => exact h.reopened hfiles hc hrec

theorem step_world {l : Label} {s' : Littered} (h : s.step l = some s') :
    s.world.step l = some s'.world ∧ s'.orphans = s.orphansIn s'.world l := by
  obtain ⟨w, hw, rfl⟩ := Option.map_eq_some_iff.1 h
  exact ⟨hw, rfl⟩

theorem reach_world {ok : Littered → Label → Prop} {options : Options}
    (h : Reach step ok ⟨World.fresh options, []⟩ s) :
    Reach World.step (fun _ _ => True) (World.fresh options) s.world :=
  h.map Littered.world fun _ _ _ _ hstep => .next .start trivial (step_world hstep).1

/-- What `BackgroundFlush` cannot open it unlinks. -/
theorem unlinked_of_background {i : ℕ} {job : FlushJob} {faults : ℕ → Option ℕ} {opens : Bool}
    (hi : s.world.flushes[i]? = some job) (hok : (DB.buildTable job.imm faults).1.isOk = true)
    (hpath : job.path = .background) (h : s.world.buildFlush i faults opens = some w) :
    (∃ t ops, w = s.world.flushBuilt i job (.opened t) ops) ∨ w.disk.ssts job.number = none := by
  simp only [World.buildFlush, hi, Option.bind_eq_bind, Option.bind_some, hok, Bool.not_true, Bool.false_eq_true,
    if_false, hpath, if_true] at h
  split at h
  case h_2 => cases h
  obtain ⟨r, hr, h⟩ := Option.bind_eq_some_iff.1 h
  cases r with
  | some t =>
    obtain rfl := Option.some.inj h
    exact .inl ⟨t, _, by rw [World.flushBuilt, hpath]⟩
  | none =>
    obtain rfl := Option.some.inj h
    exact .inr (Function.update_self _ _ _)

/-- **Which flushes leave a file behind**: one whose `Finish` failed, or one of `CompactRange` or the
destructor whose table did not open. -/
theorem orphans_of_step {l : Label} {s' : Littered} (hstep : s.step l = some s') {n : ℕ} (hn : n ∈ s'.orphans) :
    n ∈ s.orphans ∨ ∃ i faults opens job, l = .flushBuild i faults opens ∧ s.world.flushes[i]? = some job ∧
      job.number = n ∧ ((DB.buildTable job.imm faults).1.isOk = false ∨
        job.path ≠ .background ∧ (opens = false ∨
          ∃ e, SSTable.openFile job.number (DB.buildTable job.imm faults).2 = .error (.status e))) := by
  obtain ⟨w, hworld, rfl⟩ := Option.map_eq_some_iff.1 hstep
  cases l with
  | flushBuild i faults opens =>
    obtain ⟨job, hi, result, ops, hw, hbad⟩ : ∃ job, s.world.flushes[i]? = some job ∧
        ∃ result ops, w = s.world.flushBuilt i job result ops ∧ ((∃ t, result = .opened t) ∨
          (DB.buildTable job.imm faults).1.isOk = false ∨ opens = false ∨
            ∃ e, SSTable.openFile job.number (DB.buildTable job.imm faults).2 = .error (.status e)) := by
      cases step_event hworld with
      | flushBuilt hi => exact ⟨_, hi, _, _, rfl, .inl ⟨_, rfl⟩⟩
      | flushNotBuilt hi _ hbad => exact ⟨_, hi, _, _, rfl, .inr hbad⟩
      | rotated hl => rcases hl with ⟨h, -⟩ | ⟨_, h, -⟩ <;> cases h
      | rotateFailed hl => rcases hl with ⟨h, -⟩ | ⟨_, h, -⟩ <;> cases h
    obtain ⟨hlt, -⟩ := List.getElem?_eq_some_iff.1 hi
    have hget : w.flushes[i]? = some { job with result := result } := by
      rw [hw]
      exact List.getElem?_set_self hlt
    simp only [orphansIn, hget] at hn
    by_cases hleft : (({ job with result := result } : FlushJob).table.isNone &&
        (w.disk.ssts job.number).isSome) = true
    · rw [if_pos hleft] at hn
      rcases List.mem_cons.1 hn with rfl | hn
      · refine .inr ⟨i, faults, opens, job, rfl, hi, rfl, ?_⟩
        rw [Bool.and_eq_true, Option.isNone_iff_eq_none] at hleft
        obtain ⟨htable, hfile⟩ := hleft
        cases hok : (DB.buildTable job.imm faults).1.isOk with
        | false => exact .inl rfl
        | true =>
          refine .inr ⟨fun hpath => ?_, ?_⟩
          · rcases unlinked_of_background hi hok hpath hworld with ⟨t, ops', hw'⟩ | hnone
            · rw [hw', World.flushBuilt, List.getElem?_set_self hlt] at hget
              rw [← Option.some.inj hget] at htable
              cases htable
            · rw [hnone] at hfile
              cases hfile
          · rcases hbad with ⟨t, rfl⟩ | hfailed | hclosed
            · cases htable
            · rw [hok] at hfailed
              cases hfailed
            · exact hclosed
      · exact .inl (List.mem_of_mem_filter hn)
    · rw [if_neg hleft] at hn
      exact .inl (List.mem_of_mem_filter hn)
  | compactOutput i faults opens => exact .inl (List.mem_of_mem_filter hn)
  | _ => exact .inl hn

/-- **Which files of tables there are.** In every run the files on disk are those of the tables in `levels_`,
of the tables that a flush or a compaction has ready, and the ones left behind, each under a number of its
own, no live one among those left behind; and a file is left behind only by a flush whose `Finish` failed, or
by one of `CompactRange` or the destructor whose table did not open. -/
theorem files_accounted {ok : Littered → Label → Prop} {options : Options}
    (h : Reach step ok ⟨World.fresh options, []⟩ s) :
    (∀ n, s.world.disk.ssts n ≠ none ↔ (∃ t ∈ s.world.db.levels.tables, t.number = n) ∨
      (∃ job ∈ s.world.flushes, ∃ t, job.result = .opened t ∧ job.number = n) ∨
      (∃ job ∈ s.world.compactions, ∃ t ∈ job.newLevel1, t.number = n) ∨ n ∈ s.orphans) ∧
    (s.world.db.levels.tables.map (·.number) ++ (s.world.flushes.map (·.number) ++
      (s.world.compactions.flatMap CompactionJob.newLevel1).map (·.number))).Nodup ∧
    (∀ n ∈ s.orphans, ¬s.world.Live n) ∧
    ∀ l s', s.step l = some s' → ∀ n ∈ s'.orphans, n ∈ s.orphans ∨
      ∃ i faults opens job, l = .flushBuild i faults opens ∧ s.world.flushes[i]? = some job ∧ job.number = n ∧
        ((DB.buildTable job.imm faults).1.isOk = false ∨
          job.path ≠ .background ∧ (opens = false ∨
            ∃ e, SSTable.openFile job.number (DB.buildTable job.imm faults).2 = .error (.status e))) := by
  have hfiles : ∀ {s}, Reach step ok ⟨World.fresh options, []⟩ s → s.world.Files :=
    fun h => files_of_reach (reach_world h)
  have htidy : s.Tidy := h.invariant_of (fun _ hr => hfiles hr) (fresh_tidy options)
    fun _ _ _ hf ht _ hstep => ht.step hf hstep
  refine ⟨fun n => ?_, ?_, htidy.apart, fun l s' hstep n hn => orphans_of_step hstep hn⟩
  · rw [htidy.onDisk, live_iff, or_assoc, or_assoc]
  · have hnodup := (hfiles h).registered.nodup
    simpa [files, World.numbered, Function.comp_def] using hnodup

/-- A flush whose builder fails at its first write, and the one that comes after it. -/
def leftoverRun : List Label :=
  [.write (.put [107] [118]) 1 true, .flushBegin .background, .flushBuild 0 (fun _ => some 0) true, .flushEnd 0,
    .flushBegin .background, .flushBuild 0 (fun _ => none) true, .flushEnd 0]

theorem files_accounted_leftoverRun : ∃ s,
    run step (fun _ _ => True) ⟨World.fresh { writeBufferSize := 1 }, []⟩ leftoverRun = some s ∧
      s.world.db.levels.tables.map (·.number) = [2] ∧ s.orphans = [1] ∧ ¬s.world.Live 1 ∧
      ∀ n, s.world.disk.ssts n ≠ none ↔ n = 2 ∨ n = 1 := by
  have hrun : (run step (fun _ _ => True) ⟨World.fresh { writeBufferSize := 1 }, []⟩ leftoverRun).map (fun s =>
      (s.world.db.levels.tables.map (·.number), s.orphans,
        s.world.flushes.isEmpty && s.world.compactions.isEmpty)) = some ([2], [1], true) := by decide +kernel
  obtain ⟨s, hs, heq⟩ := Option.map_eq_some_iff.1 hrun
  simp only [Prod.mk.injEq, Bool.and_eq_true, List.isEmpty_iff] at heq
  obtain ⟨htables, horphans, hflushes, hcompactions⟩ := heq
  obtain ⟨hdisk, -, hdead, -⟩ := files_accounted (reach_of_run hs)
  refine ⟨s, hs, htables, horphans, hdead 1 (by rw [horphans]; exact List.mem_singleton_self _), fun n => ?_⟩
  have hlevels : (∃ t ∈ s.world.db.levels.tables, t.number = n) ↔ n = 2 := by
    rw [← List.mem_map, htables, List.mem_singleton]
  rw [hdisk n, hlevels, hflushes, hcompactions, horphans]
  simp

end Littered

end MiniLSM
