import MiniLSM.Proof.Faults

/-!
# Compacting damaged tables

`Get` refuses a block that it cannot read in full or whose CRC does not match. A compaction
reads the same blocks through `SSTableIterator`, which looks at neither, so a damaged block is
copied under a new CRC and its table unlinked. Only an output that cannot be written or opened
keeps a compaction from that.

* `compactions_of_step`: what a step does to the compactions under way.
* `spared_iff`: which compactions leave damaged inputs alone.
* `damage_copied`: one that does not.
-/

namespace MiniLSM

open Transition

/-- Whether a block reads in full and passes its CRC. -/
def SSTable.blockOk (t : SSTable) (e : IndexEntry) : Bool :=
  match t.readBlock e.blockOffset e.blockSize with
  | .ok block => crcMatches block
  | .error _ => false

/-- The file operations of a compaction's last section. -/
def DB.compactEnd (db : DB) (job : CompactionJob) : List FsOp :=
  if job.failed then job.newLevel1.map fun t => .unlinkSst t.number
  else (db.compactCommit job.l0Snapshot job.l1Indices job.newLevel1).2

namespace World

variable {w w' : World}

/-- The step that ends a compaction does these operations. -/
theorem compactEnd_disk {i : ℕ} {job : CompactionJob} (hi : w.compactions[i]? = some job)
    (h : w.step (.compactEnd i) = some w') : w'.disk = w.disk.run (w.db.compactEnd job) := by
  obtain ⟨job', hi', hor⟩ := compactEnd_cases h
  obtain rfl := Option.some.inj (hi.symm.trans hi')
  rcases hor with ⟨hf, rfl⟩ | ⟨hf, rfl⟩
  · rw [DB.compactEnd, hf, if_neg Bool.false_ne_true]
    rfl
  · rw [DB.compactEnd, hf, if_pos rfl]
    rfl

end World

namespace Faulty

variable {s s' : Faulty}

/-- A block of an input of compaction `i` could not be read in full, or failed its CRC. -/
def Damaged (s : Faulty) (i : ℕ) : Prop :=
  ∃ job ∈ s.world.compactions[i]?, ∃ m ∈ s.merging[i]?,
    ∃ t ∈ job.inputs, ∃ e ∈ t.index, (t.reading m.reads).blockOk e = false

instance (s : Faulty) (i : ℕ) : Decidable (s.Damaged i) := by
  unfold Damaged
  infer_instance

/-- A compaction that ended between `w` and `w'` did not commit: `levels_` is what it was, and
none of its inputs was unlinked. -/
structure Spared (w w' : World) (job : CompactionJob) : Prop where
  levels : w'.db.levels = w.db.levels
  files : ∀ t ∈ job.inputs, FsOp.unlinkSst t.number ∉ w.db.compactEnd job

/-! ## The compactions under way -/

/-- **What a step does to the compactions**: it keeps them, starts one on tables of L0, or adds
an output under a pending number. -/
theorem compactions_of_step {l : Label} (h : s.step l = some s') :
    ∀ job' ∈ s'.world.compactions, job' ∈ s.world.compactions ∨
      job'.l0Snapshot ≠ [] ∧ job'.newLevel1 = [] ∨
      ∃ job ∈ s.world.compactions, ∃ n ∈ s.pending,
        job'.l0Snapshot = job.l0Snapshot ∧ job'.l1Snapshot = job.l1Snapshot ∧
          (job'.newLevel1 = job.newLevel1 ∨ ∃ t, job'.newLevel1 = job.newLevel1 ++ [t] ∧ t.number = n) := by
  have hkeep : ∀ {w' : World} {b : Bool}, w'.compactions ⊆ s.world.compactions →
      ∀ job' ∈ (keepManifest s.world w' b).compactions, job' ∈ s.world.compactions := by
    intro w' b hsub job' hjob'
    unfold keepManifest at hjob'
    split at hjob' <;> exact hsub hjob'
  intro job' hjob'
  cases l with
  | base l b =>
    cases l with
    | compactOutput i faults opens => cases h
    | compactBegin => cases h
    | compactEnd i =>
      obtain ⟨w', hw, hs⟩ := Option.bind_eq_some_iff.1 h
      obtain rfl := Option.some.inj hs
      have hw : s.world.step (.compactEnd i) = some w' := hw
      refine Or.inl (hkeep ?_ job' hjob')
      obtain ⟨job, -, ⟨-, rfl⟩ | ⟨-, rfl⟩⟩ := World.compactEnd_cases hw
      · exact (List.eraseIdx_sublist _ _).subset
      · exact (List.eraseIdx_sublist _ _).subset
    | reopen options heights =>
      obtain ⟨w', hw, hs⟩ := Option.bind_eq_some_iff.1 h
      obtain rfl := Option.some.inj hs
      obtain ⟨-, -, db, ops, -, rfl⟩ := World.reopen_cases hw
      exact Or.inl hjob'
    | _ =>
      obtain ⟨w', hw, hs⟩ := Option.bind_eq_some_iff.1 h
      obtain rfl := Option.some.inj hs
      refine Or.inl (hkeep ?_ job' hjob')
      cases World.step_event hw <;> exact fun _ hj => hj
  | compactBegin reads =>
    obtain ⟨hne, rest, rfl⟩ := beginCompaction_eq_some h
    rcases List.mem_append.1 hjob' with hjob' | hjob'
    · exact Or.inl hjob'
    · obtain rfl := List.mem_singleton.1 hjob'
      exact Or.inr (Or.inl ⟨hne, rfl⟩)
  | takeNumber i =>
    obtain ⟨m, -, -, rfl⟩ := takeNumber_eq_some h
    exact Or.inl hjob'
  | compactOutput i faults opens =>
    obtain ⟨m, n, job, job'', ops, hm, hn, hi, h0, h1, hout, -, rfl⟩ := writeOutput_eq_some h
    rcases List.mem_or_eq_of_mem_set hjob' with hjob' | rfl
    · exact Or.inl hjob'
    · have hpending : n ∈ s.pending :=
        List.mem_append_right _ (List.mem_filterMap.2 ⟨m, List.mem_of_getElem? hm, hn⟩)
      exact Or.inr (Or.inr ⟨job, List.mem_of_getElem? hi, n, hpending, h0, h1, hout⟩)
  | crash disk options heights =>
    unfold Faulty.step at h
    simp only at h
    split at h
    case isFalse => cases h
    case isTrue =>
      split at h
      case h_2 => cases h
      case h_1 r hrec =>
        obtain rfl := Option.some.inj h
        exact absurd hjob' (by simp [World.commit])

/-- Every compaction has an input from L0, and its outputs have other numbers than its inputs. -/
structure Apart (s : Faulty) : Prop where
  inputs : ∀ job ∈ s.world.compactions, job.l0Snapshot ≠ []
  outputs : ∀ job ∈ s.world.compactions, ∀ o ∈ job.newLevel1, ∀ t ∈ job.inputs, o.number ≠ t.number

theorem Apart.step (h : s.Apart) (hf : s.Fresh) {l : Label} (hstep : s.step l = some s') : s'.Apart := by
  refine ⟨?_, ?_⟩
  · intro job' hjob'
    rcases compactions_of_step hstep job' hjob' with hold | ⟨hne, -⟩ | ⟨job, hjob, n, hn, h0, -, -⟩
    · exact h.inputs job' hold
    · exact hne
    · rw [h0]
      exact h.inputs job hjob
  · intro job' hjob' o ho t ht
    rcases compactions_of_step hstep job' hjob' with hold | ⟨-, hnil⟩ | ⟨job, hjob, n, hn, h0, h1, hout⟩
    · exact h.outputs job' hold o ho t ht
    · rw [hnil] at ho
      cases ho
    · have ht : t ∈ job.inputs := by
        unfold CompactionJob.inputs at ht ⊢
        rwa [h0, h1] at ht
      rcases hout with hout | ⟨u, hout, rfl⟩
      · exact h.outputs job hjob o (hout ▸ ho) t ht
      · rw [hout] at ho
        rcases List.mem_append.1 ho with ho | ho
        · exact h.outputs job hjob o ho t ht
        · -- the number of the new output was pending, so nobody holds a table under it
          obtain rfl := List.mem_singleton.1 ho
          intro heq
          refine hf.numbers.unused _ hn (Or.inr ⟨t, mem_held.2 (Or.inr (Or.inr ⟨job, hjob, ?_⟩)), heq.symm⟩)
          unfold CompactionJob.held
          rw [← List.append_assoc]
          exact List.mem_append_left _ ht

theorem apart_of_reach {ok : Faulty → Label → Prop} {options : Options}
    (h : Reach step ok (fresh options) s) : s.Apart := by
  refine Reach.invariant_of (fun _ hr => fresh_of_reach hr) ⟨?_, ?_⟩ (fun _ _ _ hf ha _ hs => ha.step hf hs) h
  · simp [fresh, World.fresh]
  · simp [fresh, World.fresh]

/-! ## Damaged inputs -/

/-- A compaction that fails unlinks its outputs and nothing else. -/
theorem spared_of_failed (ha : s.Apart) {i : ℕ} {job : CompactionJob} {b : Bool}
    (hi : s.world.compactions[i]? = some job) (hf : job.failed = true)
    (hstep : s.step (.base (.compactEnd i) b) = some s') : Spared s.world s'.world job := by
  obtain ⟨w', hw, hs⟩ := Option.bind_eq_some_iff.1 hstep
  obtain rfl := Option.some.inj hs
  have hw : s.world.step (.compactEnd i) = some w' := hw
  refine ⟨?_, ?_⟩
  · have hlevels : (keepManifest s.world w' b).db.levels = w'.db.levels := by
      unfold keepManifest
      split <;> rfl
    refine hlevels.trans ?_
    obtain ⟨job', hi', ⟨hf', -⟩ | ⟨-, rfl⟩⟩ := World.compactEnd_cases hw
    · obtain rfl := Option.some.inj (hi.symm.trans hi')
      exact absurd (hf.symm.trans hf') (by decide)
    · rfl
  · intro t ht hmem
    rw [DB.compactEnd, if_pos hf] at hmem
    obtain ⟨o, ho, heq⟩ := List.mem_map.1 hmem
    exact ha.outputs job (List.mem_of_getElem? hi) o ho t ht (FsOp.unlinkSst.inj heq)

/-- A compaction that does not fail unlinks its first input. -/
theorem not_spared_of_commit (ha : s.Apart) {i : ℕ} {job : CompactionJob}
    (hi : s.world.compactions[i]? = some job) (hf : job.failed = false) :
    ¬Spared s.world s'.world job := by
  intro hspared
  obtain ⟨t, ht⟩ := List.exists_mem_of_ne_nil _ (ha.inputs job (List.mem_of_getElem? hi))
  refine hspared.files t (List.mem_append_left _ ht) ?_
  obtain ⟨gone0, gone1, -, -, -, -, -, -, hops⟩ :=
    World.compactCommit_spec s.world.db job.l0Snapshot job.l1Indices job.newLevel1
  rw [DB.compactEnd, hf, if_neg Bool.false_ne_true, hops]
  exact List.mem_append_left _ (List.mem_map.2 ⟨t, List.mem_append_left _ ht, rfl⟩)

/-- **Which compactions leave damaged inputs alone**: those whose inputs are not damaged, and
those of which an output could not be written or opened. -/
theorem spared_iff {options : Options} (h : Reach step (fun _ _ => True) (fresh options) s) {i : ℕ}
    {job : CompactionJob} {b : Bool} (hi : s.world.compactions[i]? = some job)
    (hstep : s.step (.base (.compactEnd i) b) = some s') :
    (s.Damaged i → Spared s.world s'.world job) ↔ ¬s.Damaged i ∨ job.failed = true := by
  have ha := apart_of_reach h
  constructor
  · intro hspared
    by_cases hd : s.Damaged i
    · cases hf : job.failed with
      | true => exact Or.inr rfl
      | false => exact absurd (hspared hd) (not_spared_of_commit ha hi hf)
    · exact Or.inl hd
  · rintro (hd | hf) hd'
    · exact absurd hd' hd
    · exact spared_of_failed ha hi hf hstep

/-- A table is flushed, a byte of its value changes on disk, and a compaction builds its output,
which opens or does not. -/
def damageRun (opens : Bool) : List Label :=
  [.base (.write (.put [107] [118]) 1 true) true, .base (.reopen { writeBufferSize := 1, l0CompactionTrigger := 1 } fun _ => 1) true,
    .base (.write (.put [108] [120]) 1 true) true, .base (.flushBegin .background) true,
    .base (.flushBuild 0 (fun _ => none) true) true, .base (.flushEnd 0) true,
    .crash
      { manifest := some [.table 0 1 (makeInternalKey [107] 1 .value) (makeInternalKey [107] 1 .value),
          .nextFileNumber 2, .walNumber 2]
        ssts := Function.update (fun _ => none) 1
          (some ((DB.buildTable (MemTable.new.add [107] [118] 1) fun _ => none).2.set 12 119)) }
      { writeBufferSize := 1, l0CompactionTrigger := 1 } fun _ => 1,
    .compactBegin SSTable.data, .takeNumber 0, .compactOutput 0 (fun _ => none) opens]

theorem spared_iff_damageRun : ∃ s s' job, run step (fun _ _ => True) (fresh {}) (damageRun false) = some s ∧
    s.world.compactions[0]? = some job ∧ s.step (.base (.compactEnd 0) true) = some s' ∧
      s.Damaged 0 ∧ Spared s.world s'.world job := by
  have hrun : (run step (fun _ _ => True) (fresh {}) (damageRun false)).bind
      (fun s => (s.step (.base (.compactEnd 0) true)).map fun _ =>
        (s.world.compactions[0]?.map (·.failed), decide (s.Damaged 0))) = some (some true, true) := by
    decide +kernel
  obtain ⟨s, hs, hrun⟩ := Option.bind_eq_some_iff.1 hrun
  obtain ⟨s', hs', heq⟩ := Option.map_eq_some_iff.1 hrun
  simp only [Prod.mk.injEq, decide_eq_true_eq] at heq
  obtain ⟨hfailed, hd⟩ := heq
  obtain ⟨job, hi, hf⟩ := Option.map_eq_some_iff.1 hfailed
  exact ⟨s, s', job, hs, hi, hs', hd, (spared_iff (reach_of_run hs) hi hs').2 (Or.inr hf) hd⟩

set_option synthInstance.maxSize 1000 in
/-- **A damaged value is copied** into a table that passes its CRC, and the table it was in is
unlinked. -/
theorem damage_copied : ∃ s s' job, Reach step (fun _ _ => True) (fresh {}) s ∧
    s.world.compactions[0]? = some job ∧ s.step (.base (.compactEnd 0) true) = some s' ∧
      s.Damaged 0 ∧ ¬Spared s.world s'.world job ∧
      (s.world.db.get [107]).toOption = some (.corruption "BinarySearchInBlock: CRC mismatch", none) ∧
      (s'.world.db.get [107]).toOption = some (.OK, some [119]) := by
  have hrun : (run step (fun _ _ => True) (fresh {}) (damageRun true)).bind
      (fun s => (s.step (.base (.compactEnd 0) true)).map fun s' =>
        ((s.world.compactions[0]?.map (·.failed), decide (s.Damaged 0)),
          (s.world.db.get [107]).toOption, (s'.world.db.get [107]).toOption)) =
      some ((some false, true), some (.corruption "BinarySearchInBlock: CRC mismatch", none),
        some (.OK, some [119])) := by
    decide +kernel
  obtain ⟨s, hs, hrun⟩ := Option.bind_eq_some_iff.1 hrun
  obtain ⟨s', hs', heq⟩ := Option.map_eq_some_iff.1 hrun
  simp only [Prod.mk.injEq, decide_eq_true_eq] at heq
  obtain ⟨⟨hfailed, hd⟩, hget, hget'⟩ := heq
  obtain ⟨job, hi, hf⟩ := Option.map_eq_some_iff.1 hfailed
  exact ⟨s, s', job, reach_of_run hs, hi, hs', hd,
    not_spared_of_commit (apart_of_reach (reach_of_run hs)) hi hf, hget, hget'⟩

end Faulty

end MiniLSM
