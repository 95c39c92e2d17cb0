import MiniLSM.Proof.Files
import MiniLSM.Spec.RefCount

/-!
# The counts of the tables are exact

As long as a compaction finds its L0 inputs in `levels_[0]` when it commits, `ref_count_` is the
number of holders. It gives two references to each input back, whether or not it found it.

* `Moves`: how a step moves references between holders.
* `exact_of_reach`: the counts are exact in every reachable state.
* `Sound.commit_lt`: a commit that does not find one of its L0 inputs breaks them.
-/

namespace MiniLSM

open Transition RefCount DB

namespace World

variable {w w' : World}

/-! ## Who holds what -/

theorem held_flush {i : ℕ} {job : FlushJob} (hi : w.flushes[i]? = some job) (job' : FlushJob) :
    ({ w with flushes := w.flushes.set i job' } : World).held.Perm
      (job'.table.toList ++ ({ w with flushes := w.flushes.eraseIdx i } : World).held) := by
  obtain ⟨hlt, -⟩ := List.getElem?_eq_some_iff.1 hi
  have hset := (List.set_perm_cons_eraseIdx hlt job').filterMap FlushJob.table
  have hcons : ((job' :: w.flushes.eraseIdx i).filterMap FlushJob.table) =
      job'.table.toList ++ (w.flushes.eraseIdx i).filterMap FlushJob.table := by
    rw [List.filterMap_cons]
    cases job'.table <;> rfl
  rw [hcons] at hset
  rw [held, held]
  refine ((hset.append_right _).append_left _).trans ?_
  rw [List.append_assoc]
  exact List.perm_append_comm_assoc _ _ _

theorem held_flush_self {i : ℕ} {job : FlushJob} (hi : w.flushes[i]? = some job) :
    w.held.Perm (job.table.toList ++ ({ w with flushes := w.flushes.eraseIdx i } : World).held) := by
  have hself : w.flushes.set i job = w.flushes := by
    obtain ⟨hlt, rfl⟩ := List.getElem?_eq_some_iff.1 hi
    exact List.set_getElem_self hlt
  have h := held_flush hi job
  rwa [hself] at h

theorem held_compaction {i : ℕ} {job : CompactionJob} (hi : w.compactions[i]? = some job)
    (job' : CompactionJob) :
    ({ w with compactions := w.compactions.set i job' } : World).held.Perm
      (job'.held ++ ({ w with compactions := w.compactions.eraseIdx i } : World).held) := by
  obtain ⟨hlt, -⟩ := List.getElem?_eq_some_iff.1 hi
  have hset := (List.set_perm_cons_eraseIdx hlt job').flatMap_right CompactionJob.held
  rw [List.flatMap_cons] at hset
  rw [held, held, ← List.append_assoc, ← List.append_assoc w.db.levels.tables]
  exact (hset.append_left _).trans (List.perm_append_comm_assoc _ _ _)

theorem held_compaction_self {i : ℕ} {job : CompactionJob} (hi : w.compactions[i]? = some job) :
    w.held.Perm (job.held ++ ({ w with compactions := w.compactions.eraseIdx i } : World).held) := by
  have hself : w.compactions.set i job = w.compactions := by
    obtain ⟨hlt, rfl⟩ := List.getElem?_eq_some_iff.1 hi
    exact List.set_getElem_self hlt
  have h := held_compaction hi job
  rwa [hself] at h

/-- How a section moves references: to tables that are held, or back from their holders. -/
inductive Moves (w w' : World) : List (Op ℕ) → Prop
  | none : w.held.Perm w'.held → Moves w w' []
  | make {t : SSTable} :
      t.number = w.db.nextFileNumber ∨
        (∃ job ∈ w.flushes, job.result = .building ∧ job.number = t.number) →
      (t.number, some t) ∈ w'.files → (t :: w.held).Perm w'.held → Moves w w' [.make t.number]
  | ref {ts : List SSTable} : (∀ t ∈ ts, t ∈ w.held) → (ts ++ w.held).Perm w'.held →
      Moves w w' (ts.map fun t => .ref t.number)
  | unref {ts : List SSTable} : w.held.Perm (ts ++ w'.held) →
      Moves w w' (ts.map fun t => .unref t.number)

/-- Taking tables out of L0 that are in it. -/
theorem removeL0_perm {l0 ts : List SSTable} (hnd : ts.Nodup) (h : ∀ t ∈ ts, t ∈ l0) :
    l0.Perm (ts ++ (removeL0 l0 ts).1) := by
  induction ts generalizing l0 with
  | nil => exact List.Perm.refl _
  | cons t ts ih =>
    rw [List.nodup_cons] at hnd
    refine (List.perm_cons_erase (h t List.mem_cons_self)).trans ((ih hnd.2 fun s hs => ?_).cons _)
    have hne : s ≠ t := fun heq => hnd.1 (heq ▸ hs)
    exact (List.mem_erase_of_ne hne).2 (h s (List.mem_cons_of_mem _ hs))

theorem removeL1_perm (l1 : List SSTable) (indices : List ℕ) :
    l1.Perm (removedL1 l1 indices ++ (removeL1 l1 indices).1) := by
  induction indices generalizing l1 with
  | nil => exact List.Perm.refl _
  | cons i indices ih =>
    cases ht : l1[i]? with
    | none =>
      simp only [removedL1, removeL1, ht]
      exact ih l1
    | some t =>
      simp only [removedL1, removeL1, ht]
      obtain ⟨hi, rfl⟩ := List.getElem?_eq_some_iff.1 ht
      exact (List.getElem_cons_eraseIdx_perm hi).symm.trans ((ih _).cons _)

/-- The levels behind the commit of a compaction that finds its L0 inputs. -/
theorem compactCommit_tables {db : DB} {job : CompactionJob} (hnd : job.l0Snapshot.Nodup)
    (h : ∀ t ∈ job.l0Snapshot, t ∈ db.levels.l0) :
    (job.newLevel1 ++ db.levels.tables).Perm
      (job.l0Snapshot ++ (removedL1 db.levels.l1 (job.l1Indices.insertionSort fun a b => b ≤ a) ++
        (db.compactCommit job.l0Snapshot job.l1Indices job.newLevel1).1.levels.tables)) := by
  have h0 := removeL0_perm hnd h
  have h1 := removeL1_perm db.levels.l1 (job.l1Indices.insertionSort fun a b => b ≤ a)
  have hsort := List.perm_insertionSort (fun a b : SSTable => Slice.compare b.firstKey a.firstKey ≠ .lt)
    ((removeL1 db.levels.l1 (job.l1Indices.insertionSort fun a b => b ≤ a)).1 ++ job.newLevel1)
  rw [List.perm_iff_count] at h0 h1 hsort ⊢
  intro t
  have h0 := h0 t
  have h1 := h1 t
  have hsort := hsort t
  simp only [Levels.tables, Levels.toList, List.flatten_cons, List.count_append, compactCommit,
    sortLevel] at h0 h1 hsort ⊢
  omega

/-- Every L0 input of a commit is still in L0. -/
def InputsStay (w : World) : Label → Prop
  | .compactEnd i => ∀ job ∈ w.compactions[i]?, job.failed = false →
      ∀ t ∈ job.l0Snapshot, t ∈ w.db.levels.l0
  | _ => True

instance (w : World) (l : Label) : Decidable (InputsStay w l) := by
  rcases l with _ | _ <;> unfold InputsStay <;> infer_instance

theorem l1Inputs_subset (l1 : List SSTable) (indices : List ℕ) : l1Inputs l1 indices ⊆ l1 := by
  intro t ht
  obtain ⟨i, -, hi⟩ := List.mem_filterMap.1 ht
  exact List.mem_of_getElem? hi

/-! ## One section -/

section

variable {i : ℕ} {flush : FlushJob} {job : CompactionJob} {t : SSTable}

/-- A flush without a table holds none. -/
theorem held_flush_none (hi : w.flushes[i]? = some flush) (hnone : flush.table = none) :
    w.held.Perm ({ w with flushes := w.flushes.eraseIdx i } : World).held := by
  have hself := held_flush_self hi
  rwa [hnone] at hself

theorem refOps_flushBuilt (hi : w.flushes[i]? = some flush) (faults : ℕ → Option ℕ) (opens : Bool)
    (result : FlushResult) (ops : List FsOp) :
    RefWorld.refOps w (w.flushBuilt i flush result ops) (.flushBuild i faults opens) =
      ({ flush with result := result } : FlushJob).table.toList.map fun t => .make t.number := by
  obtain ⟨hlt, -⟩ := List.getElem?_eq_some_iff.1 hi
  simp [RefWorld.refOps, World.flushBuilt, List.getElem?_set_self hlt]

theorem moves_flushBuilt (hi : w.flushes[i]? = some flush) (hres : flush.result = .building)
    (hnum : t.number = flush.number) (ops : List FsOp) :
    Moves w (w.flushBuilt i flush (.opened t) ops) [.make t.number] := by
  have hself := held_flush_none hi (by rw [FlushJob.table, hres])
  refine .make (Or.inr ⟨flush, List.mem_of_getElem? hi, hres, hnum.symm⟩) ?_
    ((hself.cons t).trans (held_flush hi { flush with result := .opened t }).symm)
  rw [hnum]
  exact (files_flush hi { flush with result := .opened t }).mem_iff.2 List.mem_cons_self

theorem moves_flushNotBuilt (hi : w.flushes[i]? = some flush) (hres : flush.result = .building)
    (ops : List FsOp) : Moves w (w.flushBuilt i flush .failed ops) [] := by
  have hself := held_flush_none hi (by rw [FlushJob.table, hres])
  exact .none (hself.trans (held_flush hi { flush with result := .failed }).symm)

/-- The table of a flush goes over to L0. -/
theorem moves_flushCommitted (hi : w.flushes[i]? = some flush) (hres : flush.result = .opened t) :
    Moves w (w.flushCommitted i t) [] := by
  have hself := held_flush_self hi
  rw [show flush.table = some t by rw [FlushJob.table, hres]] at hself
  refine .none (hself.trans ?_)
  rw [List.perm_iff_count]
  intro s
  simp only [held, World.flushCommitted, Levels.tables, Levels.toList, List.flatten_cons,
    List.count_append, Option.toList_some]
  omega

theorem moves_compactionBegun (w : World) (rest : List (Bytes × Bytes)) :
    Moves w { w with compactions := w.compactions ++ [newCompaction w.db rest] }
      (((newCompaction w.db rest).l0Snapshot ++ (newCompaction w.db rest).l1Snapshot).map
        fun t => .ref t.number) := by
  refine .ref (fun t ht => List.mem_append_left _ ?_) ?_
  · rcases List.mem_append.1 ht with ht | ht
    · exact l0_subset_tables ht
    · exact l1_subset_tables (l1Inputs_subset _ _ ht)
  · rw [List.perm_iff_count]
    intro s
    simp only [held, List.flatMap_append, List.flatMap_singleton, CompactionJob.held, newCompaction,
      List.count_append, List.count_nil]
    omega

theorem refOps_outputWritten (hi : w.compactions[i]? = some job) (faults : ℕ → Option ℕ)
    (opens : Bool) (job' : CompactionJob) (ops : List FsOp) :
    RefWorld.refOps w (w.outputWritten i job' ops) (.compactOutput i faults opens) =
      (job'.newLevel1.drop job.newLevel1.length).map fun t => .make t.number := by
  obtain ⟨hlt, -⟩ := List.getElem?_eq_some_iff.1 hi
  simp only [RefWorld.refOps, World.outputWritten, List.getElem?_set_self hlt, hi]

theorem moves_outputWritten (hi : w.compactions[i]? = some job) (hnum : t.number = w.db.nextFileNumber)
    (rest : List (Bytes × Bytes)) (ops : List FsOp) :
    Moves w (w.outputWritten i { job with rest := rest, newLevel1 := job.newLevel1 ++ [t] } ops)
      [.make t.number] := by
  have hself := held_compaction_self hi
  have hset := held_compaction hi { job with rest := rest, newLevel1 := job.newLevel1 ++ [t] }
  refine .make (Or.inl hnum) ?_ ((hself.cons t).trans (List.Perm.trans ?_ hset.symm))
  · refine (files_compaction hi
      { job with rest := rest, newLevel1 := job.newLevel1 ++ [t] }).mem_iff.2 ?_
    exact List.mem_append_left _ (List.mem_map.2 ⟨t, by simp, rfl⟩)
  · rw [List.perm_iff_count]
    intro s
    simp only [CompactionJob.held, List.count_append, List.count_cons, List.count_nil]
    omega

theorem moves_outputFailed (hi : w.compactions[i]? = some job) (rest : List (Bytes × Bytes))
    (ops : List FsOp) :
    Moves w (w.outputWritten i { job with rest := rest, failed := true } ops) [] := by
  have hset := held_compaction hi { job with rest := rest, failed := true }
  exact .none ((held_compaction_self hi).trans hset.symm)

/-- A commit gives two references to each input back, and those to its outputs go over to L1. -/
theorem moves_compactionCommitted (hi : w.compactions[i]? = some job) (hnd : job.l0Snapshot.Nodup)
    (hin : ∀ t ∈ job.l0Snapshot, t ∈ w.db.levels.l0) :
    Moves w (w.compactionCommitted i job) ((w.db.commitUnrefs job).map fun t => .unref t.number) := by
  have hself := held_compaction_self hi
  have htables := compactCommit_tables hnd hin
  refine .unref (hself.trans ?_)
  rw [List.perm_iff_count] at htables ⊢
  intro s
  have htables := htables s
  simp only [held, World.compactionCommitted, commitUnrefs, CompactionJob.held,
    List.count_append] at htables ⊢
  omega

theorem moves_compactionFailed (hi : w.compactions[i]? = some job) :
    Moves w (w.compactionFailed i job)
      ((job.newLevel1 ++ job.l0Snapshot ++ job.l1Snapshot).map fun t => .unref t.number) := by
  have hself := held_compaction_self hi
  refine .unref (hself.trans ?_)
  rw [List.perm_iff_count]
  intro s
  simp only [held, World.compactionFailed, CompactionJob.held, List.count_append]
  omega

end

/-- **Every section but a second opening moves references**, when commits find their inputs. -/
theorem moves_of_step {l : Label}
    (hnd : ∀ job ∈ w.compactions, job.l0Snapshot.Nodup) (hok : InputsStay w l)
    (hre : ∀ o h, l ≠ .reopen o h) (hstep : w.step l = some w') :
    Moves w w' (RefWorld.refOps w w' l) := by
  cases step_event hstep with
  | wrote => exact .none (List.Perm.refl _)
  | waits => exact .none (List.Perm.refl _)
  | rotated hl =>
    rcases hl with ⟨rfl, -, -⟩ | ⟨i, rfl, -, -⟩ <;> exact .none (List.Perm.refl _)
  | rotateFailed hl =>
    rcases hl with ⟨rfl, -, -⟩ | ⟨i, rfl, -, -⟩ <;> exact .none (List.Perm.refl _)
  | flushBegun =>
    refine .none (List.Perm.of_eq ?_)
    rw [held, held, World.flushBegun, List.filterMap_append]
    exact congrArg _ (congrArg (· ++ _) (List.append_nil _).symm)
  | @flushBuilt i job faults t hjob hres _ hopen =>
    rw [refOps_flushBuilt hjob]
    exact moves_flushBuilt hjob hres (SSTable.openFile_ok hopen).1 _
  | @flushNotBuilt i job faults opens ops hjob hres _ _ =>
    rw [refOps_flushBuilt hjob]
    exact moves_flushNotBuilt hjob hres _
  | flushCommitted hjob hres _ => exact moves_flushCommitted hjob hres
  | flushFailed hjob hres _ => exact .none (held_flush_none hjob (by rw [FlushJob.table, hres]))
  | flushDropped hjob hres _ _ => exact .none (held_flush_none hjob (by rw [FlushJob.table, hres]))
  | @compactionBegun rest _ _ _ =>
    simp only [RefWorld.refOps, List.getLast?_concat]
    exact moves_compactionBegun w rest
  | @outputWritten i job faults t b rest hjob _ _ _ hopen =>
    rw [refOps_outputWritten hjob, List.drop_left]
    exact moves_outputWritten hjob (SSTable.openFile_ok hopen).1 rest _
  | @outputFailed i job faults opens b rest hjob _ _ _ =>
    rw [refOps_outputWritten hjob, List.drop_length]
    exact moves_outputFailed hjob rest _
  | @compactionCommitted i job hjob hfailed _ =>
    simp only [RefWorld.refOps, hjob, hfailed]
    exact moves_compactionCommitted hjob (hnd job (List.mem_of_getElem? hjob)) (hok job hjob hfailed)
  | @compactionFailed i job hjob hfailed =>
    simp only [RefWorld.refOps, hjob, hfailed]
    exact moves_compactionFailed hjob
  | reopened => exact absurd rfl (hre _ _)

/-- Numbers only go up, a flush starts with the next one, and a compaction with the tables of
L0. -/
theorem numbers_of_step {l : Label} (hfiles : w.Files) (hre : ∀ o h, l ≠ .reopen o h)
    (hstep : w.step l = some w') :
    w.db.nextFileNumber ≤ w'.db.nextFileNumber ∧
      (∀ job ∈ w'.flushes, job.result = .building →
        job ∈ w.flushes ∨ job.number = w.db.nextFileNumber) ∧
      ((∀ job ∈ w.compactions, job.l0Snapshot.Nodup) →
        ∀ job ∈ w'.compactions, job.l0Snapshot.Nodup) := by
  cases step_event hstep with
  | wrote => exact ⟨le_refl _, fun job hjob _ => Or.inl hjob, id⟩
  | waits => exact ⟨le_refl _, fun job hjob _ => Or.inl hjob, id⟩
  | rotated => exact ⟨le_refl _, fun job hjob _ => Or.inl hjob, id⟩
  | rotateFailed => exact ⟨le_refl _, fun job hjob _ => Or.inl hjob, id⟩
  | flushBegun =>
    refine ⟨Nat.le_succ _, fun job hjob _ => ?_, id⟩
    rcases List.mem_append.1 hjob with hjob | hjob
    · exact Or.inl hjob
    · obtain rfl := List.mem_singleton.1 hjob
      exact Or.inr rfl
  | flushBuilt =>
    refine ⟨le_refl _, fun job hjob hb => ?_, id⟩
    rcases List.mem_or_eq_of_mem_set hjob with hjob | rfl
    · exact Or.inl hjob
    · cases hb
  | flushNotBuilt =>
    refine ⟨le_refl _, fun job hjob hb => ?_, id⟩
    rcases List.mem_or_eq_of_mem_set hjob with hjob | rfl
    · exact Or.inl hjob
    · cases hb
  | flushCommitted => exact ⟨le_refl _, fun job hjob _ => Or.inl (List.mem_of_mem_eraseIdx hjob), id⟩
  | flushFailed => exact ⟨le_refl _, fun job hjob _ => Or.inl (List.mem_of_mem_eraseIdx hjob), id⟩
  | flushDropped => exact ⟨le_refl _, fun job hjob _ => Or.inl (List.mem_of_mem_eraseIdx hjob), id⟩
  | compactionBegun =>
    refine ⟨le_refl _, fun job hjob _ => Or.inl hjob, fun hnd job hjob => ?_⟩
    rcases List.mem_append.1 hjob with hjob | hjob
    · exact hnd job hjob
    · obtain rfl := List.mem_singleton.1 hjob
      exact hfiles.l0_nodup
  | @outputWritten i job₀ _ _ _ _ hi =>
    refine ⟨Nat.le_succ _, fun job hjob _ => Or.inl hjob, fun hnd job hjob => ?_⟩
    rcases List.mem_or_eq_of_mem_set hjob with hjob | rfl
    · exact hnd job hjob
    · exact hnd job₀ (List.mem_of_getElem? hi)
  | @outputFailed i job₀ _ _ _ _ hi =>
    refine ⟨Nat.le_succ _, fun job hjob _ => Or.inl hjob, fun hnd job hjob => ?_⟩
    rcases List.mem_or_eq_of_mem_set hjob with hjob | rfl
    · exact hnd job hjob
    · exact hnd job₀ (List.mem_of_getElem? hi)
  | compactionCommitted =>
    exact ⟨le_refl _, fun job hjob _ => Or.inl hjob,
      fun hnd job hjob => hnd job (List.mem_of_mem_eraseIdx hjob)⟩
  | compactionFailed =>
    exact ⟨le_refl _, fun job hjob _ => Or.inl hjob,
      fun hnd job hjob => hnd job (List.mem_of_mem_eraseIdx hjob)⟩
  | reopened => exact absurd rfl (hre _ _)

end World

namespace RefWorld

variable {s s' : RefWorld}

/-- **The counts are exact**, and a number that a flush has taken is not made yet. -/
structure Sound (s : RefWorld) : Prop where
  files : s.world.Files
  exact : Exact s.refs s.holders
  made : ∀ n ∈ s.refs.made, n < s.world.db.nextFileNumber ∧
    ∀ job ∈ s.world.flushes, job.result = .building → job.number ≠ n
  snapshots : ∀ job ∈ s.world.compactions, job.l0Snapshot.Nodup

/-- Every commit finds its L0 inputs. -/
def InputsStay (s : RefWorld) : RefLabel → Prop
  | .db l => s.world.InputsStay l
  | _ => True

instance (s : RefWorld) (l : RefLabel) : Decidable (InputsStay s l) := by
  rcases l with _ | _ <;> unfold InputsStay <;> infer_instance

theorem fresh_sound (options : Options) : Sound { world := World.fresh options } where
  files := World.fresh_files options
  exact := by
    have hnil : ({ world := World.fresh options } : RefWorld).holders = [] := by
      simp [holders, World.held, World.fresh, Levels.tables, Levels.toList]
    rw [hnil]
    exact Exact.empty
  made := by simp
  snapshots := by simp [World.fresh]

theorem map_ref (ts : List SSTable) :
    (ts.map fun t => Op.ref t.number) = (ts.map (·.number)).map .ref := by rw [List.map_map]; rfl

theorem map_unref (ts : List SSTable) :
    (ts.map fun t => Op.unref t.number) = (ts.map (·.number)).map .unref := by rw [List.map_map]; rfl

/-- **A section of the database.** -/
theorem Sound.db (h : s.Sound) {l : Label} {w' : World} (hok : s.world.InputsStay l)
    (hre : ∀ o h, l ≠ .reopen o h) (hstep : s.world.step l = some w') :
    Sound { s with world := w', refs := s.refs.run (refOps s.world w' l) } := by
  obtain ⟨hle, hbuild, hsnap⟩ := World.numbers_of_step h.files hre hstep
  have hfiles := h.files.step hstep
  have hmade : ∀ n ∈ s.refs.made, n < w'.db.nextFileNumber ∧
      ∀ job ∈ w'.flushes, job.result = .building → job.number ≠ n := by
    intro n hn
    obtain ⟨hlt, hne⟩ := h.made n hn
    refine ⟨hlt.trans_le hle, fun job hjob hb => ?_⟩
    rcases hbuild job hjob hb with hjob | hnum
    · exact hne job hjob hb
    · rw [hnum]; exact hlt.ne'
  have hexact := h.exact
  rw [holders, List.map_append] at hexact
  have hmoves := World.moves_of_step h.snapshots hok hre hstep
  generalize refOps s.world w' l = ops at hmoves ⊢
  cases hmoves with
  | none hp =>
    refine ⟨hfiles, ?_, hmade, hsnap h.snapshots⟩
    rw [holders, List.map_append]
    exact hexact.perm ((hp.map _).append_right _)
  | @make t hfresh hmem hp =>
    -- a number is given out once, and the table of a flush is made once
    have hnew : t.number ∉ s.refs.made := fun hn => by
      obtain ⟨hlt, hne⟩ := h.made _ hn
      rcases hfresh with hnum | ⟨job, hjob, hres, hnum⟩
      · exact absurd hlt (by omega)
      · exact hne job hjob hres hnum
    refine ⟨hfiles, ?_, fun n hn => ?_, hsnap h.snapshots⟩
    · rw [holders, List.map_append]
      exact (hexact.make hnew).perm ((hp.map _).append_right _)
    · rcases List.mem_cons.1 hn with rfl | hn
      · refine ⟨hfiles.registered.lt _ hmem, fun job hjob hb hnum => ?_⟩
        have hjobmem : (t.number, none) ∈ w'.files := by
          rw [← hnum]
          refine List.mem_append_right _ (List.mem_append_left _ (List.mem_map.2 ⟨job, hjob, ?_⟩))
          rw [FlushJob.table, hb]
        cases List.inj_on_of_nodup_map hfiles.registered.nodup hmem hjobmem rfl
      · exact hmade n hn
  | @ref ts hheld hp =>
    rw [map_ref]
    refine ⟨hfiles, ?_, fun n hn => hmade n (by rwa [made_run _ _ (by simp)] at hn), hsnap h.snapshots⟩
    refine (h.exact.refs fun n hn => ?_).perm ?_
    · obtain ⟨t, ht, rfl⟩ := List.mem_map.1 hn
      exact List.mem_map_of_mem (List.mem_append_left _ (hheld t ht))
    · rw [holders, holders, ← List.map_append, ← List.append_assoc]
      exact (hp.append_right _).map _
  | @unref ts hp =>
    rw [map_unref]
    refine ⟨hfiles, ?_, fun n hn => hmade n (by rwa [made_run _ _ (by simp)] at hn), hsnap h.snapshots⟩
    refine (h.exact.perm ?_).unrefs
    rw [holders, holders, ← List.map_append]
    exact ((hp.append_right _).trans (List.Perm.of_eq (List.append_assoc _ _ _))).map _

/-- References taken for tables that are held. -/
theorem Sound.hold (h : s.Sound) {ts : List SSTable} (hts : ∀ t ∈ ts, t ∈ s.world.held)
    (hw : s'.world = s.world) (hrefs : s'.refs = s.hold ts)
    (hp : (ts ++ (s.gets.flatten ++ s.iterators.flatten)).Perm
      (s'.gets.flatten ++ s'.iterators.flatten)) : s'.Sound := by
  rw [RefWorld.hold, map_ref] at hrefs
  refine ⟨hw ▸ h.files, ?_, fun n hn => ?_, hw ▸ h.snapshots⟩
  · rw [hrefs]
    refine (h.exact.refs fun n hn => ?_).perm ?_
    · obtain ⟨t, ht, rfl⟩ := List.mem_map.1 hn
      exact List.mem_map_of_mem (List.mem_append_left _ (hts t ht))
    · rw [holders, holders, ← List.map_append, hw]
      exact ((List.perm_append_comm_assoc _ _ _).trans (hp.append_left _)).map _
  · rw [hrefs, made_run _ _ (by simp)] at hn
    rw [hw]
    exact h.made n hn

/-- References given back by calls or iterators. -/
theorem Sound.drop (h : s.Sound) {ts : List SSTable} (hw : s'.world = s.world)
    (hrefs : s'.refs = s.drop ts)
    (hp : (s.gets.flatten ++ s.iterators.flatten).Perm
      (ts ++ (s'.gets.flatten ++ s'.iterators.flatten))) : s'.Sound := by
  rw [RefWorld.drop, map_unref] at hrefs
  refine ⟨hw ▸ h.files, ?_, fun n hn => ?_, hw ▸ h.snapshots⟩
  · rw [hrefs]
    refine (h.exact.perm ?_).unrefs
    rw [holders, holders, ← List.map_append, hw]
    exact ((hp.append_left _).trans (List.perm_append_comm_assoc _ _ _)).map _
  · rw [hrefs, made_run _ _ (by simp)] at hn
    rw [hw]
    exact h.made n hn

theorem flatten_perm_eraseIdx {xss : List (List SSTable)} {i : ℕ} {xs : List SSTable}
    (hi : xss[i]? = some xs) : xss.flatten.Perm (xs ++ (xss.eraseIdx i).flatten) := by
  obtain ⟨hlt, rfl⟩ := List.getElem?_eq_some_iff.1 hi
  exact (List.getElem_cons_eraseIdx_perm hlt).symm.flatten

theorem step_db {l : Label} (hre : ∀ o hs, l ≠ .reopen o hs) (hstep : s.step (.db l) = some s') :
    ∃ w', s.world.step l = some w' ∧
      s' = { s with world := w', refs := s.refs.run (refOps s.world w' l) } := by
  have heq : s.step (.db l) = (s.world.step l).bind fun w =>
      some { s with world := w, refs := s.refs.run (refOps s.world w l) } := by
    cases l with
    | reopen o hs => exact absurd rfl (hre o hs)
    | _ => rfl
  rw [heq] at hstep
  obtain ⟨w', hw', hs'⟩ := Option.bind_eq_some_iff.1 hstep
  exact ⟨w', hw', (Option.some.inj hs').symm⟩

/-- **Every section keeps the counts exact**, when commits find their L0 inputs. -/
theorem Sound.step (h : s.Sound) {l : RefLabel} (hok : InputsStay s l) (hstep : s.step l = some s') :
    s'.Sound := by
  cases l with
  | db l =>
    by_cases hre : ∃ o hs, l = .reopen o hs
    · obtain ⟨o, hs, rfl⟩ := hre
      cases hstep
    · have hre' : ∀ o hs, l ≠ .reopen o hs := fun o hs heq => hre ⟨o, hs, heq⟩
      obtain ⟨w', hw', rfl⟩ := step_db hre' hstep
      exact h.db hok hre' hw'
  | acquire =>
    obtain rfl := Option.some.inj hstep
    refine h.hold (fun t ht => List.mem_append_left _ ht) rfl rfl ?_
    rw [List.flatten_append, List.flatten_singleton, List.append_assoc]
    exact List.perm_append_comm_assoc _ _ _
  | release i =>
    obtain ⟨ts, hts, hs'⟩ := Option.bind_eq_some_iff.1 hstep
    obtain rfl := Option.some.inj hs'
    refine h.drop rfl rfl ?_
    rw [← List.append_assoc]
    exact (flatten_perm_eraseIdx hts).append_right _
  | newIterator =>
    obtain rfl := Option.some.inj hstep
    refine h.hold (fun t ht => List.mem_append_left _ ht) rfl rfl ?_
    rw [List.flatten_append, List.flatten_singleton]
    exact (List.perm_append_comm_assoc _ _ _).trans (List.perm_append_comm.append_left _)
  | mergeIterator i =>
    obtain ⟨job, hjob, hs'⟩ := Option.bind_eq_some_iff.1 hstep
    obtain rfl := Option.some.inj hs'
    refine h.hold (fun t ht => ?_) rfl rfl ?_
    · refine List.mem_append_right _ (List.mem_append_right _ (List.mem_flatMap.2
        ⟨job, List.mem_of_getElem? hjob, ?_⟩))
      rw [CompactionJob.held, ← List.append_assoc]
      exact List.mem_append_left _ ht
    · rw [List.flatten_append, List.flatten_singleton]
      exact (List.perm_append_comm_assoc _ _ _).trans (List.perm_append_comm.append_left _)
  | deleteIterator i =>
    obtain ⟨ts, hts, hs'⟩ := Option.bind_eq_some_iff.1 hstep
    obtain rfl := Option.some.inj hs'
    refine h.drop rfl rfl ?_
    exact ((flatten_perm_eraseIdx hts).append_left _).trans (List.perm_append_comm_assoc _ _ _)

theorem sound_of_reach {options : Options}
    (h : Reach step InputsStay { world := World.fresh options } s) : s.Sound :=
  Reach.invariant (fresh_sound options) (fun _ _ _ hi hok hst => hi.step hok hst) h

/-- **A commit that does not find one of its L0 inputs** gives back one reference too many. -/
theorem Sound.commit_lt (h : s.Sound) {i : ℕ} {job : CompactionJob}
    (hi : s.world.compactions[i]? = some job) (hfailed : job.failed = false) {t : SSTable}
    (ht : t ∈ job.l0Snapshot) (hout : t ∉ s.world.db.levels.l0)
    (hstep : s.step (.db (.compactEnd i)) = some s') :
    s'.refs.count t.number < s'.holders.count t.number := by
  obtain ⟨w', hw', rfl⟩ := step_db (by simp) hstep
  have hnone : ∀ f ∈ s.world.files, f.1 ≠ t.number :=
    ((h.files.snapshot job (List.mem_of_getElem? hi) t ht).resolve_left hout).2
  have hzero : ∀ ts : List SSTable, (∀ u ∈ ts, (u.number, some u) ∈ s.world.files) →
      (ts.map (·.number)).count t.number = 0 := by
    intro ts hts
    refine List.count_eq_zero_of_not_mem fun hmem => ?_
    obtain ⟨u, hu, hnum⟩ := List.mem_map.1 hmem
    exact hnone _ (hts u hu) hnum
  -- the table stands nowhere but in snapshots, and the commit gives back two references for it
  have hlevels := hzero s.world.db.levels.tables fun u hu =>
    List.mem_append_left _ (List.mem_map_of_mem (f := fun t => (t.number, some t)) hu)
  have hnew := hzero job.newLevel1 fun u hu =>
    (World.files_compaction_self hi).mem_iff.2 (List.mem_append_left _
      (List.mem_map_of_mem (f := fun t => (t.number, some t)) hu))
  have hpos : 0 < (job.l0Snapshot.map (·.number)).count t.number :=
    List.count_pos_iff.2 (List.mem_map_of_mem ht)
  obtain rfl : w' = s.world.compactionCommitted i job := by
    obtain ⟨job', hi', ⟨-, rfl⟩ | ⟨hf, -⟩⟩ := World.compactEnd_cases hw'
    · rw [Option.some.inj (hi.symm.trans hi')]
    · rw [← Option.some.inj (hi.symm.trans hi'), hfailed] at hf
      exact absurd hf Bool.false_ne_true
  have hops : refOps s.world (s.world.compactionCommitted i job) (.compactEnd i) =
      ((s.world.db.commitUnrefs job).map (·.number)).map .unref := by
    simp only [refOps, hi, hfailed]
    exact map_unref _
  have hcount : (s.refs.run (refOps s.world (s.world.compactionCommitted i job) (.compactEnd i))).count
      t.number = s.holders.count t.number -
        ((s.world.db.commitUnrefs job).map (·.number)).count t.number := by
    rw [hops, count_unrefs, h.exact.count]
  have hself := ((World.held_compaction_self hi).map (·.number)).count_eq t.number
  refine hcount.trans_lt ?_
  simp only [holders, List.map_append, List.count_append] at hself ⊢
  rw [hself]
  simp only [World.held, CompactionJob.held, commitUnrefs, World.compactionCommitted,
    List.map_append, List.count_append, hlevels, hnew]
  omega

/-- **Every count is the number of holders**, and a table is deleted once, when its last holder
lets go, as long as commits find their L0 inputs in `levels_[0]`; a section after which this
still holds is one that does. -/
theorem exact_of_reach {options : Options}
    (h : Reach step InputsStay { world := World.fresh options } s) :
    (∀ n, s.refs.count n = s.holders.count n) ∧
      (∀ n ∈ s.refs.made, n ∈ s.refs.freed ↔ n ∉ s.holders) ∧ s.refs.freed.Nodup ∧
      ∀ l s', s.step l = some s' →
        ((∀ n, s'.refs.count n = s'.holders.count n) ↔ InputsStay s l) := by
  have hs := sound_of_reach h
  refine ⟨hs.exact.count, fun n hn => by rw [hs.exact.freed, and_iff_right hn], hs.exact.once,
    fun l s' hstep => ⟨fun heq => ?_, fun hok => (hs.step hok hstep).exact.count⟩⟩
  by_contra hnot
  rcases l with l | _ | _ | _ | _ | _ <;> try exact hnot trivial
  cases l with
  | compactEnd i =>
    simp only [InputsStay, World.InputsStay, not_forall] at hnot
    obtain ⟨job, hi, hfailed, t, ht, hout⟩ := hnot
    exact (hs.commit_lt hi hfailed ht hout hstep).ne (heq t.number)
  | _ => exact hnot trivial

/-- Two compactions over the same L0 table, the first of which commits while `Get` and an
iterator hold the table. -/
def overlapRun : List RefLabel :=
  [.db (.write (.put [107] [118]) 1 true), .db (.flushBegin .background),
    .db (.flushBuild 0 (fun _ => none) true), .db (.flushEnd 0), .db .compactBegin,
    .db .compactBegin, .mergeIterator 0, .acquire, .newIterator, .deleteIterator 0,
    .db (.compactEnd 0)]

theorem exact_of_reach_overlapRun : ∃ s,
    run step InputsStay { world := World.fresh { writeBufferSize := 1, l0CompactionTrigger := 1 } }
      overlapRun = some s ∧ s.refs.made = [1] ∧ s.refs.count 1 = 3 ∧
      (∀ n, s.refs.count n = s.holders.count n) ∧ 1 ∉ s.refs.freed := by
  have hrun : (run step InputsStay
      { world := World.fresh { writeBufferSize := 1, l0CompactionTrigger := 1 } } overlapRun).map
        (fun s => (s.refs.made, s.refs.count 1, decide (1 ∈ s.holders))) = some ([1], 3, true) := by
    decide +kernel
  obtain ⟨s, hs, heq⟩ := Option.map_eq_some_iff.1 hrun
  simp only [Prod.mk.injEq, decide_eq_true_eq] at heq
  obtain ⟨hmade, hcount, hheld⟩ := heq
  obtain ⟨hexact, hfreed, -, -⟩ := exact_of_reach (reach_of_run hs)
  refine ⟨s, hs, hmade, hcount, hexact, fun hmem => ?_⟩
  exact (hfreed 1 (by rw [hmade]; exact List.mem_singleton_self _)).1 hmem hheld

/-- **Two compactions at a time free a table that is still held**: the second commit gives two
references back where it has one, and the table is deleted under the `Get`. -/
theorem freed_while_held : ∃ s,
    Reach step (fun _ _ => True)
      { world := World.fresh { writeBufferSize := 1, l0CompactionTrigger := 1 } } s ∧
      1 ∈ s.refs.freed ∧ s.refs.count 1 = 0 ∧ s.holders.count 1 = 1 := by
  have hrun : (run step (fun _ _ => True)
      { world := World.fresh { writeBufferSize := 1, l0CompactionTrigger := 1 } }
      (overlapRun ++ [.deleteIterator 0, .db (.compactEnd 0)])).map
        (fun s => (decide (1 ∈ s.refs.freed), s.refs.count 1, s.holders.count 1)) =
          some (true, 0, 1) := by
    decide +kernel
  obtain ⟨s, hs, heq⟩ := Option.map_eq_some_iff.1 hrun
  simp only [Prod.mk.injEq, decide_eq_true_eq] at heq
  exact ⟨s, reach_of_run hs, heq⟩

end RefWorld

end MiniLSM
