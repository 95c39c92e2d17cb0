import MiniLSM.Proof.Compaction
import MiniLSM.Proof.Rotation

/-!
# L1 in every reachable state

* `Ranged`: memtables are well formed, the tables of L0 are those of flushes, L1 is a level, and
  a compaction under way has merged its inputs so far.
* `Ranged.step`: no step breaks this, when tables are written to their end and a compaction
  starts alone on separable inputs.
* `level_of_reach`: then L1 is sorted and disjoint, and its binary search misses nothing.
* `not_level_of_missed`: two tables of L1 with one user key, the first of which is stale.
-/

namespace MiniLSM

open DB Transition

instance (pairs : List (Bytes × Bytes)) : Decidable (Fits pairs) :=
  decidable_of_iff ((∀ p ∈ pairs, p.1.length + 8 + p.2.length < 2 ^ 31) ∧ pairs.length < 2 ^ 28)
    ⟨fun ⟨h1, h2⟩ => ⟨h1, h2⟩, fun ⟨h1, h2⟩ => ⟨h1, h2⟩⟩

/-! ## Opening -/

/-- The memtable of a database just opened is well formed. -/
theorem recover_wf {options : Options} {disk : Disk} {heights : ℕ → ℕ} {db : DB} {ops : List FsOp}
    (h : recover options disk heights = .ok (db, ops)) : db.mem.WF := by
  obtain ⟨m, mem, seq, rfl, rfl⟩ := World.recover_ok h
  exact World.replayAll_mem (P := MemTable.WF) (fun _ u v height h => MemTable.add_wf h u v height) MemTable.new_wf _ _

namespace World

variable {w w' : World}

/-! ## The invariant -/

/-- Tables are written to their end and within the sizes of the format, and a compaction starts
alone on separable inputs. -/
def Orderly (w : World) : Label → Prop
  | .flushBuild i faults _ => ∀ job ∈ w.flushes[i]?,
      buildTable job.imm faults = buildTable job.imm (fun _ => none) ∧ Fits job.imm.pairs
  | .compactBegin => w.compactions.isEmpty = true ∧ Separable w.db.levels.l0 w.db.levels.l1
  | .compactOutput i faults _ => ∀ job ∈ w.compactions[i]?,
      outputResult faults job.rest = outputResult (fun _ => none) job.rest
  | _ => True

instance (w : World) (l : Label) : Decidable (Orderly w l) := by
  rcases l with _ | _ <;> unfold Orderly <;> infer_instance

/-- **Memtables, tables and compactions are in order.** -/
structure Ranged (w : World) : Prop where
  mem : w.db.mem.WF
  imm : ∀ m ∈ w.db.imm, m.WF
  flushes : ∀ job ∈ w.flushes, job.imm.WF ∧ ∀ t ∈ job.table, t.Flushed ∧ t.pairs = job.imm.pairs
  l0 : ∀ t ∈ w.db.levels.l0, t.Flushed
  l1 : Level w.db.levels.l1
  compactions : w.compactions = [] ∨ ∃ job, w.compactions = [job] ∧ Underway w.db.levels job

theorem fresh_ranged (options : Options) : (fresh options).Ranged where
  mem := MemTable.new_wf
  imm := nofun
  flushes := nofun
  l0 := nofun
  l1 := Level.nil
  compactions := Or.inl rfl

/-- The table that a flush builds of a memtable. -/
theorem flushed_of_build {m : MemTable} (h : m.WF) (hfits : Fits m.pairs) {number : ℕ} {t : SSTable}
    (hopen : SSTable.openFile number (buildTable m fun _ => none).2 = .ok t) :
    t.Flushed ∧ t.pairs = m.pairs := by
  rw [buildTable_sound] at hopen
  obtain ⟨hsound, hpairs⟩ := sound_of_openFile hfits hopen
  rw [← hpairs] at hfits
  refine ⟨⟨hsound, hfits.entry, fun ha => ?_⟩, hpairs⟩
  rw [hpairs] at ha ⊢
  exact userPairs_sorted h.stored h.sorted ha

/-- Steps that leave `levels_` and the compactions alone. -/
theorem Ranged.keep (h : w.Ranged) (hl : w'.db.levels = w.db.levels)
    (hc : w'.compactions = w.compactions) (hmem : w'.db.mem.WF) (himm : ∀ m ∈ w'.db.imm, m.WF)
    (hf : ∀ job ∈ w'.flushes, job.imm.WF ∧ ∀ t ∈ job.table, t.Flushed ∧ t.pairs = job.imm.pairs) :
    w'.Ranged :=
  { mem := hmem
    imm := himm
    flushes := hf
    l0 := by rw [hl]; exact h.l0
    l1 := by rw [hl]; exact h.l1
    compactions := by rw [hl, hc]; exact h.compactions }

/-- The compaction that is under way is the only one. -/
theorem Ranged.job (h : w.Ranged) {i : ℕ} {job : CompactionJob} (hi : w.compactions[i]? = some job) :
    w.compactions = [job] ∧ i = 0 ∧ Underway w.db.levels job := by
  rcases h.compactions with hc | ⟨job', hc, hjob⟩
  · rw [hc] at hi; simp at hi
  · obtain ⟨rfl, rfl⟩ := eq_of_sole hc hi
    exact ⟨hc, rfl, hjob⟩

/-- The commit of a flush puts its table behind those of L0. -/
theorem Ranged.flushCommitted (h : w.Ranged) {i : ℕ} {job : FlushJob} {t : SSTable}
    (hi : w.flushes[i]? = some job) (hres : job.result = .opened t) : (w.flushCommitted i t).Ranged where
  mem := h.mem
  imm := nofun
  flushes := fun job hjob => h.flushes job (List.mem_of_mem_eraseIdx hjob)
  l0 := by
    intro s hs
    rcases List.mem_append.1 hs with hs | hs
    · exact h.l0 s hs
    · obtain rfl := List.mem_singleton.1 hs
      exact ((h.flushes job (List.mem_of_getElem? hi)).2 s (by rw [FlushJob.table, hres]; rfl)).1
  l1 := h.l1
  compactions := by
    refine h.compactions.imp_right ?_
    rintro ⟨job, hc, hjob⟩
    refine ⟨job, hc, ?_⟩
    obtain ⟨newer, hl0⟩ := hjob.l0
    exact
      { l0 := ⟨newer ++ [t], by
          show w.db.levels.l0 ++ [t] = _
          rw [hl0, List.append_assoc]⟩
        l1 := hjob.l1
        indices := hjob.indices
        separable := hjob.separable
        outputs := hjob.outputs }

/-- A compaction starts with the merge of its inputs. -/
theorem Ranged.compactionBegun (h : w.Ranged) (hc : w.compactions = [])
    (hsep : Separable w.db.levels.l0 w.db.levels.l1) {rest : List (Bytes × Bytes)}
    (hrest : mergeInputs (w.db.levels.l0 ++
      l1Inputs w.db.levels.l1 (l1Indices w.db.levels.l0 w.db.levels.l1)) = .ok rest) :
    ({ w with compactions := w.compactions ++ [newCompaction w.db rest] } : World).Ranged := by
  have hts := tables_sorted h.l0 h.l1 hsep.apart
  obtain ⟨merged, hmerge, hm⟩ := mergeInputs_eq fun t ht =>
    (hts t (inputs_subset w.db.levels.l0 w.db.levels.l1 ht)).sound
  rw [l1Inputs_eq] at hrest
  obtain rfl : merged = rest := Except.ok.inj (hmerge.symm.trans hrest)
  exact
    { mem := h.mem
      imm := h.imm
      flushes := h.flushes
      l0 := h.l0
      l1 := h.l1
      compactions := Or.inr ⟨newCompaction w.db merged, by rw [hc]; rfl,
        { l0 := ⟨[], (List.append_nil _).symm⟩
          l1 := l1Inputs_eq _ _
          indices := rfl
          separable := hsep
          outputs := fun _ => ⟨merged, hm, outputs_nil merged rfl rfl⟩ }⟩ }

/-- A compaction has written an output, or given up. -/
theorem Ranged.outputWritten (h : w.Ranged) {i : ℕ} {job : CompactionJob}
    (hi : w.compactions[i]? = some job) (job' : CompactionJob)
    (hsame : job'.l0Snapshot = job.l0Snapshot ∧ job'.l1Snapshot = job.l1Snapshot ∧
      job'.l1Indices = job.l1Indices)
    (hout : ∀ merged, Merge.Merged Prod.fst
        ((inputs job.l0Snapshot w.db.levels.l1).map SSTable.contents) merged →
      job'.failed = false → job.failed = false ∧ (Outputs merged job → Outputs merged job'))
    (ops : List FsOp) : (w.outputWritten i job' ops).Ranged := by
  obtain ⟨hc, rfl, hjob⟩ := h.job hi
  exact
    { mem := h.mem
      imm := h.imm
      flushes := h.flushes
      l0 := h.l0
      l1 := h.l1
      compactions := Or.inr ⟨job', by simp [World.outputWritten, hc],
        { l0 := by rw [hsame.1]; exact hjob.l0
          l1 := by rw [hsame.1, hsame.2.1]; exact hjob.l1
          indices := by rw [hsame.1, hsame.2.2]; exact hjob.indices
          separable := by rw [hsame.1]; exact hjob.separable
          outputs := fun hf => by
            obtain ⟨merged, hm⟩ := Merge.Merged.exists_merged Prod.fst
              ((inputs job.l0Snapshot w.db.levels.l1).map SSTable.contents)
            obtain ⟨merged', hm', hm''⟩ := hjob.outputs (hout merged hm hf).1
            rw [hsame.1]
            exact ⟨merged', hm', (hout merged' hm' hf).2 hm''⟩ }⟩ }

/-- The commit of a compaction leaves a level behind. -/
theorem Ranged.compactionCommitted (h : w.Ranged) {i : ℕ} {job : CompactionJob}
    (hi : w.compactions[i]? = some job) (hf : job.failed = false) (hbusy : job.busy = false) :
    (w.compactionCommitted i job).Ranged := by
  obtain ⟨hc, rfl, hjob⟩ := h.job hi
  obtain ⟨newer, hl0⟩ := hjob.l0
  have hlevels : (w.compactionCommitted 0 job).db.levels = _ := hjob.levels_eq hl0
  exact
    { mem := h.mem
      imm := h.imm
      flushes := h.flushes
      l0 := by
        rw [hlevels]
        exact fun t ht => h.l0 t (hl0 ▸ List.mem_append_right _ ht)
      l1 := by
        rw [hlevels]
        exact hjob.commit h.l0 h.l1 hf hbusy
      compactions := Or.inl (by simp [World.compactionCommitted, hc]) }

/-- **No step breaks the order.** -/
theorem Ranged.step (h : w.Ranged) (hfiles : w.Files) {l : Label} (hok : Orderly w l)
    (hstep : w.step l = some w') : w'.Ranged := by
  cases step_event hstep with
  | wrote => exact h.keep rfl rfl (MemTable.add_wf h.mem _ _ _) h.imm h.flushes
  | waits => exact h.keep rfl rfl h.mem h.imm h.flushes
  | rotated =>
    refine h.keep rfl rfl (MemTable.add_wf MemTable.new_wf _ _ _) (fun m hm => ?_) h.flushes
    obtain rfl := Option.some.inj hm
    exact h.mem
  | rotateFailed => exact h.keep rfl rfl h.mem h.imm h.flushes
  | flushBegun himm _ =>
    refine h.keep rfl rfl h.mem h.imm fun job hjob => ?_
    rcases List.mem_append.1 hjob with hjob | hjob
    · exact h.flushes job hjob
    · obtain rfl := List.mem_singleton.1 hjob
      exact ⟨h.imm _ himm, nofun⟩
  | @flushBuilt i job faults t hi _ _ hopen =>
    obtain ⟨hio, hfits⟩ := hok job hi
    rw [hio] at hopen
    have hwf := (h.flushes job (List.mem_of_getElem? hi)).1
    refine h.keep rfl rfl h.mem h.imm fun job' hjob' => ?_
    rcases List.mem_or_eq_of_mem_set hjob' with hjob' | rfl
    · exact h.flushes job' hjob'
    · refine ⟨hwf, fun t' ht' => ?_⟩
      obtain rfl : t = t' := Option.some.inj ht'
      exact flushed_of_build hwf hfits hopen
  | @flushNotBuilt i job _ _ _ hi =>
    refine h.keep rfl rfl h.mem h.imm fun job' hjob' => ?_
    rcases List.mem_or_eq_of_mem_set hjob' with hjob' | rfl
    · exact h.flushes job' hjob'
    · exact ⟨(h.flushes job (List.mem_of_getElem? hi)).1, nofun⟩
  | flushCommitted hi hres => exact h.flushCommitted hi hres
  | flushFailed =>
    exact h.keep rfl rfl h.mem h.imm fun job hjob => h.flushes job (List.mem_of_mem_eraseIdx hjob)
  | flushDropped =>
    exact h.keep rfl rfl h.mem nofun fun job hjob => h.flushes job (List.mem_of_mem_eraseIdx hjob)
  | compactionBegun _ _ hrest =>
    obtain ⟨hempty, hsep⟩ := hok
    exact h.compactionBegun (List.isEmpty_iff.1 hempty) hsep hrest
  | @outputWritten i job faults t b rest hi hbusy hfill _ hopen =>
    refine h.outputWritten hi { job with rest := rest, newLevel1 := job.newLevel1 ++ [t] }
      ⟨rfl, rfl, rfl⟩
      (fun merged hm hf => ⟨hf, fun hout => ?_⟩) _
    obtain ⟨-, -, hjob⟩ := h.job hi
    obtain ⟨newer, hl0⟩ := hjob.l0
    have h0 : ∀ t ∈ job.l0Snapshot, t.Flushed := fun t ht => h.l0 t (hl0 ▸ List.mem_append_left _ ht)
    exact hout.next (fun p hp => inputs_short h0 h.l1 p (live_subset hm hp))
      (hjob.separable.one_file.perm (merged_perm hm).symm) hbusy (hok job hi) hfill hopen
  | @outputFailed i job faults opens b rest hi =>
    exact h.outputWritten hi { job with rest := rest, failed := true } ⟨rfl, rfl, rfl⟩
      (fun _ _ hf => absurd hf (by simp)) _
  | compactionCommitted hi hf hbusy => exact h.compactionCommitted hi hf hbusy
  | compactionFailed hi =>
    obtain ⟨hc, rfl, -⟩ := h.job hi
    exact
      { mem := h.mem
        imm := h.imm
        flushes := h.flushes
        l0 := h.l0
        l1 := h.l1
        compactions := Or.inl (by simp [World.compactionFailed, hc]) }
  | @reopened options heights db ops _ hf hc _ hrec =>
    -- `levels_` comes back as it was
    obtain ⟨next, wal, hrecorded, -⟩ := hfiles.recorded
    obtain ⟨mem, seq, heq⟩ := hfiles.recover hrecorded options heights
    have hwf := recover_wf hrec
    obtain ⟨rfl, rfl⟩ : _ = db ∧ _ = ops := by
      rw [heq] at hrec
      exact Prod.ext_iff.1 (Except.ok.inj hrec)
    exact h.keep rfl rfl hwf (fun m hm => absurd hm (Option.not_mem_none m)) h.flushes

theorem ranged_of_reach {options : Options} (h : Reach World.step Orderly (fresh options) w) : w.Ranged :=
  Reach.invariant_of (fun _ hr => files_of_reach hr) (fresh_ranged options)
    (fun _ _ _ hf hr hok hs => hr.step hf hok hs) h

/-! ## The level -/

/-- **L1 is sorted and its tables are disjoint**, and the binary search of `Get` finds in it what a
look through all its tables finds. -/
theorem level_of_reach {options : Options} (h : Reach World.step Orderly (fresh options) w) :
    (w.db.levels.l1.Pairwise fun a b => a.firstKey < b.firstKey ∧ ∀ p ∈ a.pairs, ∀ q ∈ b.pairs,
        p.1 < q.1) ∧
      ∀ k, getLevel k w.db.levels.l1 = getTables k w.db.levels.l1 := by
  have hl := (ranged_of_reach h).l1
  refine ⟨hl.below.imp_of_mem fun {a b} ha hb hab => ⟨?_, hab⟩, hl.getLevel_eq_getTables⟩
  have hbelow : Below a b := hab
  exact (hbelow.keys_lt (fun t ht => hl.table ht) hl.apart ha hb (hl.nonempty a ha) (hl.nonempty b hb)).1

/-- A write and the flush of what `imm_` then holds. -/
def thenFlush (op : WriteOp) : List Label :=
  [.write op 1 true, .flushBegin .background, .flushBuild 0 (fun _ => none) true, .flushEnd 0]

/-- A compaction with one output. -/
def compactOnce : List Label := [.compactBegin, .compactOutput 0 (fun _ => none) true, .compactEnd 0]

/-- The options of the runs below: every write switches memtables, and a table is enough to
compact. -/
def smallest : Options := { writeBufferSize := 1, l0CompactionTrigger := 1 }

/-- A run that ends with two tables in L1. -/
def levelRun : List Label :=
  thenFlush (.put [106] [1]) ++ thenFlush (.put [107] [1]) ++ thenFlush (.put [122] [1]) ++
    compactOnce ++ thenFlush (.delete [106]) ++ compactOnce

theorem level_of_reach_levelRun : ∃ w, run World.step Orderly (fresh smallest) levelRun = some w ∧
    w.db.levels.l1.map SSTable.pairs = [[([106], [1]), ([107], [1])], [([122], [1])]] ∧
      (w.db.levels.l1.Pairwise fun a b => a.firstKey < b.firstKey ∧ ∀ p ∈ a.pairs, ∀ q ∈ b.pairs,
        p.1 < q.1) ∧
      ∀ k, getLevel k w.db.levels.l1 = getTables k w.db.levels.l1 := by
  have hrun : (run World.step Orderly (fresh smallest) levelRun).map
      (fun w => w.db.levels.l1.map SSTable.pairs) =
        some [[([106], [1]), ([107], [1])], [([122], [1])]] := by decide +kernel
  obtain ⟨w, hw, heq⟩ := Option.map_eq_some_iff.1 hrun
  exact ⟨w, hw, heq, level_of_reach (reach_of_run hw)⟩

/-- A compaction starts when no other one is under way. -/
def OneCompactor (w : World) : Label → Prop
  | .compactBegin => w.compactions.isEmpty = true
  | _ => True

instance (w : World) (l : Label) : Decidable (OneCompactor w l) := by
  rcases l with _ | _ <;> unfold OneCompactor <;> infer_instance

set_option synthInstance.maxSize 1000 in
/-- **The range test compares internal keys**: the value `[2]` of `[107]` is put beside the table
that has `[1]` for it, whose last internal key is smaller. -/
theorem not_level_of_missed : ∃ w, Reach World.step OneCompactor (fresh smallest) w ∧
    w.acked = [([122], [1]), ([107], [2]), ([107], [1]), ([106], [1])] ∧
      w.db.levels.l1.map SSTable.pairs = [[([106], [1]), ([107], [1])], [([107], [2])]] ∧
      (w.db.get [107]).toOption = some (.OK, some [1]) := by
  have hrun : (run World.step OneCompactor (fresh smallest)
      (thenFlush (.put [106] [1]) ++ thenFlush (.put [107] [1]) ++ thenFlush (.put [107] [2]) ++
        compactOnce ++ thenFlush (.put [122] [1]) ++ compactOnce)).map
      (fun w => (w.acked, w.db.levels.l1.map SSTable.pairs, (w.db.get [107]).toOption)) =
      some ([([122], [1]), ([107], [2]), ([107], [1]), ([106], [1])],
        [[([106], [1]), ([107], [1])], [([107], [2])]], some (.OK, some [1])) := by decide +kernel
  obtain ⟨w, hw, heq⟩ := Option.map_eq_some_iff.1 hrun
  simp only [Prod.mk.injEq] at heq
  exact ⟨w, reach_of_run hw, heq⟩

end World

end MiniLSM
