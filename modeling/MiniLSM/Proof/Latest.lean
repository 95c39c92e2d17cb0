import MiniLSM.Proof.Replacement

/-!
# `Get` and the acknowledged writes

* `Latest`: for every key, the first version stands for the last acknowledged write.
* `Latest.step`: no step breaks this, when a write goes above the versions of its key in `mem_`,
  the user keys stay apart and every compaction puts the newest versions first.
* `get_of_reach`: then `Get` returns the value of the last `Put`, or nothing behind a `Delete`.
* `get_deleted`: a `Put` behind a `Delete` in one memtable is not found.
-/

namespace MiniLSM

open DB Transition

theorem present_append {ps qs qs' : List (Bytes × Bytes)} {k : Bytes}
    (h : ps.lookup k = none → present (qs.lookup k) = present (qs'.lookup k)) :
    present ((ps ++ qs).lookup k) = present ((ps ++ qs').lookup k) := by
  rw [lookup_append, lookup_append]
  cases hp : ps.lookup k with
  | some v => rfl
  | none => rw [Option.none_or, Option.none_or, h hp]

namespace World

variable {w w' : World}

/-- The internal key of a write is at or below those of all versions of its user key. -/
def OnTop (m : MemTable) (op : WriteOp) : Prop :=
  ∀ e ∈ m.entries, extractUserKey e.1 = op.key →
    makeInternalKey op.key (m.lastSeq + 1) (typeOf op.value) ≤ e.1

instance (m : MemTable) (op : WriteOp) : Decidable (OnTop m op) := by unfold OnTop; infer_instance

/-- The user key of a write stays apart from all others. -/
def StaysApart (w : World) (op : WriteOp) : Prop := AllApart ((op.key, op.value) :: w.db.versions)

instance (w : World) (op : WriteOp) : Decidable (w.StaysApart op) := by
  unfold StaysApart; infer_instance

/-- All I/O succeeds, a write goes above the versions of its user key, and a compaction puts the
newest versions first. -/
def Current (w : World) : Label → Prop
  | .write op _ _ => w.StaysApart op ∧ (w.db.hasRoom = true → OnTop w.db.mem op)
  | .wake i _ _ => ∀ op ∈ w.waiting[i]?, w.StaysApart op
  | .flushBuild i faults opens => opens = true ∧ w.Orderly (.flushBuild i faults opens)
  | .compactEnd i => ∀ job ∈ w.compactions[i]?, job.failed = false →
      ∀ p ∈ allPairs (job.l0Snapshot ++ job.l1Snapshot),
        (w.db.above job).lookup p.1 ≠ none ∨ job.NewestFirst p.1
  | .reopen _ _ => False
  | l => w.Orderly l

instance (w : World) (l : Label) : Decidable (Current w l) := by
  rcases l with _ | _ <;> unfold Current <;> infer_instance

theorem Current.orderly {l : Label} (h : w.Current l) : w.Orderly l := by
  cases l with
  | write => exact trivial
  | wake => exact trivial
  | flushBuild => exact h.2
  | compactEnd => exact trivial
  | reopen => exact trivial
  | flushBegin => exact h
  | flushEnd => exact h
  | compactBegin => exact h
  | compactOutput => exact h

/-- **The first version of each key stands for its last acknowledged write**, and a flush under
way is that of `imm_`. -/
structure Latest (w : World) : Prop where
  apart : AllApart w.db.versions
  latest : ∀ k, present (w.db.versions.lookup k) = present (w.acked.lookup k)
  idle : w.db.immFlushing = false → w.flushes = []
  busy : w.db.immFlushing = true →
    ∃ job, w.flushes = [job] ∧ w.db.imm = some job.imm ∧ job.result ≠ .failed

theorem fresh_latest (options : Options) : (fresh options).Latest where
  apart := nofun
  latest := fun _ => rfl
  idle := fun _ => rfl
  busy := fun h => absurd h Bool.false_ne_true

/-- A flush that is under way is the only one. -/
theorem Latest.job (h : w.Latest) {i : ℕ} {job : FlushJob} (hi : w.flushes[i]? = some job) :
    w.flushes = [job] ∧ i = 0 ∧ w.db.immFlushing = true ∧ w.db.imm = some job.imm ∧
      job.result ≠ .failed :=
  sole_flush h.idle h.busy hi

/-- Steps that leave the versions, the flushes and the acknowledged writes alone. -/
theorem Latest.keep (h : w.Latest) (hv : w'.db.versions = w.db.versions) (himm : w'.db.imm = w.db.imm)
    (hfl : w'.db.immFlushing = w.db.immFlushing) (hf : w'.flushes = w.flushes)
    (ha : w'.acked = w.acked) : w'.Latest :=
  { apart := by rw [hv]; exact h.apart
    latest := by rw [hv, ha]; exact h.latest
    idle := by rw [hfl, hf]; exact h.idle
    busy := by rw [hfl, hf, himm]; exact h.busy }

/-- **A write on top** of the versions of its key. -/
theorem Latest.wrote (h : w.Latest) {op : WriteOp} (ha : w.StaysApart op) (htop : OnTop w.db.mem op)
    (height n : ℕ) : (w.wrote op height n).Latest where
  apart := by
    refine ha.of_subset fun p hp => ?_
    have hv : (w.wrote op height n).db.versions = (w.db.mem.add op.key op.value height).pairs ++
        ((w.db.imm.map MemTable.pairs).getD [] ++
          (allPairs w.db.levels.l0.reverse ++ allPairs w.db.levels.l1)) := List.append_assoc _ _ _
    rw [hv] at hp
    rw [DB.versions, DB.memVersions, List.append_assoc]
    rcases List.mem_append.1 hp with hp | hp
    · rcases MemTable.pairs_add hp with rfl | hp
      · exact List.mem_cons_self
      · exact List.mem_cons_of_mem _ (List.mem_append_left _ hp)
    · exact List.mem_cons_of_mem _ (List.mem_append_right _ hp)
  latest := by
    intro k
    have hadd := @MemTable.lookup_add _ _ _ height htop k
    have hl := h.latest k
    show present (DB.versions _ |>.lookup k) = present (((op.key, op.value) :: w.acked).lookup k)
    rw [DB.versions, DB.memVersions, lookup_append, lookup_append] at hl ⊢
    rw [show (w.wrote op height n).db.mem = w.db.mem.add op.key op.value height from rfl, hadd,
      List.lookup_cons]
    by_cases hk : k = op.key
    · simp [hk]
    · rw [if_neg hk, beq_false_of_ne hk]
      exact hl
  idle := h.idle
  busy := h.busy

/-- A switch of memtables moves the versions of `mem_` to `imm_`. -/
theorem versions_rotated (himm : w.db.imm = none) : w.rotated.db.versions = w.db.versions := by
  simp only [DB.versions, DB.memVersions, World.rotated, himm, Option.map_none, Option.getD_none,
    List.append_nil]
  rfl

theorem Latest.rotated (h : w.Latest) (himm : w.db.imm = none) : w.rotated.Latest := by
  have hv := versions_rotated himm
  have hidle := idle_of_none h.busy (fun job hjob => by rw [hjob.1]; exact Option.some_ne_none _) himm
  exact
    { apart := by rw [hv]; exact h.apart
      latest := by rw [hv]; exact h.latest
      idle := h.idle
      busy := fun hf => absurd (hidle.symm.trans hf) Bool.false_ne_true }

/-- The commit of a flush moves the versions of `imm_` to a table. -/
theorem Latest.flushCommitted (h : w.Latest) (hr : w.Ranged) {i : ℕ} {job : FlushJob} {t : SSTable}
    (hi : w.flushes[i]? = some job) (hres : job.result = .opened t) : (w.flushCommitted i t).Latest := by
  obtain ⟨hflushes, rfl, -, himm, -⟩ := h.job hi
  have hpairs : t.pairs = job.imm.pairs :=
    ((hr.flushes job (List.mem_of_getElem? hi)).2 t (by rw [FlushJob.table, hres]; rfl)).2
  have hv : (w.flushCommitted 0 t).db.versions = w.db.versions := by
    simp only [DB.versions, DB.memVersions, World.flushCommitted, himm, Option.map_some,
      Option.getD_some, Option.map_none, Option.getD_none, List.append_nil, List.reverse_append,
      List.reverse_singleton, List.singleton_append, allPairs_cons, hpairs, List.append_assoc]
  exact
    { apart := by rw [hv]; exact h.apart
      latest := by rw [hv]; exact h.latest
      idle := fun _ => by simp [World.flushCommitted, hflushes]
      busy := fun hf => absurd hf Bool.false_ne_true }

/-- **The commit of a compaction that puts the newest versions first** changes no value. -/
theorem Latest.compactionCommitted (h : w.Latest) (hr : w.Ranged) {i : ℕ} {job : CompactionJob}
    (hi : w.compactions[i]? = some job) (hf : job.failed = false) (hbusy : job.busy = false)
    (hnewest : ∀ p ∈ allPairs (job.l0Snapshot ++ job.l1Snapshot),
      (w.db.above job).lookup p.1 ≠ none ∨ job.NewestFirst p.1) :
    (w.compactionCommitted i job).Latest := by
  obtain ⟨hold, hnew⟩ := hr.versions_commit hi
  have hjob := (hr.job hi).2.2
  have hall : ∀ k, (w.db.above job).lookup k ≠ none ∨ job.NewestFirst k := by
    intro k
    by_cases hk : k ∈ (allPairs (job.l0Snapshot ++ job.l1Snapshot)).map Prod.fst
    · obtain ⟨p, hp, rfl⟩ := List.mem_map.1 hk
      exact hnewest p hp
    · -- a key of no input has neither a winner nor a version in them
      have hnone : ∀ ps ⊆ allPairs (job.l0Snapshot ++ job.l1Snapshot), ps.lookup k = none :=
        fun ps hps => lookup_eq_none_of fun p hp heq => hk (List.mem_map.2 ⟨p, hps hp, heq⟩)
      obtain ⟨hwin, -, hsub⟩ := hjob.lookup_outputs hr.l0 hr.l1 hf hbusy k
      rw [← hjob.inputs_eq] at hsub
      refine Or.inr ?_
      rw [CompactionJob.NewestFirst, ← hwin, hnone _ hsub, hnone _ (allPairs_subset fun t ht => ?_)]
      · rfl
      · exact List.mem_append.2 ((List.mem_append.1 ht).imp_left List.mem_reverse.1)
  have hsame : ∀ k, present (w.db.versions.lookup k) =
      present ((w.compactionCommitted i job).db.versions.lookup k) := by
    intro k
    rw [hold, hnew, ← List.append_assoc, ← List.append_assoc, ← DB.above]
    refine present_append fun hnone => ?_
    exact (hjob.present_iff hr.l0 hr.l1 hf hbusy k).2 ((hall k).resolve_left fun hne => hne hnone)
  exact
    { apart := hr.versions_commit_apart hi hf hbusy h.apart
      latest := fun k => (hsame k).symm.trans (h.latest k)
      idle := h.idle
      busy := h.busy }

/-- A flush of a memtable of fit size does not fail. -/
theorem openFile_of_fits {m : MemTable} (hfits : Fits m.pairs) (number : ℕ) :
    (buildTable m fun _ => none).1.isOk = true ∧
      ∃ t, SSTable.openFile number (buildTable m fun _ => none).2 = .ok t := by
  rw [buildTable_sound]
  obtain ⟨t, -, hopen, -⟩ := openFile_build hfits number
  exact ⟨rfl, t, hopen⟩

/-- **No step loses or revives a value.** -/
theorem Latest.step (h : w.Latest) (hr : w.Ranged) {l : Label} (hok : w.Current l)
    (hstep : w.step l = some w') : w'.Latest := by
  cases step_event hstep with
  | wrote hroom => exact h.wrote hok.1 (hok.2 hroom) _ _
  | waits => exact h.keep rfl rfl rfl rfl rfl
  | @rotated op height n ws l hl himm =>
    have hapart : w.StaysApart op := by
      rcases hl with ⟨rfl, -⟩ | ⟨i, rfl, hi, -⟩
      · exact hok.1
      · exact hok op hi
    have hkept : ({ w with waiting := ws } : World).Latest := h.keep rfl rfl rfl rfl rfl
    -- the switch moves versions between memtables and changes none
    have hapart' : ({ w with waiting := ws } : World).rotated.StaysApart op := by
      rw [StaysApart, @versions_rotated { w with waiting := ws } himm]
      exact hapart
    exact (hkept.rotated himm).wrote hapart' (fun e he => absurd he List.not_mem_nil) height _
  | rotateFailed => exact h.keep rfl rfl rfl rfl rfl
  | @flushBegun path m himm hidle =>
    exact
      { apart := h.apart
        latest := h.latest
        idle := fun hf => absurd hf.symm Bool.false_ne_true
        busy := fun _ => ⟨{ path := path, imm := m, number := w.db.nextFileNumber },
          by rw [World.flushBegun, h.idle hidle]; rfl, himm, nofun⟩ }
  | @flushBuilt i job faults t hi =>
    obtain ⟨hflushes, rfl, hfl, himm, -⟩ := h.job hi
    exact
      { apart := h.apart
        latest := h.latest
        idle := fun hf => absurd (hf.symm.trans hfl) Bool.false_ne_true
        busy := fun _ => ⟨{ job with result := .opened t }, by simp [World.flushBuilt, hflushes],
          himm, by simp⟩ }
  | @flushNotBuilt i job faults opens ops hi _ hfail =>
    -- a flush that fits is built and opens
    obtain ⟨hopens, hord⟩ := hok
    obtain ⟨hio, hfits⟩ := hord job hi
    obtain ⟨hisok, t, hopen⟩ := openFile_of_fits hfits job.number
    rw [hio, hisok, hopen, hopens] at hfail
    simp at hfail
  | flushCommitted hi hres => exact h.flushCommitted hr hi hres
  | flushFailed hi hres => exact absurd hres (h.job hi).2.2.2.2
  | flushDropped hi hres => exact absurd hres (h.job hi).2.2.2.2
  | compactionBegun => exact h.keep rfl rfl rfl rfl rfl
  | outputWritten => exact h.keep rfl rfl rfl rfl rfl
  | outputFailed => exact h.keep rfl rfl rfl rfl rfl
  | compactionCommitted hi hf hbusy => exact h.compactionCommitted hr hi hf hbusy (hok _ hi hf)
  | compactionFailed => exact h.keep rfl rfl rfl rfl rfl
  | reopened => exact hok.elim

/-- **`Get` returns the value of the last `Put`** of its key, and nothing if there is none or a
`Delete` came behind it. -/
theorem get_of_reach {options : Options} (h : Reach World.step Current (fresh options) w) (k : Bytes) :
    ∃ r, w.db.get k = .ok r ∧
      (∀ v, w.acked.lookup k = some v → v ≠ [] → r = (.OK, some v)) ∧
      ((∀ v, w.acked.lookup k = some v → v = []) → r.1.isNotFound = true) := by
  have hord := Reach.mono (fun _ _ => Current.orderly) h
  have hl : w.Latest := Reach.invariant_of (fun _ hr => ranged_of_reach (Reach.mono (fun _ _ =>
    Current.orderly) hr)) (fresh_latest options) (fun _ _ _ hr hl hok hs => hl.step hr hok hs) h
  refine ⟨_, (ranged_of_reach hord).get_eq (files_of_reach hord) hl.apart k, fun v hv hne => ?_,
    fun hnil => ?_⟩
  · have hpresent := hl.latest k
    rw [hv, present_some hne] at hpresent
    rcases answer_spec (w.db.versions.lookup k) with ⟨value, hp, ha⟩ | ⟨hp, -⟩
    · rw [ha, Option.some.inj (hp.symm.trans hpresent)]
    · exact absurd (hp.symm.trans hpresent) (by simp)
  · have hpresent := hl.latest k
    have hnone : present (w.acked.lookup k) = none := by
      cases hv : w.acked.lookup k with
      | none => rfl
      | some v => rw [hnil v hv]; rfl
    rw [hnone] at hpresent
    rcases answer_spec (w.db.versions.lookup k) with ⟨value, hp, -⟩ | ⟨-, hcode⟩
    · exact absurd (hp.symm.trans hpresent) (by simp)
    · simp [Status.isNotFound, hcode]

/-- A run with an overwritten and a deleted key, and a compaction behind which both still have
versions. -/
def currentRun : List Label :=
  thenFlush (.put [106] [1]) ++ thenFlush (.put [107] [1]) ++ thenFlush (.delete [106]) ++
    [.compactBegin] ++ thenFlush (.put [107] [2]) ++
    [.compactOutput 0 (fun _ => none) true, .compactEnd 0]

theorem get_of_reach_currentRun : ∃ w, run World.step Current (fresh smallest) currentRun = some w ∧
    w.acked = [([107], [2]), ([106], []), ([107], [1]), ([106], [1])] ∧
      w.db.levels.l1.map SSTable.pairs = [[([106], [1]), ([107], [1])]] ∧
      w.db.get [107] = .ok (.OK, some [2]) ∧ ∃ r, w.db.get [106] = .ok r ∧ r.1.isNotFound = true := by
  have hrun : (run World.step Current (fresh smallest) currentRun).map
      (fun w => (w.acked, w.db.levels.l1.map SSTable.pairs)) =
      some ([([107], [2]), ([106], []), ([107], [1]), ([106], [1])],
        [[([106], [1]), ([107], [1])]]) := by decide +kernel
  obtain ⟨w, hw, heq⟩ := Option.map_eq_some_iff.1 hrun
  simp only [Prod.mk.injEq] at heq
  obtain ⟨hacked, hl1⟩ := heq
  obtain ⟨r, hr, hput, -⟩ := get_of_reach (reach_of_run hw) [107]
  obtain ⟨r', hr', -, hdel⟩ := get_of_reach (reach_of_run hw) [106]
  refine ⟨w, hw, hacked, hl1, ?_, r', hr', hdel fun v hv => ?_⟩
  · rw [hr, hput [2] (by rw [hacked]; rfl) (by decide)]
  · rw [hacked] at hv
    exact (Option.some.inj hv).symm

/-- **A `Put` behind a `Delete` is not found**: the type byte of the tombstone comes first. -/
theorem get_deleted : ∃ w, Reach World.step (fun _ _ => True) (fresh {}) w ∧
    w.acked = [([107], [2]), ([107], []), ([107], [1])] ∧
      (w.db.get [107]).toOption = some (.notFound "deleted", some []) := by
  have hrun : (run World.step (fun _ _ => True) (fresh {})
      [.write (.put [107] [1]) 1 true, .write (.delete [107]) 1 true,
        .write (.put [107] [2]) 1 true]).map (fun w => (w.acked, (w.db.get [107]).toOption)) =
      some ([([107], [2]), ([107], []), ([107], [1])], some (.notFound "deleted", some [])) := by
    decide +kernel
  obtain ⟨w, hw, heq⟩ := Option.map_eq_some_iff.1 hrun
  simp only [Prod.mk.injEq] at heq
  exact ⟨w, reach_of_run hw, heq⟩

end World

end MiniLSM
