import MiniLSM.Lib.Transition
import MiniLSM.Spec.World

/-!
# What a step can do

`Event w l w'` lists the effects of a step, one constructor for each, with all that is checked
before it. `step_event` is the inversion of `World.step`; every invariant is proved from it.
-/

namespace MiniLSM

open DB

namespace World

/-- The effect of a write to log `n`. -/
def wrote (w : World) (op : WriteOp) (height n : ℕ) : World :=
  { w with
    db := { w.db with
      lastSequence := w.db.lastSequence + 1
      mem := w.db.mem.add op.key op.value height }
    disk := w.disk.run [.appendLog n (WALWriter.addRecord (op.record (w.db.lastSequence + 1)))]
    acked := (op.key, op.value) :: w.acked }

/-- The effect of a switch of memtables. -/
def rotated (w : World) : World :=
  { w with
    db := { w.db with
      mem := MemTable.new
      imm := some w.db.mem
      walNumber := w.db.walNumber + 1
      wal := some (w.db.walNumber + 1) }
    disk := w.disk.run [.openLog (w.db.walNumber + 1)] }

/-- The effect of a switch whose new log does not open. -/
def rotateFailed (w : World) : World :=
  { w with db := { w.db with walNumber := w.db.walNumber + 1, wal := none } }

/-- The effect of the first section of a flush. -/
def flushBegun (w : World) (path : FlushPath) (m : MemTable) : World :=
  { w with
    db := { w.db with immFlushing := true, nextFileNumber := w.db.nextFileNumber + 1 }
    flushes := w.flushes ++ [{ path := path, imm := m, number := w.db.nextFileNumber }] }

/-- The effect of building the table of flush `i`. -/
def flushBuilt (w : World) (i : ℕ) (job : FlushJob) (result : FlushResult) (ops : List FsOp) : World :=
  { w with disk := w.disk.run ops, flushes := w.flushes.set i { job with result := result } }

/-- The effect of the commit of flush `i`. -/
def flushCommitted (w : World) (i : ℕ) (t : SSTable) : World :=
  let db := { w.db with
    levels := { w.db.levels with l0 := w.db.levels.l0 ++ [t] }
    imm := none
    immFlushing := false }
  { w with
    db := db
    disk := w.disk.run { w.db with levels := db.levels }.writeManifest
    flushes := w.flushes.eraseIdx i }

/-- The effect of the end of flush `i` without a table, `imm_` kept. -/
def flushFailed (w : World) (i : ℕ) : World :=
  { w with db := { w.db with immFlushing := false }, flushes := w.flushes.eraseIdx i }

/-- The effect of the end of flush `i` without a table, `imm_` dropped. -/
def flushDropped (w : World) (i : ℕ) : World :=
  let db := { w.db with imm := none, immFlushing := false }
  { w with db := db, disk := w.disk.run db.writeManifest, flushes := w.flushes.eraseIdx i }

/-- The tables of L1 at some indices. -/
def l1Inputs (l1 : List SSTable) (indices : List ℕ) : List SSTable :=
  indices.filterMap fun i => l1[i]?

/-- The job that a compaction starts with. -/
def newCompaction (db : DB) (rest : List (Bytes × Bytes)) : CompactionJob :=
  { l0Snapshot := db.levels.l0
    l1Snapshot := l1Inputs db.levels.l1 (l1Indices db.levels.l0 db.levels.l1)
    l1Indices := l1Indices db.levels.l0 db.levels.l1
    rest := rest }

/-- The effect of one output file of compaction `i`. -/
def outputWritten (w : World) (i : ℕ) (job : CompactionJob) (ops : List FsOp) : World :=
  { w with
    db := { w.db with nextFileNumber := w.db.nextFileNumber + 1 }
    disk := w.disk.run ops
    compactions := w.compactions.set i job }

/-- The effect of the commit of compaction `i`. -/
def compactionCommitted (w : World) (i : ℕ) (job : CompactionJob) : World :=
  { w with
    db := (w.db.compactCommit job.l0Snapshot job.l1Indices job.newLevel1).1
    disk := w.disk.run (w.db.compactCommit job.l0Snapshot job.l1Indices job.newLevel1).2
    compactions := w.compactions.eraseIdx i }

/-- The effect of the clean-up of compaction `i`. -/
def compactionFailed (w : World) (i : ℕ) (job : CompactionJob) : World :=
  { w with
    disk := w.disk.run (job.newLevel1.map fun t => .unlinkSst t.number)
    compactions := w.compactions.eraseIdx i }

/-- The effects of a step. -/
inductive Event (w : World) : Label → World → Prop
  | wrote {op : WriteOp} {height n : ℕ} {walOpens : Bool} :
      w.db.hasRoom = true → w.db.wal = some n →
      Event w (.write op height walOpens) (w.wrote op height n)
  | waits {op : WriteOp} {height : ℕ} {walOpens : Bool} :
      w.db.hasRoom = false → w.db.imm ≠ none →
      Event w (.write op height walOpens) { w with waiting := w.waiting ++ [op] }
  | rotated {op : WriteOp} {height n : ℕ} {ws : List WriteOp} {l : Label} :
      l = .write op height true ∧ w.db.hasRoom = false ∧ ws = w.waiting ∨
        (∃ i, l = .wake i height true ∧ w.waiting[i]? = some op ∧ ws = w.waiting.eraseIdx i) →
      w.db.imm = none → w.db.wal = some n →
      Event w l ({ w with waiting := ws }.rotated.wrote op height (w.db.walNumber + 1))
  | rotateFailed {op : WriteOp} {height n : ℕ} {ws : List WriteOp} {l : Label} :
      l = .write op height false ∧ w.db.hasRoom = false ∧ ws = w.waiting ∨
        (∃ i, l = .wake i height false ∧ w.waiting[i]? = some op ∧ ws = w.waiting.eraseIdx i) →
      w.db.imm = none → w.db.wal = some n →
      Event w l { w with waiting := ws }.rotateFailed
  | flushBegun {path : FlushPath} {m : MemTable} :
      w.db.imm = some m → w.db.immFlushing = false →
      Event w (.flushBegin path) (w.flushBegun path m)
  | flushBuilt {i : ℕ} {job : FlushJob} {faults : ℕ → Option ℕ} {t : SSTable} :
      w.flushes[i]? = some job → job.result = .building →
      (buildTable job.imm faults).1.isOk = true →
      SSTable.openFile job.number (buildTable job.imm faults).2 = .ok t →
      Event w (.flushBuild i faults true) (w.flushBuilt i job (.opened t)
        [.writeSst job.number (buildTable job.imm faults).2])
  | flushNotBuilt {i : ℕ} {job : FlushJob} {faults : ℕ → Option ℕ} {opens : Bool}
      {ops : List FsOp} :
      w.flushes[i]? = some job → job.result = .building →
      (buildTable job.imm faults).1.isOk = false ∨ opens = false ∨
        (∃ s, SSTable.openFile job.number (buildTable job.imm faults).2 = .error (.status s)) →
      ops = [] ∨ ops = [.unlinkSst job.number] →
      Event w (.flushBuild i faults opens) (w.flushBuilt i job .failed
        (.writeSst job.number (buildTable job.imm faults).2 :: ops))
  | flushCommitted {i : ℕ} {job : FlushJob} {t : SSTable} {m : MemTable} :
      w.flushes[i]? = some job → job.result = .opened t → w.db.imm = some m →
      Event w (.flushEnd i) (w.flushCommitted i t)
  | flushFailed {i : ℕ} {job : FlushJob} :
      w.flushes[i]? = some job → job.result = .failed → job.path = .background →
      Event w (.flushEnd i) (w.flushFailed i)
  | flushDropped {i : ℕ} {job : FlushJob} {m : MemTable} :
      w.flushes[i]? = some job → job.result = .failed → job.path ≠ .background →
      w.db.imm = some m → Event w (.flushEnd i) (w.flushDropped i)
  | compactionBegun {rest : List (Bytes × Bytes)} :
      w.db.needCompaction = true → w.db.levels.l0 ≠ [] →
      mergeInputs (w.db.levels.l0 ++
        l1Inputs w.db.levels.l1 (l1Indices w.db.levels.l0 w.db.levels.l1)) = .ok rest →
      Event w .compactBegin
        { w with compactions := w.compactions ++ [newCompaction w.db rest] }
  | outputWritten {i : ℕ} {job : CompactionJob} {faults : ℕ → Option ℕ} {t : SSTable}
      {b : SSTableBuilder} {rest : List (Bytes × Bytes)} :
      w.compactions[i]? = some job → job.busy = true →
      fillOutput (SSTableBuilder.new { faults := faults }) job.rest = (b, rest) →
      b.finish.1.isOk = true →
      SSTable.openFile w.db.nextFileNumber b.finish.2.fd.file = .ok t →
      Event w (.compactOutput i faults true) (w.outputWritten i
        { job with rest := rest, newLevel1 := job.newLevel1 ++ [t] }
        [.writeSst w.db.nextFileNumber b.finish.2.fd.file])
  | outputFailed {i : ℕ} {job : CompactionJob} {faults : ℕ → Option ℕ} {opens : Bool}
      {b : SSTableBuilder} {rest : List (Bytes × Bytes)} :
      w.compactions[i]? = some job → job.busy = true →
      fillOutput (SSTableBuilder.new { faults := faults }) job.rest = (b, rest) →
      b.finish.1.isOk = false ∨ opens = false ∨
        (∃ s, SSTable.openFile w.db.nextFileNumber b.finish.2.fd.file = .error (.status s)) →
      Event w (.compactOutput i faults opens) (w.outputWritten i
        { job with rest := rest, failed := true }
        [.writeSst w.db.nextFileNumber b.finish.2.fd.file, .unlinkSst w.db.nextFileNumber])
  | compactionCommitted {i : ℕ} {job : CompactionJob} :
      w.compactions[i]? = some job → job.failed = false → job.busy = false →
      Event w (.compactEnd i) (w.compactionCommitted i job)
  | compactionFailed {i : ℕ} {job : CompactionJob} :
      w.compactions[i]? = some job → job.failed = true →
      Event w (.compactEnd i) (w.compactionFailed i job)
  | reopened {options : Options} {heights : ℕ → ℕ} {db : DB} {ops : List FsOp} :
      w.db.imm = none → w.flushes = [] → w.compactions = [] → w.waiting = [] →
      recover options w.disk heights = .ok (db, ops) →
      Event w (.reopen options heights) { w with db := db, disk := w.disk.run ops }

/-! ## Inversion -/

variable {w w' : World}

/-- A job under way alone is the one found at any index. -/
theorem eq_of_sole {J : Type*} {jobs : List J} {job job' : J} {i : ℕ} (hsole : jobs = [job'])
    (hi : jobs[i]? = some job) : i = 0 ∧ job' = job := by
  rw [hsole, List.getElem?_singleton] at hi
  split at hi
  · exact ⟨‹i = 0›, Option.some.inj hi⟩
  · cases hi

/-- Where the flag tells whether a flush is under way, the flush found at any index is the only one. -/
theorem sole_flush {P : FlushJob → Prop} (idle : w.db.immFlushing = false → w.flushes = [])
    (busy : w.db.immFlushing = true → ∃ job, w.flushes = [job] ∧ P job) {i : ℕ} {job : FlushJob}
    (hi : w.flushes[i]? = some job) : w.flushes = [job] ∧ i = 0 ∧ w.db.immFlushing = true ∧ P job := by
  cases hf : w.db.immFlushing with
  | false => rw [idle hf] at hi; simp at hi
  | true =>
    obtain ⟨job', hflushes, hP⟩ := busy hf
    obtain ⟨rfl, rfl⟩ := eq_of_sole hflushes hi
    exact ⟨hflushes, rfl, rfl, hP⟩

/-- Without a memtable to flush no flush is under way. -/
theorem idle_of_none {P : FlushJob → Prop}
    (busy : w.db.immFlushing = true → ∃ job, w.flushes = [job] ∧ P job)
    (himm : ∀ job, P job → w.db.imm ≠ none) (hnone : w.db.imm = none) : w.db.immFlushing = false := by
  by_contra hf
  obtain ⟨job, -, hP⟩ := busy (Bool.eq_true_of_not_eq_false hf)
  exact himm job hP hnone

theorem writeNow_eq_some {op : WriteOp} {height : ℕ} :
    w.writeNow op height = some w' ↔ ∃ n, w.db.wal = some n ∧ w' = w.wrote op height n := by
  simp only [writeNow, DB.write, commit, wrote, Option.bind_eq_bind, Option.bind_eq_some_iff,
    Option.pure_def, Option.some.injEq]
  constructor
  · rintro ⟨r, ⟨n, hn, rfl⟩, rfl⟩
    exact ⟨n, hn, rfl⟩
  · rintro ⟨n, hn, rfl⟩
    exact ⟨_, ⟨n, hn, rfl⟩, rfl⟩

theorem rotateAndWrite_eq_some {op : WriteOp} {height : ℕ} {walOpens : Bool}
    (h : w.rotateAndWrite op height walOpens = some w') :
    ∃ n, w.db.wal = some n ∧ w' = if walOpens then w.rotated.wrote op height (w.db.walNumber + 1)
      else w.rotateFailed := by
  simp only [rotateAndWrite, DB.rotate, Option.bind_eq_bind, Option.bind_eq_some_iff] at h
  obtain ⟨r, ⟨n, hn, hr⟩, hw⟩ := h
  refine ⟨n, hn, ?_⟩
  cases walOpens with
  | true =>
    simp only [if_true, Option.pure_def, Option.some.injEq] at hr hw ⊢
    subst hr
    obtain ⟨n', hn', rfl⟩ := writeNow_eq_some.1 hw
    obtain rfl : w.db.walNumber + 1 = n' := Option.some.inj hn'
    rfl
  | false =>
    simp only [Bool.false_eq_true, if_false, Option.pure_def, Option.some.injEq] at hr hw ⊢
    subst hr hw
    rfl

theorem openBuilt_eq_some {number : ℕ} {file : Bytes} {opens : Bool} {r : Option SSTable}
    (h : openBuilt number file opens = some r) :
    (∃ t, r = some t ∧ opens = true ∧ SSTable.openFile number file = .ok t) ∨
      r = none ∧ (opens = false ∨ ∃ s, SSTable.openFile number file = .error (.status s)) := by
  rw [openBuilt] at h
  cases opens with
  | false => exact Or.inr ⟨by simpa using h.symm, Or.inl rfl⟩
  | true =>
    simp only [if_true] at h
    split at h
    · rename_i t ht
      exact Or.inl ⟨t, (Option.some.inj h).symm, rfl, ht⟩
    · rename_i s hs
      exact Or.inr ⟨(Option.some.inj h).symm, Or.inr ⟨s, hs⟩⟩
    · simp at h

theorem buildFlush_event {i : ℕ} {faults : ℕ → Option ℕ} {opens : Bool}
    (h : w.buildFlush i faults opens = some w') : Event w (.flushBuild i faults opens) w' := by
  simp only [buildFlush, Option.bind_eq_bind, Option.bind_eq_some_iff] at h
  obtain ⟨job, hjob, h⟩ := h
  split at h
  case h_2 => simp at h
  rename_i hres
  split at h
  · rename_i hok
    obtain rfl := Option.some.inj h
    exact .flushNotBuilt hjob hres (Or.inl (by simpa using hok)) (Or.inl rfl)
  · rename_i hok
    obtain ⟨r, hr, hdone⟩ := Option.bind_eq_some_iff.1 h
    rcases openBuilt_eq_some hr with ⟨t, rfl, rfl, ht⟩ | ⟨rfl, hbad⟩
    · obtain rfl := Option.some.inj hdone
      exact .flushBuilt hjob hres (by simpa using hok) ht
    · obtain rfl := Option.some.inj hdone
      by_cases hp : job.path = .background
      · rw [if_pos hp]
        exact .flushNotBuilt hjob hres (Or.inr hbad) (Or.inr rfl)
      · rw [if_neg hp]
        exact .flushNotBuilt hjob hres (Or.inr hbad) (Or.inl rfl)

theorem endFlush_event {i : ℕ} (h : w.endFlush i = some w') : Event w (.flushEnd i) w' := by
  simp only [endFlush, Option.bind_eq_bind, Option.bind_eq_some_iff] at h
  obtain ⟨job, hjob, h⟩ := h
  split at h
  · simp at h
  · rename_i t hres
    simp only [flushCommit, Option.bind_eq_bind, Option.bind_eq_some_iff] at h
    obtain ⟨r, ⟨m, hm, hr⟩, h⟩ := h
    obtain rfl := Option.some.inj hr
    obtain rfl := Option.some.inj h
    exact .flushCommitted hjob hres hm
  · rename_i hres
    split at h
    · rename_i hp
      obtain rfl := Option.some.inj h
      exact .flushFailed hjob hres hp
    · rename_i hp
      simp only [flushDrop, Option.bind_eq_bind, Option.bind_eq_some_iff] at h
      obtain ⟨r, ⟨m, hm, hr⟩, h⟩ := h
      obtain rfl := Option.some.inj hr
      obtain rfl := Option.some.inj h
      exact .flushDropped hjob hres hp hm

theorem beginCompaction_event (h : w.beginCompaction = some w') : Event w .compactBegin w' := by
  rw [beginCompaction] at h
  split at h
  · simp at h
  rename_i hneed
  split at h
  · simp at h
  rename_i hl0
  simp only at h
  split at h
  case h_2 => simp at h
  rename_i rest hrest
  obtain rfl := Option.some.inj h
  exact .compactionBegun (by simpa using hneed) hl0 hrest

theorem writeOutput_event {i : ℕ} {faults : ℕ → Option ℕ} {opens : Bool}
    (h : w.writeOutput i faults opens = some w') : Event w (.compactOutput i faults opens) w' := by
  simp only [writeOutput, Option.bind_eq_bind, Option.bind_eq_some_iff] at h
  obtain ⟨job, hjob, h⟩ := h
  split at h
  · simp at h
  rename_i hbusy
  replace hbusy : job.busy = true := by simpa using hbusy
  split at h
  · rename_i hok
    obtain rfl := Option.some.inj h
    exact .outputFailed hjob hbusy rfl (Or.inl (by simpa using hok))
  · rename_i hok
    obtain ⟨r, hr, hdone⟩ := Option.bind_eq_some_iff.1 h
    rcases openBuilt_eq_some hr with ⟨t, rfl, rfl, ht⟩ | ⟨rfl, hbad⟩
    · obtain rfl := Option.some.inj hdone
      exact .outputWritten hjob hbusy rfl (by simpa using hok) ht
    · obtain rfl := Option.some.inj hdone
      exact .outputFailed hjob hbusy rfl (Or.inr hbad)

theorem endCompaction_event {i : ℕ} (h : w.endCompaction i = some w') :
    Event w (.compactEnd i) w' := by
  simp only [endCompaction, Option.bind_eq_bind, Option.bind_eq_some_iff] at h
  obtain ⟨job, hjob, h⟩ := h
  split at h
  · rename_i hfailed
    obtain rfl := Option.some.inj h
    exact .compactionFailed hjob hfailed
  rename_i hfailed
  split at h
  · simp at h
  rename_i hbusy
  obtain rfl := Option.some.inj h
  exact .compactionCommitted hjob (by simpa using hfailed) (by simpa using hbusy)

/-- **Inversion of a step.** -/
theorem step_event {l : Label} (h : w.step l = some w') : Event w l w' := by
  cases l with
  | write op height walOpens =>
    simp only [step] at h
    split at h
    · rename_i hroom
      obtain ⟨n, hn, rfl⟩ := writeNow_eq_some.1 h
      exact .wrote hroom hn
    rename_i hroom
    replace hroom : w.db.hasRoom = false := by simpa using hroom
    split at h
    · rename_i himm
      obtain rfl := Option.some.inj h
      exact .waits hroom (Option.isSome_iff_ne_none.1 himm)
    rename_i himm
    replace himm : w.db.imm = none := by simpa using himm
    obtain ⟨n, hn, rfl⟩ := rotateAndWrite_eq_some h
    cases walOpens with
    | true => exact Event.rotated (w := w) (Or.inl ⟨rfl, hroom, rfl⟩) himm hn
    | false => exact Event.rotateFailed (w := w) (Or.inl ⟨rfl, hroom, rfl⟩) himm hn
  | wake i height walOpens =>
    simp only [step, Option.bind_eq_bind, Option.bind_eq_some_iff] at h
    obtain ⟨op, hop, h⟩ := h
    split at h
    · simp at h
    rename_i himm
    replace himm : w.db.imm = none := by simpa using himm
    obtain ⟨n, hn, rfl⟩ := rotateAndWrite_eq_some h
    cases walOpens with
    | true => exact .rotated (Or.inr ⟨i, rfl, hop, rfl⟩) himm hn
    | false => exact .rotateFailed (Or.inr ⟨i, rfl, hop, rfl⟩) himm hn
  | flushBegin path =>
    simp only [step, DB.flushBegin, Option.bind_eq_bind, Option.bind_eq_some_iff] at h
    obtain ⟨r, hr, h⟩ := h
    split at hr
    · rename_i m hm
      split at hr
      · simp at hr
      · rename_i hidle
        obtain rfl := Option.some.inj hr
        obtain rfl := Option.some.inj h
        exact .flushBegun hm (by simpa using hidle)
    · simp at hr
  | flushBuild i faults opens => exact buildFlush_event h
  | flushEnd i => exact endFlush_event h
  | compactBegin => exact beginCompaction_event h
  | compactOutput i faults opens => exact writeOutput_event h
  | compactEnd i => exact endCompaction_event h
  | reopen options heights =>
    simp only [step] at h
    split at h
    · simp at h
    rename_i hidle
    simp only [Bool.or_eq_true, not_or, Bool.not_eq_true, Option.isSome_eq_false_iff,
      Option.isNone_iff_eq_none, Bool.not_eq_false', List.isEmpty_iff] at hidle
    obtain ⟨⟨⟨h1, h2⟩, h3⟩, h4⟩ := hidle
    split at h
    · rename_i r hr
      obtain rfl := Option.some.inj h
      exact .reopened h1 h2 h3 h4 hr
    · simp at h

/-- The last section of a compaction commits it or cleans up. -/
theorem compactEnd_cases {i : ℕ} (h : w.step (.compactEnd i) = some w') :
    ∃ job, w.compactions[i]? = some job ∧
      (job.failed = false ∧ w' = w.compactionCommitted i job ∨
        job.failed = true ∧ w' = w.compactionFailed i job) := by
  cases step_event h with
  | rotated hl => rcases hl with ⟨hl, -⟩ | ⟨_, hl, -⟩ <;> cases hl
  | rotateFailed hl => rcases hl with ⟨hl, -⟩ | ⟨_, hl, -⟩ <;> cases hl
  | compactionCommitted hi hf _ => exact ⟨_, hi, Or.inl ⟨hf, rfl⟩⟩
  | compactionFailed hi hf => exact ⟨_, hi, Or.inr ⟨hf, rfl⟩⟩

/-- A clean reopening finds no job under way and recovers the directory. -/
theorem reopen_cases {options : Options} {heights : ℕ → ℕ}
    (h : w.step (.reopen options heights) = some w') :
    w.flushes = [] ∧ w.compactions = [] ∧ ∃ db ops, recover options w.disk heights = .ok (db, ops) ∧
      w' = { w with db := db, disk := w.disk.run ops } := by
  cases step_event h with
  | rotated hl => rcases hl with ⟨hl, -⟩ | ⟨_, hl, -⟩ <;> cases hl
  | rotateFailed hl => rcases hl with ⟨hl, -⟩ | ⟨_, hl, -⟩ <;> cases hl
  | reopened _ hf hc _ hrec => exact ⟨hf, hc, _, _, hrec, rfl⟩

end World

end MiniLSM
