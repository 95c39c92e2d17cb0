import MiniLSM.Proof.Files
import MiniLSM.Proof.Flush
import MiniLSM.Proof.Wal

/-!
# The log against the memtable

`Logged` holds as long as every log that a write opens does open: the log of `wal_number_`
replays to the entries of `mem_`, no log has a greater number, and while `imm_` is null the
MANIFEST names that log.

* `Logged.step`: a step of that kind keeps `Logged`.
* `manifest_and_log`: closing a database and opening it again restores `mem_` and `levels_`.
-/

namespace MiniLSM

open Transition WALWriter

/-! ## Replaying records -/

/-- Two memtables with the same entries and counter. -/
structure MemTable.Same (m m' : MemTable) : Prop where
  entries : m.entries = m'.entries
  lastSeq : m.lastSeq = m'.lastSeq

theorem chainEntries_insertChain {ns ns' : List Node}
    (h : MemTable.chainEntries ns = MemTable.chainEntries ns') (key value : Bytes) (a b : ℕ) :
    MemTable.chainEntries (SkipList.insertChain key value a ns) =
      MemTable.chainEntries (SkipList.insertChain key value b ns') := by
  induction ns generalizing ns' with
  | nil =>
    obtain rfl : ns' = [] := by simpa [MemTable.chainEntries] using h.symm
    rfl
  | cons n ns ih =>
    obtain ⟨n', ns', rfl⟩ : ∃ n' ns'', ns' = n' :: ns'' := by
      cases ns' with
      | nil => simp [MemTable.chainEntries] at h
      | cons n' ns' => exact ⟨n', ns', rfl⟩
    simp only [MemTable.chainEntries, List.map_cons, List.cons.injEq, Prod.mk.injEq] at h ih
    obtain ⟨⟨hk, hv⟩, hns⟩ := h
    rw [SkipList.insertChain, SkipList.insertChain, hk]
    split
    · simp only [MemTable.chainEntries, List.map_cons, hk, hv, ih hns]
    · simp only [MemTable.chainEntries, List.map_cons, hns]
    · simp only [MemTable.chainEntries, List.map_cons, hk, hv, hns]

/-- The height of a node does not show in the entries. -/
theorem MemTable.Same.add {m m' : MemTable} (h : m.Same m') (u v : Bytes) (a b : ℕ) :
    (m.add u v a).Same (m'.add u v b) := by
  refine ⟨?_, by rw [lastSeq_add, lastSeq_add, h.lastSeq]⟩
  rw [entries_add, entries_add, h.lastSeq]
  exact chainEntries_insertChain h.entries _ _ _ _

/-- The add that replaying a record makes. -/
def Record.entry (r : Record) : Bytes × Bytes :=
  (if 8 ≤ r.key.length then extractUserKey r.key else r.key, r.value)

/-- The memtable that replaying records gives. -/
def replayed (rs : List Record) : MemTable :=
  MemTable.new.addAll (rs.map fun r => (r.entry.1, r.entry.2, 1))

theorem replayed_append (rs : List Record) (r : Record) :
    replayed (rs ++ [r]) = (replayed rs).add r.entry.1 r.entry.2 1 := by
  simp [replayed, MemTable.addAll]

/-- **`Recover`'s callback replays the records into `mem_`**, whatever the heights. -/
theorem replayAll_same (db : DB) (hnew : db.mem = MemTable.new) (rs : List Record) (heights : ℕ → ℕ) :
    (db.replayAll rs heights).mem.Same (replayed rs) := by
  have hstep : ∀ (db : DB) (r : Record) (height : ℕ),
      (db.replay r height).mem = db.mem.add r.entry.1 r.entry.2 height := by
    intro db r height
    rw [DB.replay, Record.entry]
    split <;> rfl
  have hfold : ∀ (rs : List Record) (n : ℕ) (db : DB) (m : MemTable), db.mem.Same m →
      ((rs.zipIdx n).foldl (fun db r => db.replay r.1 (heights r.2)) db).mem.Same
        (rs.foldl (fun m r => m.add r.entry.1 r.entry.2 1) m) := by
    intro rs
    induction rs with
    | nil => exact fun _ _ _ h => h
    | cons r rs ih =>
      intro n db m h
      rw [List.zipIdx_cons, List.foldl_cons, List.foldl_cons]
      exact ih _ _ _ (by rw [hstep]; exact h.add _ _ _ _)
  rw [replayed, MemTable.addAll, List.foldl_map]
  exact hfold rs 0 db MemTable.new (by rw [hnew]; exact ⟨rfl, rfl⟩)

/-- The record of a write replays to its entry. -/
theorem entry_record (op : DB.WriteOp) (seq : SequenceNumber) :
    (op.record seq).entry = (op.key, op.value) := by
  cases op <;> simp [DB.WriteOp.record, Record.entry, DB.WriteOp.key, DB.WriteOp.value]

/-- The lengths of a write stay below the limit of a log record. -/
def DB.WriteOp.Short (op : DB.WriteOp) : Prop :=
  op.key.length + 8 < 2 ^ 28 ∧ op.value.length < 2 ^ 28

theorem DB.WriteOp.Short.record {op : DB.WriteOp} (h : op.Short) (seq : SequenceNumber) :
    (op.record seq).Short := by
  obtain ⟨hk, hv⟩ := h
  cases op with
  | put key value => exact ⟨by simpa [DB.WriteOp.record, DB.WriteOp.key] using hk, hv⟩
  | delete key => exact ⟨by simpa [DB.WriteOp.record, DB.WriteOp.key] using hk, by simp [DB.WriteOp.record]⟩

/-! ## The invariant -/

namespace World

/-- **The log of `wal_number_` replays to `mem_`**, and while `imm_` is null the MANIFEST
names it. -/
structure Logged (w : World) : Prop where
  wal : w.db.wal = some w.db.walNumber
  log : ∃ rs, w.disk.logs w.db.walNumber = some (logBytes rs) ∧ (∀ r ∈ rs, r.Short) ∧
    w.db.mem.Same (replayed rs)
  above : ∀ n, w.db.walNumber < n → w.disk.logs n = none
  recorded : w.db.imm = none → ∃ next, w.Recorded next w.db.walNumber
  waiting : ∀ op ∈ w.waiting, op.Short

/-- The logs that writes open do open, and the records they are given are short. -/
def LogsOpen (_ : World) : Label → Prop
  | .write op _ walOpens => op.Short ∧ walOpens = true
  | .wake _ _ walOpens => walOpens = true
  | _ => True

instance (op : DB.WriteOp) : Decidable op.Short := inferInstanceAs (Decidable (_ ∧ _))

instance (w : World) (l : Label) : Decidable (LogsOpen w l) := by
  rcases l with _ | _ <;> unfold LogsOpen <;> infer_instance

variable {w w' : World}

theorem fresh_logged (options : Options) : (fresh options).Logged := by
  refine ⟨rfl, ⟨[], rfl, by simp, ⟨rfl, rfl⟩⟩, fun n hn => ?_, fun _ => ⟨1, Or.inr ⟨rfl, rfl, rfl, rfl⟩⟩,
    by simp [fresh]⟩
  exact Function.update_of_ne (by simpa [fresh] using hn.ne') _ _

/-- Steps that leave the log, `mem_` and `imm_` alone. -/
theorem Logged.keep (h : w.Logged) (hwal : w'.db.wal = w.db.wal)
    (hnum : w'.db.walNumber = w.db.walNumber) (hmem : w'.db.mem = w.db.mem)
    (hlogs : w'.disk.logs = w.disk.logs) (hwait : ∀ op ∈ w'.waiting, op ∈ w.waiting ∨ op.Short)
    (hrec : w'.db.imm = none → ∃ next, w'.Recorded next w.db.walNumber) : w'.Logged := by
  refine ⟨by rw [hwal, hnum]; exact h.wal, by rw [hnum, hmem, hlogs]; exact h.log,
    by rw [hnum, hlogs]; exact h.above, by rw [hnum]; exact hrec, fun op hop => ?_⟩
  exact (hwait op hop).elim (h.waiting op) id

theorem Recorded.keep {next wal : ℕ} (h : w.Recorded next wal) (hl : w'.db.levels = w.db.levels)
    (hm : w'.disk.manifest = w.disk.manifest) : w'.Recorded next wal := by
  simp only [Recorded, DB.manifestLines, hl, hm] at h ⊢
  exact h

theorem wrote_logs {rs : List Record} {n : ℕ} (h : w.disk.logs n = some (logBytes rs))
    (op : DB.WriteOp) (height : ℕ) : (w.wrote op height n).disk.logs n =
      some (logBytes (rs ++ [op.record (w.db.lastSequence + 1)])) := by
  have hself : (w.wrote op height n).disk.logs n =
      some ((w.disk.logs n).getD [] ++ addRecord (op.record (w.db.lastSequence + 1))) :=
    Function.update_self _ _ _
  rw [hself, h, Option.getD_some, logBytes_append]

theorem rotated_logs (h : w.disk.logs (w.db.walNumber + 1) = none) :
    w.rotated.disk.logs (w.db.walNumber + 1) = some (logBytes []) := by
  have hself : w.rotated.disk.logs (w.db.walNumber + 1) =
      some ((w.disk.logs (w.db.walNumber + 1)).getD []) := Function.update_self _ _ _
  rw [hself, h]
  rfl

/-- A write appends its record to the log and its entry to `mem_`. -/
theorem Logged.wrote (h : w.Logged) {op : DB.WriteOp} (hop : op.Short) (height : ℕ) :
    (w.wrote op height w.db.walNumber).Logged := by
  obtain ⟨rs, hlog, hshort, hsame⟩ := h.log
  refine ⟨h.wal, ⟨rs ++ [op.record (w.db.lastSequence + 1)], wrote_logs hlog op height, fun r hr => ?_, ?_⟩,
    fun n hn => ?_, fun himm => ?_, h.waiting⟩
  · rcases List.mem_append.1 hr with hr | hr
    · exact hshort r hr
    · obtain rfl := List.mem_singleton.1 hr
      exact hop.record _
  · rw [replayed_append, entry_record]
    exact hsame.add _ _ _ _
  · exact (Function.update_of_ne (ne_of_gt hn) _ _).trans (h.above n hn)
  · obtain ⟨next, hrec⟩ := h.recorded himm
    exact ⟨next, hrec⟩

/-- A switch of memtables starts an empty log. -/
theorem Logged.rotated (h : w.Logged) : w.rotated.Logged := by
  refine ⟨rfl, ⟨[], rotated_logs (h.above _ (Nat.lt_succ_self _)), by simp, ⟨rfl, rfl⟩⟩, fun n hn => ?_,
    fun himm => ?_, h.waiting⟩
  · have hn' : w.db.walNumber + 1 < n := hn
    exact (Function.update_of_ne hn'.ne' _ _).trans (h.above n (by omega))
  · exact absurd himm (by simp [World.rotated])

/-- A section that writes the MANIFEST records the current numbers. -/
theorem recorded_of_written {disk : Disk}
    (h : w'.disk = { disk with manifest := some w'.db.manifestLines }) :
    w'.Recorded w'.db.nextFileNumber w'.db.walNumber := Or.inl (by rw [h])

theorem Logged.waitingErased (h : w.Logged) {ws : List DB.WriteOp} (hws : ∀ op ∈ ws, op ∈ w.waiting) :
    ({ w with waiting := ws } : World).Logged :=
  ⟨h.wal, h.log, h.above, h.recorded, fun op hop => h.waiting op (hws op hop)⟩

/-- **Opening the database again** replays the log that the MANIFEST names. -/
theorem Files.recover_log (h : w.Files) {next wal : ℕ} (hrec : w.Recorded next wal) {rs : List Record}
    (hlog : w.disk.logs wal = some (logBytes rs)) (hshort : ∀ r ∈ rs, r.Short) (options : Options)
    (heights : ℕ → ℕ) :
    ∃ db, DB.recover options w.disk heights = .ok (db, [.openLog wal]) ∧ db.mem.Same (replayed rs) ∧
      db.wal = some wal ∧ db.walNumber = wal ∧ db.levels = w.db.levels ∧ db.imm = none := by
  obtain ⟨mem, seq, ⟨_, rfl, hmem, -⟩, heq⟩ := recover_eq options heights (h.readManifest hrec)
  have hrecover : WALReader.recover (logBytes rs) = rs := WALReader.recover_addRecords hshort
  rw [hlog, Option.map_some, Option.getD_some, hrecover] at hmem
  exact ⟨_, heq, hmem ▸ replayAll_same _ rfl rs heights, rfl, rfl, rfl, rfl⟩

theorem Logged.reopened (h : w.Logged) (hfiles : w.Files) (himm : w.db.imm = none)
    (hwait : w.waiting = []) {options : Options} {heights : ℕ → ℕ} {db : DB} {ops : List FsOp}
    (hrec : DB.recover options w.disk heights = .ok (db, ops)) :
    ({ w with db := db, disk := w.disk.run ops } : World).Logged := by
  obtain ⟨next, hrecorded⟩ := h.recorded himm
  obtain ⟨rs, hlog, hshort, hsame⟩ := h.log
  obtain ⟨db', heq, hmem, hwal, hnum, hl, himm'⟩ := hfiles.recover_log hrecorded hlog hshort options heights
  obtain ⟨rfl, rfl⟩ : db' = db ∧ _ = ops := by
    rw [heq] at hrec
    exact Prod.ext_iff.1 (Except.ok.inj hrec)
  have hself : (w.disk.run [.openLog w.db.walNumber]).logs w.db.walNumber = some (logBytes rs) := by
    refine (Function.update_self _ _ _).trans ?_
    rw [hlog, Option.getD_some]
  refine ⟨hnum ▸ hwal, ⟨rs, by rw [hnum]; exact hself, hshort, hmem⟩, fun n hn => ?_, fun _ => ?_,
    by simp [hwait]⟩
  · have hn' : w.db.walNumber < n := hnum ▸ hn
    exact (Function.update_of_ne hn'.ne' _ _).trans (h.above n hn')
  · refine ⟨next, ?_⟩
    show World.Recorded _ next db'.walNumber
    rw [hnum]
    exact hrecorded.keep hl rfl

/-- **No step breaks the log.** -/
theorem Logged.step (h : w.Logged) (hfiles : w.Files) {l : Label} (hok : LogsOpen w l)
    (hstep : w.step l = some w') : w'.Logged := by
  cases step_event hstep with
  | @wrote op height n walOpens _ hwal =>
    obtain rfl : w.db.walNumber = n := by rw [h.wal] at hwal; exact Option.some.inj hwal
    exact h.wrote hok.1 height
  | @waits op height walOpens hroom himm =>
    refine h.keep rfl rfl rfl rfl (fun o ho => ?_) h.recorded
    rcases List.mem_append.1 ho with ho | ho
    · exact Or.inl ho
    · obtain rfl := List.mem_singleton.1 ho
      exact Or.inr hok.1
  | @rotated op height n ws l hl himm hwal =>
    have hws : (∀ o ∈ ws, o ∈ w.waiting) ∧ op.Short := by
      rcases hl with ⟨rfl, -, rfl⟩ | ⟨i, rfl, hop, rfl⟩
      · exact ⟨fun o ho => ho, hok.1⟩
      · exact ⟨fun o ho => List.mem_of_mem_eraseIdx ho, h.waiting op (List.mem_of_getElem? hop)⟩
    exact (h.waitingErased hws.1).rotated.wrote hws.2 height
  | @rotateFailed op height n ws l hl himm hwal =>
    rcases hl with ⟨rfl, -, -⟩ | ⟨i, rfl, -, -⟩
    · exact absurd hok.2 (by decide)
    · exact absurd hok (by simp [LogsOpen])
  | flushBegun => exact h.keep rfl rfl rfl rfl (fun _ ho => Or.inl ho) h.recorded
  | flushBuilt => exact h.keep rfl rfl rfl rfl (fun _ ho => Or.inl ho) h.recorded
  | @flushNotBuilt i job faults opens ops hjob hres hbad hops =>
    refine h.keep rfl rfl rfl ?_ (fun _ ho => Or.inl ho) fun himm => ?_
    · rcases hops with rfl | rfl <;> rfl
    · obtain ⟨next, hrec⟩ := h.recorded himm
      refine ⟨next, hrec.keep rfl ?_⟩
      rcases hops with rfl | rfl <;> rfl
  | @flushCommitted i job t m hjob hres himm =>
    -- the MANIFEST now names the log that the switch has opened
    refine h.keep rfl rfl rfl (by rw [flushCommitted_disk]) (fun _ ho => Or.inl ho) fun _ => ?_
    exact ⟨_, recorded_of_written (flushCommitted_disk w i t)⟩
  | flushFailed => exact h.keep rfl rfl rfl rfl (fun _ ho => Or.inl ho) h.recorded
  | @flushDropped i job m hjob hres hp himm =>
    refine h.keep rfl rfl rfl (by rw [flushDropped_disk]) (fun _ ho => Or.inl ho) fun _ => ?_
    exact ⟨_, recorded_of_written (flushDropped_disk w i)⟩
  | compactionBegun => exact h.keep rfl rfl rfl rfl (fun _ ho => Or.inl ho) h.recorded
  | outputWritten => exact h.keep rfl rfl rfl rfl (fun _ ho => Or.inl ho) h.recorded
  | outputFailed => exact h.keep rfl rfl rfl rfl (fun _ ho => Or.inl ho) h.recorded
  | @compactionCommitted i job hjob =>
    obtain ⟨gone0, gone1, -, -, -, -, -, -, hops⟩ :=
      compactCommit_spec w.db job.l0Snapshot job.l1Indices job.newLevel1
    have hdisk := compactionCommitted_disk w i job hops
    obtain ⟨hlogs, -, -⟩ := Disk.run_unlink w.disk (job.l0Snapshot ++ gone1)
    refine h.keep rfl rfl rfl (by rw [hdisk]; exact hlogs) (fun _ ho => Or.inl ho) fun _ => ?_
    exact ⟨_, recorded_of_written hdisk⟩
  | @compactionFailed i job hjob =>
    obtain ⟨hl, hm, -⟩ := Disk.run_unlink w.disk job.newLevel1
    refine h.keep rfl rfl rfl hl (fun _ ho => Or.inl ho) fun himm => ?_
    obtain ⟨next, hrec⟩ := h.recorded himm
    exact ⟨next, hrec.keep rfl hm⟩
  | reopened himm _ _ hwait hrec => exact h.reopened hfiles himm hwait hrec

theorem logged_of_reach {options : Options} (h : Reach World.step LogsOpen (fresh options) w) :
    w.Logged :=
  Reach.invariant_of (fun _ hr => files_of_reach hr) (fresh_logged options)
    (fun _ _ _ hf hl hok hs => hl.step hf hok hs) h

/-- **MANIFEST and log restore the database.** Whenever `imm_` is null, the MANIFEST holds
`levels_` and `wal_number_`, that log replays to the entries of `mem_`, and opening the
database again gives both back. -/
theorem manifest_and_log {options : Options} (h : Reach World.step LogsOpen (fresh options) w)
    (himm : w.db.imm = none) :
    (∃ next, w.Recorded next w.db.walNumber) ∧
      (∃ file, w.disk.logs w.db.walNumber = some file ∧ ∀ (db : DB) (heights : ℕ → ℕ),
        db.mem = MemTable.new →
          (db.replayAll (WALReader.recover file) heights).mem.entries = w.db.mem.entries) ∧
      ∀ (options' : Options) (heights : ℕ → ℕ), ∃ db ops,
        DB.recover options' w.disk heights = .ok (db, ops) ∧ db.mem.entries = w.db.mem.entries ∧
          db.levels = w.db.levels ∧ db.walNumber = w.db.walNumber ∧ db.imm = none := by
  have hl := logged_of_reach h
  obtain ⟨next, hrec⟩ := hl.recorded himm
  obtain ⟨rs, hlog, hshort, hsame⟩ := hl.log
  refine ⟨⟨next, hrec⟩, ⟨_, hlog, fun db heights hnew => ?_⟩, fun options' heights => ?_⟩
  · rw [WALReader.recover_addRecords hshort]
    exact (replayAll_same db hnew rs heights).entries.trans hsame.entries.symm
  · obtain ⟨db, heq, hmem, -, hnum, hlevels, hnone⟩ :=
      (files_of_reach h).recover_log hrec hlog hshort options' heights
    exact ⟨db, _, heq, hmem.entries.trans hsame.entries.symm, hlevels, hnum, hnone⟩

/-- A run with a rotation, a flush, a write and a second opening. -/
def reopenRun : List Label :=
  [.write (.put [107] [118]) 1 true, .flushBegin .background, .flushBuild 0 (fun _ => none) true,
    .flushEnd 0, .reopen {} fun _ => 1, .write (.delete [107]) 1 true]

theorem manifest_and_log_reopenRun : ∃ w,
    run World.step LogsOpen (fresh { writeBufferSize := 1 }) reopenRun = some w ∧
      (∃ next, w.Recorded next w.db.walNumber) ∧
      ∃ db ops, DB.recover {} w.disk (fun _ => 1) = .ok (db, ops) ∧
        db.mem.entries = w.db.mem.entries ∧ db.levels = w.db.levels := by
  have hrun : (run World.step LogsOpen (fresh { writeBufferSize := 1 }) reopenRun).map
      (fun w => w.db.imm.isNone) = some true := by decide +kernel
  obtain ⟨w, hw, hnone⟩ := Option.map_eq_some_iff.1 hrun
  obtain ⟨hrec, -, hopen⟩ := manifest_and_log (reach_of_run hw) (Option.isNone_iff_eq_none.1 hnone)
  obtain ⟨db, ops, heq, hmem, hlevels, -⟩ := hopen {} fun _ => 1
  exact ⟨w, hw, hrec, db, ops, heq, hmem, hlevels⟩

end World

end MiniLSM
