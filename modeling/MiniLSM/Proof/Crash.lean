import MiniLSM.Proof.Iterator
import MiniLSM.Proof.Ledger

/-!
# What a crash leaves

The process may die between any two sections, and between any two file operations of a
section.

* `kept_of_reach`: as long as no write switches memtables, the log that the MANIFEST names
  holds the records of `mem_` and `imm_`.
* `survivesCrash_iff_of_reach`: a commit survives a crash at every point if and only if the
  tables of `levels_` are empty and none of their files is unlinked.
-/

namespace MiniLSM

open Transition WALWriter

/-! ## The log that `Recover` would replay -/

/-- The log number that `ReadManifest` leaves in `wal_number_`. -/
def Disk.manifestWal (disk : Disk) : ℕ :=
  (disk.manifest.getD []).foldl
    (fun n line => match line with | .walNumber m => m | _ => n) 1

namespace World

variable {w w' : World}

theorem logBytes_ne_nil {rs : List Record} {r : Record} (hr : r ∈ rs) : logBytes rs ≠ [] := by
  intro h
  have := List.flatten_eq_nil_iff.1 h _ (List.mem_map_of_mem hr)
  simp [addRecord, recordBody] at this

theorem Recorded.manifestWal {next wal : ℕ} (h : w.Recorded next wal) : w.disk.manifestWal = wal := by
  rcases h with h | ⟨h, -, -, rfl⟩
  · simp [Disk.manifestWal, h, DB.manifestLines]
  · simp [Disk.manifestWal, h]

/-- No write switches memtables with success, the MANIFEST is written with a log in use only,
and the database is opened again on short records only. -/
def NoSwitch (w : World) : Label → Prop
  | .write _ _ walOpens => w.db.hasRoom = true ∨ walOpens = false
  | .wake _ _ walOpens => walOpens = false
  | .compactEnd i => ∀ job ∈ w.compactions[i]?, job.failed = false → w.db.wal.isSome = true
  | .reopen _ _ => ∀ p ∈ w.acked, p.1.length + 8 < 2 ^ 28 ∧ p.2.length < 2 ^ 28
  | _ => True

instance (w : World) (l : Label) : Decidable (NoSwitch w l) := by
  rcases l with _ | _ <;> unfold NoSwitch <;> infer_instance

end World

namespace Ledger

variable {s s' : Ledger} {w : World} {l : Label}

/-- Every record that only `mem_` or `imm_` holds is in the log that `Recover` would replay, as often
as they hold it and in the order of the calls. -/
def Kept (s : Ledger) : Prop :=
  ∃ rs, (s.world.disk.logs s.world.disk.manifestWal).getD [] = logBytes rs ∧ (s.imm ++ s.mem).Sublist rs

/-- The same condition on a database with its records. -/
def NoSwitch (s : Ledger) (l : Label) : Prop := World.NoSwitch s.world l

instance (s : Ledger) (l : Label) : Decidable (NoSwitch s l) :=
  inferInstanceAs (Decidable (World.NoSwitch s.world l))

/-- `imm_` is null and the log that the MANIFEST names, which is the one in use if any is,
holds the records of `mem_` and no others. -/
structure Named (s : Ledger) : Prop where
  imm : s.world.db.imm = none
  empty : s.imm = []
  log : ∃ next n, s.world.Recorded next n ∧ s.world.disk.logs n = some (logBytes s.mem) ∧
    ∀ m, s.world.db.wal = some m → m = n ∧ s.world.db.walNumber = n
  short : (∀ p ∈ s.world.acked, p.1.length + 8 < 2 ^ 28 ∧ p.2.length < 2 ^ 28) → ∀ r ∈ s.mem, r.Short

theorem Named.kept (h : s.Named) : s.Kept := by
  obtain ⟨next, n, hrec, hlog, -⟩ := h.log
  exact ⟨s.mem, by rw [hrec.manifestWal, hlog, Option.getD_some], by rw [h.empty, List.nil_append]⟩

/-- With `imm_` null, a database whose logs all opened names its log. -/
theorem Exact.named (h : s.Exact) (hheld : s.Held) (hlogged : s.world.Logged) (himm : s.world.db.imm = none) :
    s.Named := by
  obtain ⟨next, hrec⟩ := hlogged.recorded himm
  refine ⟨himm, hheld.empty himm, ⟨next, _, hrec, h.log, fun m hm => ?_⟩, fun _ => h.short⟩
  rw [hlogged.wal] at hm
  exact ⟨(Option.some.inj hm).symm, rfl⟩

/-- Steps that leave `mem_`, `imm_`, the log in use and the MANIFEST's log number alone. -/
theorem Named.keep (h : s.Named) (hl : ∀ options heights, l ≠ .reopen options heights)
    (himm : w.db.imm = s.world.db.imm) (hacked : w.acked = s.world.acked)
    (hlogs : w.disk.logs = s.world.disk.logs)
    (hwal : w.db.wal = s.world.db.wal ∧ w.db.walNumber = s.world.db.walNumber ∨ w.db.wal = none)
    (hrec : ∀ next n, s.world.Recorded next n → (∀ m, s.world.db.wal = some m → s.world.db.walNumber = n) →
      ∃ next', w.Recorded next' n) :
    Named { world := w, mem := s.memIn l w, imm := s.immIn w } := by
  obtain ⟨next, n, hr, hlog, hn⟩ := h.log
  obtain ⟨next', hr'⟩ := hrec next n hr fun m hm => (hn m hm).2
  rw [memIn_same hl hacked fun hnone => himm.trans hnone, immIn_same himm fun _ => h.empty]
  refine ⟨himm.trans h.imm, h.empty, ⟨next', n, hr', by rw [hlogs]; exact hlog, fun m hm => ?_⟩,
    by rw [hacked]; exact h.short⟩
  rcases hwal with ⟨hwal, hnum⟩ | hwal
  · rw [hnum]
    exact hn m (hwal ▸ hm)
  · cases hwal.symm.trans hm

theorem Named.wrote (h : s.Named) (op : DB.WriteOp) (height : ℕ) (walOpens : Bool) {n : ℕ}
    (hwal : s.world.db.wal = some n) :
    Named
      { world := s.world.wrote op height n
        mem := s.memIn (.write op height walOpens) (s.world.wrote op height n)
        imm := s.immIn (s.world.wrote op height n) } := by
  obtain ⟨next, n', hrec, hlog, hn⟩ := h.log
  obtain ⟨rfl, hnum⟩ := hn n hwal
  have himm : s.immIn (s.world.wrote op height n) = s.imm := immIn_same rfl fun _ => h.empty
  rw [memIn_wrote, himm]
  refine ⟨h.imm, h.empty, ⟨next, n, hrec, World.wrote_logs hlog op height, fun m hm => hn m hm⟩,
    fun hall r hr => ?_⟩
  rcases List.mem_append.1 hr with hr | hr
  · exact h.short (fun p hp => hall p (List.mem_cons_of_mem _ hp)) r hr
  · obtain rfl := List.mem_singleton.1 hr
    exact DB.WriteOp.Short.record (hall (op.key, op.value) List.mem_cons_self) _

theorem Named.reopened (h : s.Named) (hfiles : s.world.Files)
    (hall : ∀ p ∈ s.world.acked, p.1.length + 8 < 2 ^ 28 ∧ p.2.length < 2 ^ 28) {options : Options}
    {heights : ℕ → ℕ} {db : DB} {ops : List FsOp}
    (hrec : DB.recover options s.world.disk heights = .ok (db, ops)) :
    Named
      { world := { s.world with db := db, disk := s.world.disk.run ops }
        mem := s.memIn (.reopen options heights) { s.world with db := db, disk := s.world.disk.run ops }
        imm := s.immIn { s.world with db := db, disk := s.world.disk.run ops } } := by
  obtain ⟨next, n, hrecorded, hlog, -⟩ := h.log
  obtain ⟨hmem, rfl, hlogs, hwal, hnum, hlevels, himm⟩ :=
    memIn_reopened hfiles hrecorded hlog (h.short hall) hrec
  rw [hmem]
  refine ⟨himm, ?_, ⟨next, n, hrecorded.keep hlevels rfl, hlogs, fun m hm => ?_⟩, h.short⟩
  · rw [immIn, show ({ s.world with db := db, disk := s.world.disk.run [.openLog n] } : World).db.imm = none
      from himm]
    rfl
  · exact ⟨(Option.some.inj (hwal.symm.trans hm)).symm, hnum⟩

/-- **Without a switch of memtables the records of `mem_` stay in the log that is named.** -/
theorem Named.step (h : s.Named) (hfiles : s.world.Files) (hok : NoSwitch s l) (hstep : s.step l = some s') :
    s'.Named := by
  obtain ⟨w, hw, rfl⟩ := Option.map_eq_some_iff.1 hstep
  cases World.step_event hw with
  | @wrote op height n walOpens _ hwal => exact h.wrote op height walOpens hwal
  | waits _ himm => exact absurd h.imm himm
  | @rotated op height n ws l hl himm hwal =>
    -- no switch: a writer finds room or its log does not open, and none waits
    exfalso
    rcases hl with ⟨rfl, hroom, -⟩ | ⟨i, rfl, -, -⟩
    · rcases hok with hr | ho
      · rw [hroom] at hr; exact absurd hr (by decide)
      · exact absurd ho (by decide)
    · exact absurd hok (by simp [NoSwitch, World.NoSwitch])
  | @rotateFailed op height n ws l hl =>
    exact h.keep (by rcases hl with ⟨rfl, -⟩ | ⟨i, rfl, -⟩ <;> rintro _ _ ⟨⟩) rfl rfl rfl (Or.inr rfl)
      fun next n hrec _ => ⟨next, hrec⟩
  | flushBegun himm => exact absurd (h.imm.symm.trans himm) (by simp)
  | flushBuilt | flushFailed | compactionBegun | outputWritten | outputFailed =>
    exact h.keep (by rintro _ _ ⟨⟩) rfl rfl rfl (Or.inl ⟨rfl, rfl⟩) fun next n hrec _ => ⟨next, hrec⟩
  | @flushNotBuilt i job faults opens ops hjob hres hbad hops =>
    refine h.keep (by rintro _ _ ⟨⟩) rfl rfl ?_ (Or.inl ⟨rfl, rfl⟩) fun next n hrec _ => ⟨next, hrec.keep rfl ?_⟩
    · rcases hops with rfl | rfl <;> rfl
    · rcases hops with rfl | rfl <;> rfl
  | flushCommitted _ _ himm => exact absurd (h.imm.symm.trans himm) (by simp)
  | flushDropped _ _ _ himm => exact absurd (h.imm.symm.trans himm) (by simp)
  | @compactionCommitted i job hjob hfailed =>
    obtain ⟨gone0, gone1, -, -, -, -, -, -, hops⟩ :=
      World.compactCommit_spec s.world.db job.l0Snapshot job.l1Indices job.newLevel1
    have hdisk := World.compactionCommitted_disk s.world i job hops
    obtain ⟨hlogs, -, -⟩ := Disk.run_unlink s.world.disk (job.l0Snapshot ++ gone1)
    obtain ⟨m, hm⟩ := Option.isSome_iff_exists.1 (hok job hjob hfailed)
    refine h.keep (by rintro _ _ ⟨⟩) rfl rfl (by rw [hdisk]; exact hlogs) (Or.inl ⟨rfl, rfl⟩)
      fun next n _ hn => ?_
    have hrec := World.recorded_of_written hdisk
    rw [show (s.world.compactionCommitted i job).db.walNumber = n from hn m hm] at hrec
    exact ⟨_, hrec⟩
  | @compactionFailed i job hjob =>
    obtain ⟨hlogs, hman, -⟩ := Disk.run_unlink s.world.disk job.newLevel1
    exact h.keep (by rintro _ _ ⟨⟩) rfl rfl hlogs (Or.inl ⟨rfl, rfl⟩)
      fun next n hrec _ => ⟨next, hrec.keep rfl hman⟩
  | reopened _ _ _ _ hrec => exact h.reopened hfiles hok hrec

/-- **Where no write has switched memtables since `imm_` was null, the log that the MANIFEST
names holds the records of `mem_` and `imm_`.** -/
theorem kept_of_reach {options : Options} {s₁ : Ledger} (h₁ : Reach step LogsOpen (fresh options) s₁)
    (himm : s₁.world.db.imm = none) (h : Reach step NoSwitch s₁ s) : s.Kept := by
  have hworld := reach_world h₁
  have hinv : s.world.Files ∧ s.Named :=
    Reach.invariant (I := fun s => s.world.Files ∧ s.Named)
      ⟨World.files_of_reach hworld,
        (logExact_of_reach h₁).named (held_of_reach h₁) (World.logged_of_reach hworld) himm⟩
      (fun s l s' hi hok hs => by
        obtain ⟨w, hw, rfl⟩ := Option.map_eq_some_iff.1 hs
        exact ⟨hi.1.step hw, hi.2.step hi.1 hok hs⟩) h
  exact hinv.2.kept

/-- A put, a second opening, a delete, another put and a third opening. -/
theorem kept_of_reach_reopenRun : ∃ s₁ s,
    run step LogsOpen (fresh { writeBufferSize := 1 }) World.reopenRun = some s₁ ∧
      run step NoSwitch s₁ [.write (.put [97] [98]) 1 true, .reopen {} fun _ => 1] = some s ∧
      s.mem = [(DB.WriteOp.put [107] [118]).record 1, (DB.WriteOp.delete [107]).record 2,
        (DB.WriteOp.put [97] [98]).record 3] ∧ s.Kept := by
  have hrun : (run step LogsOpen (fresh { writeBufferSize := 1 }) World.reopenRun).bind
      (fun s₁ => (run step NoSwitch s₁ [.write (.put [97] [98]) 1 true, .reopen {} fun _ => 1]).map fun s =>
        decide (s₁.world.db.imm.isNone = true ∧
          s.mem = [(DB.WriteOp.put [107] [118]).record 1, (DB.WriteOp.delete [107]).record 2,
            (DB.WriteOp.put [97] [98]).record 3])) = some true := by
    decide +kernel
  obtain ⟨s₁, hs₁, heq⟩ := Option.bind_eq_some_iff.1 hrun
  obtain ⟨s, hs, heq⟩ := Option.map_eq_some_iff.1 heq
  obtain ⟨hnone, hmem⟩ := of_decide_eq_true heq
  exact ⟨s₁, s, hs₁, hs, hmem, kept_of_reach (reach_of_run hs₁) (Option.isNone_iff_eq_none.1 hnone)
    (reach_of_run hs)⟩

/-- **A switch of memtables leaves the MANIFEST behind**: with the first write into a new
memtable, the log that `Recover` would replay is still the old one, and here it is empty. -/
theorem not_kept_of_switch : ∃ s, Reach step LogsOpen (fresh { writeBufferSize := 1 }) s ∧
    s.world.acked = [([107], [118])] ∧ s.mem = [(DB.WriteOp.put [107] [118]).record 1] ∧
    s.world.disk.logs s.world.disk.manifestWal = some [] ∧ ¬ s.Kept := by
  have hrun : (run step LogsOpen (fresh { writeBufferSize := 1 })
      [.write (.put [107] [118]) 1 true]).map (fun s => (s.world.acked, s.mem,
        s.world.disk.logs s.world.disk.manifestWal)) =
      some ([([107], [118])], [(DB.WriteOp.put [107] [118]).record 1], some []) := by decide +kernel
  obtain ⟨s, hs, heq⟩ := Option.map_eq_some_iff.1 hrun
  simp only [Prod.mk.injEq] at heq
  obtain ⟨hacked, hmem, hlog⟩ := heq
  refine ⟨s, reach_of_run hs, hacked, hmem, hlog, ?_⟩
  rintro ⟨rs, hrs, hsub⟩
  rw [hlog, Option.getD_some] at hrs
  have hmem' := hsub.subset (List.mem_append_right _ (hmem ▸ List.mem_singleton_self _))
  exact World.logBytes_ne_nil hmem' hrs.symm

end Ledger

/-! ## A crash in the middle of a commit -/

/-- The numbers of the tables that the MANIFEST lists. -/
def Disk.named (disk : Disk) : List ℕ :=
  (disk.manifest.getD []).filterMap fun line => match line with | .table _ n _ _ => some n | _ => none

/-- An entry of a table that `ReadManifest` opens. -/
def Disk.Has (disk : Disk) (e : Bytes × Bytes) : Prop :=
  ∃ m, disk.readManifest = .ok m ∧ ∃ t ∈ m.levels.tables, e ∈ t.contents

/-- The files named by the MANIFEST exist, and they hold the entries of the levels before a
commit or those after it. -/
def Disk.Recoverable (disk : Disk) (before after : Levels) : Prop :=
  (∀ n ∈ disk.named, disk.ssts n ≠ none) ∧
    ((∀ t ∈ before.tables, ∀ e ∈ t.contents, disk.Has e) ∨
      ∀ t ∈ after.tables, ∀ e ∈ t.contents, disk.Has e)

/-- A crash between any two file operations of a commit leaves a recoverable disk. -/
def Disk.SurvivesCrash (disk : Disk) (ops : List FsOp) (before after : Levels) : Prop :=
  ∀ j ≤ ops.length, (disk.run (ops.take j)).Recoverable before after

/-- No table of some levels has an entry. -/
def Levels.Bare (levels : Levels) : Prop := ∀ t ∈ levels.tables, t.contents = []

instance (levels : Levels) : Decidable levels.Bare :=
  inferInstanceAs (Decidable (∀ t ∈ levels.tables, t.contents = []))

/-- The MANIFEST names tables of the levels it was printed from, all of them at the end. -/
theorem number_of_mem_named {disk : Disk} {db : DB} {m n : ℕ}
    (h : disk.manifest = some (db.manifestLines.take m)) (hn : n ∈ disk.named) :
    ∃ t ∈ db.levels.tables, t.number = n := by
  obtain ⟨line, hline, hn⟩ := List.mem_filterMap.1 hn
  rw [h, Option.getD_some] at hline
  rcases List.mem_append.1 (List.mem_of_mem_take hline) with hl | hl
  · obtain ⟨l, hlevel, hl⟩ := List.mem_flatMap.1 hl
    obtain ⟨t, ht, rfl⟩ := List.mem_map.1 hl
    exact ⟨t, List.mem_flatten.2 ⟨l.1, List.fst_mem_of_mem_zipIdx hlevel, ht⟩, Option.some.inj hn⟩
  · simp only [List.mem_cons, List.not_mem_nil, or_false] at hl
    rcases hl with rfl | rfl <;> cases hn

theorem mem_named {disk : Disk} {db : DB} (h : disk.manifest = some db.manifestLines) {t : SSTable}
    (ht : t ∈ db.levels.tables) : t.number ∈ disk.named := by
  obtain ⟨l, hl, ht⟩ := List.mem_flatten.1 ht
  obtain ⟨i, hi, rfl⟩ := List.mem_iff_getElem.1 hl
  refine List.mem_filterMap.2 ⟨.table i t.number t.firstKey t.lastKey, ?_, rfl⟩
  rw [h, Option.getD_some]
  refine List.mem_append_left _ (List.mem_flatMap.2 ⟨(db.levels.toList[i], i), ?_, ?_⟩)
  · exact List.mk_mem_zipIdx_iff_getElem?.2 (List.getElem?_eq_getElem hi)
  · exact List.mem_map.2 ⟨t, ht, rfl⟩

/-- Printing some lines behind the truncation, and perhaps closing the file. -/
theorem run_take_print (disk : Disk) (lines : List ManifestLine) (m : ℕ) :
    disk.run (.truncManifest :: (lines.map FsOp.printManifest ++ [FsOp.closeManifest]).take m) =
      { disk with manifest := some (lines.take m) } := by
  have hprint : ∀ m, disk.run (.truncManifest :: (lines.take m).map FsOp.printManifest) =
      { disk with manifest := some (lines.take m) } := by
    intro m
    rw [← List.singleton_append, Disk.run_append, Disk.run_print _ _ [] rfl]
    rfl
  by_cases hm : m ≤ lines.length
  · rw [List.take_append_of_le_length (by simpa using hm), ← List.map_take]
    exact hprint m
  · have hall : (lines.map FsOp.printManifest ++ [FsOp.closeManifest]).length ≤ m := by
      rw [List.length_append, List.length_map, List.length_singleton]
      omega
    rw [List.take_of_length_le hall, ← List.cons_append, Disk.run_append,
      List.take_of_length_le (by omega : lines.length ≤ m)]
    have hfull := hprint lines.length
    rw [List.take_length] at hfull
    rw [hfull]
    rfl

/-- The disk after some of the unlinks of a commit. -/
theorem run_take_unlink (disk : Disk) {gone : List SSTable} (db : DB) {j : ℕ} (hj : j ≤ gone.length) :
    disk.run (((gone.map fun t => FsOp.unlinkSst t.number) ++ db.writeManifest).take j) =
      disk.run ((gone.take j).map fun t => FsOp.unlinkSst t.number) := by
  rw [List.take_append_of_le_length (by simpa using hj), List.map_take]

/-- The disk after the unlinks of a commit, the truncation and `m` more operations. -/
theorem run_take_manifest (disk : Disk) (gone : List SSTable) (db : DB) (m : ℕ) :
    disk.run (((gone.map fun t => FsOp.unlinkSst t.number) ++ db.writeManifest).take
        (gone.length + (m + 1))) =
      { disk.run (gone.map fun t => FsOp.unlinkSst t.number) with
        manifest := some (db.manifestLines.take m) } := by
  have hlen : gone.length = (gone.map fun t => FsOp.unlinkSst t.number).length := by simp
  rw [hlen, List.take_length_add_append, Disk.run_append, DB.writeManifest, List.cons_append,
    List.take_succ_cons, run_take_print]

theorem not_has_of_truncated {disk : Disk} (h : disk.manifest = some []) (e : Bytes × Bytes) :
    ¬ disk.Has e := by
  rintro ⟨m, hm, t, ht, -⟩
  rw [Disk.readManifest, h] at hm
  obtain rfl : ({} : Manifest) = m := Except.ok.inj hm
  simp [Levels.tables, Levels.toList] at ht

/-- Levels without entries ask nothing of a disk. -/
theorem Levels.Bare.has {levels : Levels} (h : levels.Bare) (disk : Disk) :
    ∀ t ∈ levels.tables, ∀ e ∈ t.contents, disk.Has e := fun t ht e he => by
  rw [h t ht] at he
  exact absurd he List.not_mem_nil

theorem Levels.bare_of_truncated {levels : Levels} {disk : Disk} (h : disk.manifest = some [])
    (hhas : ∀ t ∈ levels.tables, ∀ e ∈ t.contents, disk.Has e) : levels.Bare := fun t ht =>
  List.eq_nil_iff_forall_not_mem.2 fun e he => not_has_of_truncated h e (hhas t ht e he)

namespace World

variable {w w' : World}

theorem Recorded.mem_named_iff {next wal : ℕ} (h : w.Recorded next wal) {n : ℕ} :
    n ∈ w.disk.named ↔ ∃ t ∈ w.db.levels.tables, t.number = n := by
  rcases h with h | ⟨h, hl, -, -⟩
  · obtain ⟨db, hdb, hl⟩ : ∃ db : DB, w.disk.manifest = some db.manifestLines ∧
        db.levels = w.db.levels := ⟨_, h, rfl⟩
    rw [← hl]
    constructor
    · exact fun hn => number_of_mem_named (hdb.trans (by rw [List.take_length])) hn
    · rintro ⟨t, ht, rfl⟩
      exact mem_named hdb ht
  · simp [Disk.named, h, hl, Levels.tables, Levels.toList]

theorem Files.ssts_eq (h : w.Files) {t : SSTable} (ht : t ∈ w.db.levels.tables) :
    w.disk.ssts t.number = some t.data :=
  (h.registered.onDisk t.number t (List.mem_append_left _
    (List.mem_map_of_mem (f := fun t => (t.number, some t)) ht))).2.1

/-- **When a commit survives a crash at every point**: the files it unlinks are not among the
tables of `levels_`, and these tables have no entry, or those after the commit have none. -/
theorem Files.survivesCrash_iff (h : w.Files) (gone : List SSTable) (db : DB)
    (hafter : ∀ t ∈ db.levels.tables,
      (w.disk.run (gone.map fun t => FsOp.unlinkSst t.number)).ssts t.number ≠ none) :
    w.disk.SurvivesCrash ((gone.map fun t => FsOp.unlinkSst t.number) ++ db.writeManifest)
        w.db.levels db.levels ↔
      (∀ t ∈ w.db.levels.tables, t.number ∉ gone.map (·.number)) ∧
        (w.db.levels.Bare ∨ db.levels.Bare) := by
  obtain ⟨next, wal, hrec, -, -⟩ := h.recorded
  constructor
  · intro hs
    constructor
    · -- all files unlinked, the MANIFEST still the old one
      intro t ht hgone
      have hj := (hs gone.length (by simp)).1
      obtain ⟨-, hm, hssts⟩ := Disk.run_unlink w.disk gone
      rw [List.take_append_of_le_length (by simp), List.take_of_length_le (by simp)] at hj
      refine hj t.number ?_ ((hssts _).trans (if_pos hgone))
      rw [Disk.named, hm]
      exact hrec.mem_named_iff.2 ⟨t, ht, rfl⟩
    · -- the MANIFEST truncated
      have hj := (hs (gone.length + (0 + 1)) (by simp [DB.writeManifest])).2
      rw [run_take_manifest] at hj
      exact hj.imp (Levels.bare_of_truncated rfl) (Levels.bare_of_truncated rfl)
  · rintro ⟨hgone, hbare⟩ j -
    refine ⟨fun n hn => ?_, hbare.imp (fun hb => hb.has _) fun hb => hb.has _⟩
    rcases Nat.lt_or_ge gone.length j with hj | hj
    · -- the new MANIFEST, as far as it is printed
      obtain ⟨m, rfl⟩ : ∃ m, j = gone.length + (m + 1) := ⟨j - gone.length - 1, by omega⟩
      rw [run_take_manifest] at hn ⊢
      obtain ⟨t, ht, rfl⟩ := number_of_mem_named rfl hn
      exact hafter t ht
    · rw [run_take_unlink _ _ hj] at hn ⊢
      obtain ⟨-, hm, hssts⟩ := Disk.run_unlink w.disk (gone.take j)
      rw [Disk.named, hm] at hn
      obtain ⟨t, ht, rfl⟩ := hrec.mem_named_iff.1 hn
      have hkept : t.number ∉ (gone.take j).map (·.number) := fun hmem =>
        hgone t ht (List.map_subset _ (List.take_subset j gone) hmem)
      rw [hssts, if_neg hkept, h.ssts_eq ht]
      exact Option.some_ne_none _

theorem tables_subset_of_flushCommit {db db' : DB} {t : SSTable} {ops : List FsOp}
    (h : db.flushCommit t = some (db', ops)) : db.levels.tables ⊆ db'.levels.tables := by
  obtain ⟨m, himm, heq⟩ := Option.bind_eq_some_iff.1 h
  obtain ⟨rfl, rfl⟩ := Prod.ext_iff.1 (Option.some.inj heq)
  intro s hs
  simp only [Levels.tables, Levels.toList, List.flatten_cons, List.mem_append] at hs ⊢
  exact hs.imp_left Or.inl

theorem Levels.Bare.of_subset {levels levels' : Levels} (h : levels'.Bare)
    (hsub : levels.tables ⊆ levels'.tables) : levels.Bare := fun t ht => h t (hsub ht)

/-- **A flush commit survives a crash at every point** if and only if the tables of `levels_`
have no entry yet. -/
theorem Files.flushCommit_survivesCrash (h : w.Files) {i : ℕ} {job : FlushJob} {t : SSTable}
    (hi : w.flushes[i]? = some job) (hres : job.result = .opened t) {db : DB} {ops : List FsOp}
    (hcommit : w.db.flushCommit t = some (db, ops)) :
    w.disk.SurvivesCrash ops w.db.levels db.levels ↔ w.db.levels.Bare := by
  have hsub := tables_subset_of_flushCommit hcommit
  obtain ⟨m, himm, heq⟩ := Option.bind_eq_some_iff.1 hcommit
  obtain ⟨rfl, rfl⟩ := Prod.ext_iff.1 (Option.some.inj heq)
  have hfiles := h.flushCommitted hi hres
  have hdisk := flushCommitted_disk w i t
  have hiff := h.survivesCrash_iff [] (w.flushCommitted i t).db fun s hs hnone => by
    have hfile := hfiles.ssts_eq hs
    rw [hdisk] at hfile
    exact Option.some_ne_none _ (hfile.symm.trans hnone)
  refine hiff.trans ⟨fun hb => ?_, fun hb => ⟨by simp, Or.inl hb⟩⟩
  exact hb.2.elim id fun hb => Levels.Bare.of_subset hb hsub

/-- **A compaction commit survives a crash at every point** if and only if it finds none of its
inputs in `levels_` and the tables of `levels_` have no entry. -/
theorem Files.compactCommit_survivesCrash (h : w.Files) {i : ℕ} {job : CompactionJob}
    (hi : w.compactions[i]? = some job) :
    w.disk.SurvivesCrash (w.db.compactCommit job.l0Snapshot job.l1Indices job.newLevel1).2 w.db.levels
        (w.db.compactCommit job.l0Snapshot job.l1Indices job.newLevel1).1.levels ↔
      (∀ t ∈ job.l0Snapshot, t ∉ w.db.levels.l0) ∧
        (∀ i ∈ job.l1Indices, w.db.levels.l1.length ≤ i) ∧ w.db.levels.Bare := by
  obtain ⟨gone0, gone1, hperm0, hperm1, -, hsub, hsub1, hnil, hops⟩ :=
    compactCommit_spec w.db job.l0Snapshot job.l1Indices job.newLevel1
  have hfiles := h.compactionCommitted hi
  have hdisk := compactionCommitted_disk w i job hops
  have hiff := h.survivesCrash_iff (job.l0Snapshot ++ gone1) (w.compactionCommitted i job).db
    fun s hs hnone => by
      have hfile := hfiles.ssts_eq hs
      rw [hdisk] at hfile
      exact Option.some_ne_none _ (hfile.symm.trans hnone)
  rw [hops]
  refine hiff.trans ⟨?_, ?_⟩
  · rintro ⟨hgone, hbare⟩
    have hnot : ∀ t ∈ job.l0Snapshot ++ gone1, t ∉ w.db.levels.tables := fun t ht htables =>
      hgone t htables (List.mem_map_of_mem ht)
    have hs : ∀ t ∈ job.l0Snapshot, t ∉ w.db.levels.l0 := fun t ht ht0 =>
      hnot t (List.mem_append_left _ ht) (l0_subset_tables ht0)
    have h1 : gone1 = [] := List.eq_nil_iff_forall_not_mem.2 fun t ht =>
      hnot t (List.mem_append_right _ ht) (l1_subset_tables (hsub1 t ht))
    have h0 : gone0 = [] := List.eq_nil_iff_forall_not_mem.2 fun t ht =>
      hs t (hsub t ht) (hperm0.mem_iff.2 (List.mem_append_left _ ht))
    refine ⟨hs, hnil.1 h1, hbare.elim id fun hb => Levels.Bare.of_subset hb ?_⟩
    rw [h0, List.nil_append] at hperm0
    rw [h1, List.nil_append] at hperm1
    rw [tables_eq h.deeper, tables_eq hfiles.deeper]
    exact List.append_subset.2 ⟨fun t ht => List.mem_append_left _ (hperm0.subset ht),
      fun t ht => List.mem_append_right _ (hperm1.subset (List.mem_append_left _ ht))⟩
  · rintro ⟨hs, hrange, hbare⟩
    refine ⟨fun t ht hmem => ?_, Or.inl hbare⟩
    rw [hnil.2 hrange, List.append_nil] at hmem
    obtain ⟨s, hsnap, hnum⟩ := List.mem_map.1 hmem
    rcases h.snapshot job (List.mem_of_getElem? hi) s hsnap with hs0 | ⟨-, hnone⟩
    · exact hs s hsnap hs0
    · exact hnone (t.number, some t) (List.mem_append_left _
        (List.mem_map_of_mem (f := fun t => (t.number, some t)) ht)) hnum.symm

/-- **When a commit survives a crash at every point**, in any reachable state: a flush commit
as long as `levels_` has no entry, a compaction commit if besides none of its inputs is left in
`levels_`. -/
theorem survivesCrash_iff_of_reach {ok : World → Label → Prop} {options : Options}
    (h : Reach World.step ok (fresh options) w) :
    (∀ (i : ℕ) (job : FlushJob) (t : SSTable) (db : DB) (ops : List FsOp), w.flushes[i]? = some job → job.result = .opened t →
      w.db.flushCommit t = some (db, ops) →
        (w.disk.SurvivesCrash ops w.db.levels db.levels ↔ w.db.levels.Bare)) ∧
    ∀ (i : ℕ) (job : CompactionJob) (db : DB) (ops : List FsOp), w.compactions[i]? = some job →
      job.failed = false → job.busy = false → w.db.compactCommit job.l0Snapshot job.l1Indices job.newLevel1 = (db, ops) →
        (w.disk.SurvivesCrash ops w.db.levels db.levels ↔
          (∀ t ∈ job.l0Snapshot, t ∉ w.db.levels.l0) ∧
            (∀ i ∈ job.l1Indices, w.db.levels.l1.length ≤ i) ∧ w.db.levels.Bare) := by
  have hfiles := files_of_reach h
  refine ⟨fun i job t db ops hi hres hcommit => hfiles.flushCommit_survivesCrash hi hres hcommit,
    fun i job db ops hi _ _ hcommit => ?_⟩
  have hiff := hfiles.compactCommit_survivesCrash hi
  rwa [hcommit] at hiff

/-- A run up to a flush and a compaction that are both about to commit. -/
def commitRun : List Label :=
  [.write (.put [107] [118]) 1 true, .flushBegin .background, .flushBuild 0 (fun _ => none) true,
    .flushEnd 0, .compactBegin, .write (.put [97] [98]) 1 true, .flushBegin .background,
    .flushBuild 0 (fun _ => none) true]

theorem survivesCrash_iff_of_reach_commitRun : ∃ w,
    Reach World.step LogsOpen (fresh { writeBufferSize := 1, l0CompactionTrigger := 1 }) w ∧
      (∃ job t db ops, w.flushes[0]? = some job ∧ job.table = some t ∧
        w.db.flushCommit t = some (db, ops) ∧ w.disk.SurvivesCrash ops w.db.levels db.levels) ∧
      ∃ job db ops, w.compactions[0]? = some job ∧
        w.db.compactCommit job.l0Snapshot job.l1Indices job.newLevel1 = (db, ops) ∧
        ¬ w.disk.SurvivesCrash ops w.db.levels db.levels := by
  have hrun : ∃ w ∈ run World.step LogsOpen
      (fresh { writeBufferSize := 1, l0CompactionTrigger := 1 }) commitRun,
      (∃ job ∈ w.flushes[0]?, ∃ t ∈ job.table, (w.db.flushCommit t).isSome) ∧
        (∀ t ∈ w.db.levels.tables, t.contents = []) ∧
        ∃ job ∈ w.compactions[0]?, job.failed = false ∧ job.busy = false ∧
          ∃ t ∈ job.l0Snapshot, t ∈ w.db.levels.l0 := by decide +kernel
  obtain ⟨w, hw, ⟨job, hjob, t, ht, hsome⟩, hbare, c, hc, hfailed, hbusy, s, hs, hs0⟩ := hrun
  have hreach := reach_of_run hw
  obtain ⟨⟨db, ops⟩, hcommit⟩ := Option.isSome_iff_exists.1 hsome
  have hiff := survivesCrash_iff_of_reach hreach
  refine ⟨w, hreach, ⟨job, t, db, ops, hjob, ht, hcommit, ?_⟩, c, _, _, hc, rfl, fun hcrash => ?_⟩
  · exact (hiff.1 0 job t db ops hjob (FlushJob.result_of_table ht) hcommit).2 hbare
  · exact ((hiff.2 0 c _ _ hc hfailed hbusy rfl).1 hcrash).1 s hs hs0

/-- A run up to the commit of a flush, with an entry in `levels_`. -/
def secondFlushRun : List Label :=
  [.write (.put [107] [118]) 1 true, .flushBegin .background, .flushBuild 0 (fun _ => none) true,
    .flushEnd 0, .write (.put [97] [98]) 1 true, .flushBegin .background,
    .flushBuild 0 (fun _ => none) true, .flushEnd 0, .write (.put [99] [100]) 1 true,
    .flushBegin .background, .flushBuild 0 (fun _ => none) true]

/-- **A crash behind the truncation of the MANIFEST loses the tables**: `ReadManifest` then
finds no table at all. -/
theorem not_survivesCrash_secondFlush : ∃ w job t db ops,
    Reach World.step LogsOpen (fresh { writeBufferSize := 1 }) w ∧ w.flushes[0]? = some job ∧
      job.table = some t ∧ w.db.flushCommit t = some (db, ops) ∧
      (w.disk.run (ops.take 1)).readManifest.toOption.map (·.levels.tables) = some [] ∧
      ¬ w.disk.SurvivesCrash ops w.db.levels db.levels := by
  have hrun : ∃ w ∈ run World.step LogsOpen (fresh { writeBufferSize := 1 }) secondFlushRun,
      (∃ job ∈ w.flushes[0]?, ∃ t ∈ job.table, ∃ r ∈ w.db.flushCommit t,
        (w.disk.run (r.2.take 1)).manifest = some [] ∧ 1 ≤ r.2.length) ∧
      ¬ w.db.levels.Bare := by decide +kernel
  obtain ⟨w, hw, ⟨job, hjob, t, ht, ⟨db, ops⟩, hcommit, htrunc, hlen⟩, hne⟩ := hrun
  refine ⟨w, job, t, db, ops, reach_of_run hw, hjob, ht, hcommit, ?_, fun hcrash => ?_⟩
  · rw [Disk.readManifest, htrunc]
    rfl
  · rcases (hcrash 1 hlen).2 with hbefore | hafter
    · exact hne (Levels.bare_of_truncated htrunc hbefore)
    · exact hne (Levels.Bare.of_subset (Levels.bare_of_truncated htrunc hafter)
        (tables_subset_of_flushCommit hcommit))

end World

end MiniLSM
