import MiniLSM.Proof.Recover
import MiniLSM.Proof.Restart

/-!
# A write that a crash cuts short

`openDB_of_log`: what `DB::Open` makes of the files depends on the records that can be read from the log.

* `openDB_torn_write`: whatever part of a write's record has reached the log, the database that opens from
  the files is the one before the write or the one behind it.
-/

namespace MiniLSM

open Transition WALWriter

variable {w : World}

/-- **Recovery from a log that ends where no further record can be read.** -/
theorem World.Files.recover_tail (h : w.Files) {next wal : ℕ} (hrec : w.Recorded next wal) {rs : List Record}
    (hshort : ∀ r ∈ rs, r.Short) {tail : Bytes} (htail : WALReader.Stops tail) {disk : Disk}
    (hssts : disk.ssts = w.disk.ssts) (hmanifest : disk.manifest = w.disk.manifest)
    (hlog : disk.logs wal = some (logBytes rs ++ tail)) (options : Options) (heights : ℕ → ℕ) :
    ∃ db, DB.recover options disk heights = .ok (db, [.openLog wal]) ∧ db.mem.Same (replayed rs) ∧
      db.levels = w.db.levels := by
  have hread : disk.readManifest = .ok { levels := w.db.levels, nextFileNumber := next, walNumber := wal } := by
    have hline : Manifest.readLine disk = Manifest.readLine w.disk := by
      funext m line
      cases line with
      | table level number firstKey lastKey => simp only [Manifest.readLine, hssts]
      | nextFileNumber n => rfl
      | walNumber n => rfl
    rw [← h.readManifest hrec]
    unfold Disk.readManifest
    rw [hline, hmanifest]
  obtain ⟨mem, seq, ⟨_, rfl, hmem, -⟩, heq⟩ := World.recover_eq options heights hread
  rw [hlog, Option.map_some, Option.getD_some, WALReader.recover_append hshort htail] at hmem
  exact ⟨_, heq, hmem ▸ replayAll_same _ rfl rs heights, rfl⟩

/-- A write that finds room appends one record. -/
theorem World.issued_fits {n : ℕ} (hwal : w.db.wal = some n) (hfits : w.db.hasRoom = true) (op : DB.WriteOp)
    (height : ℕ) (walOpens : Bool) : w.issued (.write op height walOpens) =
      [.appendLog n (addRecord (op.record (w.db.lastSequence + 1)))] := by
  simp only [issued, hfits, if_true, DB.write, hwal]
  rfl

theorem World.step_fits {n : ℕ} (hwal : w.db.wal = some n) (hfits : w.db.hasRoom = true) (op : DB.WriteOp)
    (height : ℕ) (walOpens : Bool) : w.step (.write op height walOpens) = some (w.wrote op height n) := by
  simp only [step, hfits, if_true]
  exact writeNow_eq_some.2 ⟨n, hwal, rfl⟩

/-- **The records that can be read from the log** decide what the files answer. -/
theorem openDB_of_log {dbPath : Bytes} (hroom : Roomy dbPath) (hfiles : w.Files) {next wal : ℕ}
    (hrec : w.Recorded next wal) {disk : Disk} {tree : FileTree} (hrep : Represents dbPath disk tree)
    (hclear : ∀ line ∈ disk.manifest.getD [], ManifestText.Clear dbPath tree line)
    (hssts : disk.ssts = w.disk.ssts) (hmanifest : disk.manifest = w.disk.manifest) {rs : List Record}
    (hshort : ∀ r ∈ rs, r.Short) {tail : Bytes} (htail : WALReader.Stops tail)
    (hlog : disk.logs wal = some (logBytes rs ++ tail)) {db : DB} (himm : db.imm = none)
    (hmem : db.mem.entries = (replayed rs).entries) (hlevels : db.levels = w.db.levels) (options : Options)
    (heights : ℕ → ℕ) :
    ∃ dir o, (tree.directory dbPath).openDB false heights = some (.OK, { dir := dir, db := some o }) ∧
      ∀ key, (o.toDB options).get key = db.get key := by
  obtain ⟨opened, hrecover, hsame, hl⟩ :=
    hfiles.recover_tail hrec hshort htail hssts hmanifest hlog options heights
  have hmirrors := openDB_mirrors hroom hrep hclear options heights
  rw [hrecover] at hmirrors
  obtain ⟨_, hopen, dir, o, rfl, his, -⟩ := hmirrors
  refine ⟨dir, o, hopen, fun key => get_of_unnumbered ?_ himm rfl ?_ key⟩
  · have hentries : o.mem.entries = opened.mem.entries := by rw [his.mem]
    exact hentries.trans (hsame.entries.trans hmem.symm)
  · rw [his.toDB_levels, hl, hlevels]

namespace ByteWorld

variable {dbPath : Bytes} {options : Options} {s s' : ByteWorld}

/-- **A write is atomic under a crash.** As long as a part of its record is missing from the log, what
`DB::Open` makes of the files answers every `Get` as before the write; once the record is whole, as behind
it. -/
theorem openDB_torn_write (hroom : Roomy dbPath) (h : Reach (step dbPath) Kept (fresh dbPath options) s)
    (himm : s.world.db.imm = none) {op : DB.WriteOp} {height : ℕ} (hl : Kept s (.write op height true))
    (hfits : s.world.db.hasRoom = true) (hstep : s.step dbPath (.write op height true) = some s') (n : ℕ)
    (hclear : ∀ line ∈ s.world.disk.manifest.getD [],
      ManifestText.Clear dbPath (s.tear dbPath (.write op height true) n) line)
    (options' : Options) (heights : ℕ → ℕ) :
    ∃ dir o, ((s.tear dbPath (.write op height true) n).directory dbPath).openDB false heights =
        some (.OK, { dir := dir, db := some o }) ∧
      ∀ key, (o.toDB options').get key =
        if (addRecord (op.record (s.world.db.lastSequence + 1))).length ≤ n then s'.world.db.get key
        else s.world.db.get key := by
  have hworld := reach_world (fun _ _ hl => hl.2) h
  have hfiles := World.files_of_reach hworld
  have hlogged := World.logged_of_reach hworld
  obtain ⟨next, hrec⟩ := hlogged.recorded himm
  obtain ⟨rs, hlog, hshort, hsame⟩ := hlogged.log
  have hissued := World.issued_fits hlogged.wal hfits op height true
  have hrep := represents_of_reach hroom (h.mono fun _ _ hl => hl.1)
  obtain ⟨hstepped, -⟩ := step_eq_some hstep
  rw [World.step_fits hlogged.wal hfits] at hstepped
  have hnumber : s.world.db.walNumber < 2 ^ 64 := hl.1 (.appendLog _ _) (hissued ▸ List.mem_cons_self)
  have hrecord := entry_record op (s.world.db.lastSequence + 1)
  have hrshort := hl.2.1.record (s.world.db.lastSequence + 1)
  generalize op.record (s.world.db.lastSequence + 1) = r at hissued hrecord hrshort ⊢
  -- the disk that the torn append leaves
  have htorn : Represents dbPath (s.world.disk.run [.appendLog s.world.db.walNumber ((addRecord r).take n)])
      (s.tear dbPath (.write op height true) n) := by
    unfold tear
    rw [hissued]
    refine hrep.run hroom fun op' hop' => ?_
    rw [List.mem_singleton.1 hop']
    exact hnumber
  have htext : (s.world.disk.run [.appendLog s.world.db.walNumber ((addRecord r).take n)]).logs
      s.world.db.walNumber = some (logBytes rs ++ (addRecord r).take n) := by
    refine (Function.update_self _ _ _).trans ?_
    rw [hlog, Option.getD_some]
  by_cases hlen : (addRecord r).length ≤ n
  · have hwhole : logBytes rs ++ (addRecord r).take n = logBytes (rs ++ [r]) ++ [] := by
      rw [List.take_of_length_le hlen, logBytes_append, List.append_nil]
    simp only [hlen, if_true]
    rw [hwhole] at htext
    refine openDB_of_log hroom hfiles hrec htorn hclear rfl rfl ?_ WALReader.stops_nil htext ?_ ?_ ?_ _ _
    · simpa [or_imp, forall_and] using ⟨hshort, hrshort⟩
    · rw [← Option.some.inj hstepped]
      exact himm
    · have hadd := (hsame.add op.key op.value height 1).entries
      rw [replayed_append, hrecord, ← Option.some.inj hstepped]
      exact hadd
    · rw [← Option.some.inj hstepped]
      rfl
  · simp only [hlen, if_false]
    refine openDB_of_log hroom hfiles hrec htorn hclear rfl rfl hshort ?_ htext himm hsame.entries rfl _ _
    apply WALReader.stops_of_part hrshort.sized (List.take_append_drop n _).symm
    rw [Ne, List.drop_eq_nil_iff]
    exact hlen

/-- Five bytes of the second record: the first value stays. -/
theorem openDB_torn_write_overwrite : ∃ s dir o,
    run (step (ascii "db")) Kept (fresh (ascii "db") {}) [.write (.put [107] [118]) 1 true] = some s ∧
      ((s.tear (ascii "db") (.write (.put [107] [119]) 1 true) 5).directory (ascii "db")).openDB false
        (fun _ => 1) = some (.OK, { dir := dir, db := some o }) ∧
      ((o.toDB {}).get [107]).toOption = some (.OK, some [118]) := by
  have hrun : ((run (step (ascii "db")) Kept (fresh (ascii "db") {}) [.write (.put [107] [118]) 1 true]).bind
      fun s => (s.step (ascii "db") (.write (.put [107] [119]) 1 true)).map fun _ =>
        s.world.db.imm.isNone && decide (Kept s (.write (.put [107] [119]) 1 true)) && s.world.db.hasRoom &&
          s.world.disk.manifest.isNone && decide (s.world.db.lastSequence = 1) &&
          decide ((s.world.db.get [107]).toOption = some (.OK, some [118]))) = some true := by decide +kernel
  obtain ⟨s, hs, heq⟩ := Option.bind_eq_some_iff.1 hrun
  obtain ⟨s', hstep, heq⟩ := Option.map_eq_some_iff.1 heq
  simp only [Bool.and_eq_true, decide_eq_true_eq, Option.isNone_iff_eq_none] at heq
  obtain ⟨⟨⟨⟨⟨himm, hkept⟩, hfits⟩, hmanifest⟩, hseq⟩, hget⟩ := heq
  have hclear : ∀ line ∈ s.world.disk.manifest.getD [], ManifestText.Clear (ascii "db")
      (s.tear (ascii "db") (.write (.put [107] [119]) 1 true) 5) line := by
    rw [hmanifest]
    simp
  obtain ⟨dir, o, hopen, hgets⟩ :=
    openDB_torn_write (by decide) (reach_of_run hs) himm hkept hfits hstep 5 hclear {} fun _ => 1
  refine ⟨s, dir, o, hs, hopen, ?_⟩
  rw [hgets, hseq, if_neg (by decide +kernel), hget]

end ByteWorld

end MiniLSM
