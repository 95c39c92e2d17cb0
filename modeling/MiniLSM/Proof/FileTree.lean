import MiniLSM.Proof.FileNames
import MiniLSM.Proof.Step
import MiniLSM.Spec.FileTree

/-!
# The files of a database against its disk

* `World.issued_disk`: a step does the operations that `issued` lists, and no others.
* `Represents`: the files under their paths are those of the disk, and the MANIFEST is the text of its
  lines. Every operation keeps it, since a path with room for all names tells them apart.
* `ByteWorld.represents_of_reach`: so it holds in every run.
-/

namespace MiniLSM

open Transition

namespace World

variable {w w' : World}

theorem rotateOps_disk {op : DB.WriteOp} {height : ℕ} {walOpens : Bool}
    (h : w.rotateAndWrite op height walOpens = some w') :
    w'.disk = w.disk.run (w.rotateOps op height walOpens) := by
  obtain ⟨n, hn, rfl⟩ := rotateAndWrite_eq_some h
  unfold rotateOps
  cases walOpens <;> simp [DB.rotate, hn, opsOf, DB.write, wrote, rotated, rotateFailed, Disk.run]

/-- A table that a builder left, opened or not. -/
theorem tableOps_opened {number : ℕ} {built : Status × Bytes} {opens : Bool} {t : SSTable}
    (hok : built.1.isOk = true) (h : openBuilt number built.2 opens = some (some t)) (unlinks : Bool) :
    tableOps number built opens unlinks = [.writeSst number built.2] := by
  simp [tableOps, hok, h]

theorem tableOps_failed {number : ℕ} {built : Status × Bytes} {opens : Bool}
    (h : built.1.isOk = false ∨ openBuilt number built.2 opens = some none) (unlinks : Bool) :
    tableOps number built opens unlinks =
      .writeSst number built.2 :: if unlinks then [.unlinkSst number] else [] := by
  rcases h with h | h <;> cases unlinks <;> simp [tableOps, h]

theorem buildFlush_disk {i : ℕ} {faults : ℕ → Option ℕ} {opens : Bool}
    (h : w.buildFlush i faults opens = some w') :
    w'.disk = w.disk.run (w.issued (.flushBuild i faults opens)) := by
  simp only [buildFlush, Option.bind_eq_bind, Option.bind_eq_some_iff] at h
  obtain ⟨job, hjob, h⟩ := h
  simp only [issued, hjob]
  split at h
  case h_2 => simp at h
  split at h
  · rename_i hok
    obtain rfl := Option.some.inj h
    have hbad : (DB.buildTable job.imm faults).1.isOk = false := by simpa using hok
    rw [tableOps_failed (Or.inl hbad), hbad, Bool.and_false]
    rfl
  · rename_i hok
    have hok : (DB.buildTable job.imm faults).1.isOk = true := by simpa using hok
    obtain ⟨r, hr, hdone⟩ := Option.bind_eq_some_iff.1 h
    cases r with
    | some t =>
      obtain rfl := Option.some.inj hdone
      rw [tableOps_opened hok hr]
    | none =>
      obtain rfl := Option.some.inj hdone
      rw [tableOps_failed (Or.inr hr), hok, Bool.and_true]
      by_cases hp : job.path = .background <;> simp [hp, Disk.run]

theorem writeOutput_disk {i : ℕ} {faults : ℕ → Option ℕ} {opens : Bool}
    (h : w.writeOutput i faults opens = some w') :
    w'.disk = w.disk.run (w.issued (.compactOutput i faults opens)) := by
  simp only [writeOutput, Option.bind_eq_bind, Option.bind_eq_some_iff] at h
  obtain ⟨job, hjob, h⟩ := h
  simp only [issued, hjob]
  split at h
  · simp at h
  split at h
  · rename_i hok
    obtain rfl := Option.some.inj h
    rw [tableOps_failed (Or.inl (by simpa using hok))]
    rfl
  · rename_i hok
    obtain ⟨r, hr, hdone⟩ := Option.bind_eq_some_iff.1 h
    cases r with
    | some t =>
      obtain rfl := Option.some.inj hdone
      rw [tableOps_opened (by simpa using hok) hr]
    | none =>
      obtain rfl := Option.some.inj hdone
      rw [tableOps_failed (Or.inr hr)]
      rfl

theorem endFlush_disk {i : ℕ} (h : w.endFlush i = some w') :
    w'.disk = w.disk.run (w.issued (.flushEnd i)) := by
  cases endFlush_event h with
  | rotated hl => rcases hl with ⟨h, -⟩ | ⟨_, h, -⟩ <;> cases h
  | rotateFailed hl => rcases hl with ⟨h, -⟩ | ⟨_, h, -⟩ <;> cases h
  | flushCommitted hjob hres himm => simp [issued, hjob, hres, opsOf, DB.flushCommit, himm, flushCommitted]
  | flushFailed hjob hres hp => simp [issued, hjob, hres, hp, flushFailed, Disk.run]
  | flushDropped hjob hres hp himm => simp [issued, hjob, hres, hp, opsOf, DB.flushDrop, himm, flushDropped]

theorem endCompaction_disk {i : ℕ} (h : w.endCompaction i = some w') :
    w'.disk = w.disk.run (w.issued (.compactEnd i)) := by
  cases endCompaction_event h with
  | rotated hl => rcases hl with ⟨h, -⟩ | ⟨_, h, -⟩ <;> cases h
  | rotateFailed hl => rcases hl with ⟨h, -⟩ | ⟨_, h, -⟩ <;> cases h
  | compactionCommitted hjob hf hb => simp [issued, hjob, hf, compactionCommitted]
  | compactionFailed hjob hf => simp [issued, hjob, hf, compactionFailed]

/-- **A step does the operations that it issues.** -/
theorem issued_disk {l : Label} (h : w.step l = some w') : w'.disk = w.disk.run (w.issued l) := by
  cases l with
  | write op height walOpens =>
    simp only [step] at h
    simp only [issued]
    split at h
    · rename_i hroom
      obtain ⟨n, hn, rfl⟩ := writeNow_eq_some.1 h
      simp [hroom, opsOf, DB.write, hn, wrote]
    · rename_i hroom
      rw [if_neg hroom]
      split at h
      · rename_i himm
        obtain rfl := Option.some.inj h
        rw [if_pos himm]
        rfl
      · rename_i himm
        rw [if_neg himm]
        exact rotateOps_disk h
  | wake i height walOpens =>
    simp only [step, Option.bind_eq_bind, Option.bind_eq_some_iff] at h
    obtain ⟨op, hop, h⟩ := h
    simp only [issued, hop]
    split at h
    · simp at h
    · have hdisk := rotateOps_disk h
      exact hdisk
  | flushBegin path =>
    simp only [step, Option.bind_eq_bind, Option.bind_eq_some_iff] at h
    obtain ⟨⟨m, number, db⟩, -, h⟩ := h
    obtain rfl := Option.some.inj h
    rfl
  | flushBuild i faults opens => exact buildFlush_disk h
  | flushEnd i => exact endFlush_disk h
  | compactBegin =>
    cases beginCompaction_event h with
    | rotated hl => rcases hl with ⟨h, -⟩ | ⟨_, h, -⟩ <;> cases h
    | rotateFailed hl => rcases hl with ⟨h, -⟩ | ⟨_, h, -⟩ <;> cases h
    | compactionBegun => rfl
  | compactOutput i faults opens => exact writeOutput_disk h
  | compactEnd i => exact endCompaction_disk h
  | reopen options heights =>
    simp only [step] at h
    split at h
    · simp at h
    cases hr : DB.recover options w.disk heights with
    | error e => simp [hr] at h
    | ok r =>
      simp only [hr, Option.some.injEq] at h
      subst h
      simp only [issued, hr]
      rfl

end World

/-! ## Paths -/

/-- **The path of a database that leaves room for every name**: it has no zero byte, and a slash, twenty
digits and two bytes more fit behind it. -/
structure Roomy (dbPath : Bytes) : Prop where
  zero : 0 ∉ dbPath
  length : dbPath.length ≤ 104

instance (dbPath : Bytes) : Decidable (Roomy dbPath) :=
  decidable_of_iff (0 ∉ dbPath ∧ dbPath.length ≤ 104) ⟨fun h => ⟨h.1, h.2⟩, fun h => ⟨h.zero, h.length⟩⟩

namespace Roomy

variable {dbPath : Bytes} {m n : ℕ}

theorem room (h : Roomy dbPath) (hn : n < 2 ^ 64) : dbPath.length + 3 + (Text.padded 6 n).length ≤ 127 := by
  have hlen := h.length
  have hdigits : (Nat.digits 10 n).length ≤ 20 := (Nat.digits_length_le_iff (by omega) n).2 (by omega)
  rw [Text.length_padded (by decide)]
  omega

theorem usable (h : Roomy dbPath) (hm : m < 2 ^ 64) (hn : n < 2 ^ 64) : Usable dbPath m n :=
  usable_of_room h.zero (h.room hm) (h.room hn)

theorem manifestPath_eq (h : Roomy dbPath) : manifestPath dbPath = dbPath ++ 47 :: ascii "MANIFEST" := by
  unfold manifestPath manifestFileName
  apply cString_of_notMem
  rw [List.mem_append, not_or]
  exact ⟨h.zero, by decide⟩

/-- The MANIFEST has no dot in its name. -/
theorem numbered_ne_manifest (h : Roomy dbPath) (hn : n < 2 ^ 64) (c : UInt8) (ext : Bytes) :
    numberedName dbPath (c :: ext) n ≠ manifestPath dbPath := by
  intro heq
  rw [numberedName_eq h.zero (h.room hn), h.manifestPath_eq] at heq
  have hfile := (List.cons.inj (List.append_cancel_left heq)).2
  have hdot : (46 : UInt8) ∈ ascii "MANIFEST" := by
    rw [← hfile]
    simp
  exact absurd hdot (by decide)

theorem sst_ne_manifest (h : Roomy dbPath) (hn : n < 2 ^ 64) :
    sstableFileName dbPath n ≠ manifestPath dbPath := by
  rw [sstableFileName_eq_numbered]
  exact h.numbered_ne_manifest hn _ _

theorem log_ne_manifest (h : Roomy dbPath) (hn : n < 2 ^ 64) :
    walFileName dbPath n ≠ manifestPath dbPath := by
  rw [walFileName_eq_numbered]
  exact h.numbered_ne_manifest hn _ _

end Roomy

/-! ## Operations on both -/

/-- The numbers in a line of the MANIFEST are those of 64 bits. -/
def ManifestLine.InRange : ManifestLine → Prop
  | table _ number _ _ => number < 2 ^ 64
  | nextFileNumber n => n < 2 ^ 64
  | walNumber n => n < 2 ^ 64

instance (line : ManifestLine) : Decidable line.InRange := by
  rcases line with _ | _ | _ <;> unfold ManifestLine.InRange <;> infer_instance

/-- The numbers in an operation are those of 64 bits. -/
def FsOp.InRange : FsOp → Prop
  | openLog n => n < 2 ^ 64
  | appendLog n _ => n < 2 ^ 64
  | writeSst n _ => n < 2 ^ 64
  | unlinkSst n => n < 2 ^ 64
  | printManifest line => line.InRange
  | _ => True

instance (op : FsOp) : Decidable op.InRange := by
  rcases op with _ | _ | _ | _ | _ | _ | _ <;> unfold FsOp.InRange <;> infer_instance

/-- **The files under their paths are those of the disk**, and the MANIFEST is the text of its lines. -/
structure Represents (dbPath : Bytes) (disk : Disk) (tree : FileTree) : Prop where
  ssts : ∀ n, n < 2 ^ 64 → tree (sstableFileName dbPath n) = disk.ssts n
  logs : ∀ n, n < 2 ^ 64 → tree (walFileName dbPath n) = disk.logs n
  manifest : tree (manifestPath dbPath) = disk.manifest.map fun lines => lines.flatMap (·.text dbPath)
  lines : ∀ line ∈ disk.manifest.getD [], line.InRange

namespace Represents

variable {dbPath : Bytes} {disk : Disk} {tree : FileTree}

theorem empty (dbPath : Bytes) : Represents dbPath {} fun _ => none :=
  ⟨fun _ _ => rfl, fun _ _ => rfl, rfl, by simp⟩

/-- A new content of a log. -/
theorem setLog (h : Represents dbPath disk tree) (hroom : Roomy dbPath) {n : ℕ} (hn : n < 2 ^ 64)
    (log : Option Bytes) : Represents dbPath { disk with logs := Function.update disk.logs n log }
      (Function.update tree (walFileName dbPath n) log) := by
  refine ⟨fun m hm => ?_, fun m hm => ?_, ?_, h.lines⟩
  · rw [Function.update_of_ne (hroom.usable hm hn).tableLog]
    exact h.ssts m hm
  · dsimp only
    by_cases hmn : m = n
    · rw [hmn, Function.update_self, Function.update_self]
    · have hne : walFileName dbPath m ≠ walFileName dbPath n := fun heq => hmn ((hroom.usable hm hn).logs heq)
      rw [Function.update_of_ne hne, Function.update_of_ne hmn]
      exact h.logs m hm
  · rw [Function.update_of_ne (hroom.log_ne_manifest hn).symm]
    exact h.manifest

/-- A new content of a table's file, or none. -/
theorem setSst (h : Represents dbPath disk tree) (hroom : Roomy dbPath) {n : ℕ} (hn : n < 2 ^ 64)
    (file : Option Bytes) : Represents dbPath { disk with ssts := Function.update disk.ssts n file }
      (Function.update tree (sstableFileName dbPath n) file) := by
  refine ⟨fun m hm => ?_, fun m hm => ?_, ?_, h.lines⟩
  · dsimp only
    by_cases hmn : m = n
    · rw [hmn, Function.update_self, Function.update_self]
    · have hne : sstableFileName dbPath m ≠ sstableFileName dbPath n :=
        fun heq => hmn ((hroom.usable hm hn).tables heq)
      rw [Function.update_of_ne hne, Function.update_of_ne hmn]
      exact h.ssts m hm
  · rw [Function.update_of_ne (hroom.usable hn hm).tableLog.symm]
    exact h.logs m hm
  · rw [Function.update_of_ne (hroom.sst_ne_manifest hn).symm]
    exact h.manifest

/-- A new text of the MANIFEST. -/
theorem setManifest (h : Represents dbPath disk tree) (hroom : Roomy dbPath) {lines : List ManifestLine}
    (hlines : ∀ line ∈ lines, line.InRange) : Represents dbPath { disk with manifest := some lines }
      (Function.update tree (manifestPath dbPath) (some (lines.flatMap (·.text dbPath)))) := by
  refine ⟨fun m hm => ?_, fun m hm => ?_, Function.update_self _ _ _, hlines⟩
  · rw [Function.update_of_ne (hroom.sst_ne_manifest hm)]
    exact h.ssts m hm
  · rw [Function.update_of_ne (hroom.log_ne_manifest hm)]
    exact h.logs m hm

/-- **Every operation** does the same to the files as to the disk. -/
theorem apply (h : Represents dbPath disk tree) (hroom : Roomy dbPath) {op : FsOp} (hop : op.InRange) :
    Represents dbPath (op.apply disk) (op.applyTree dbPath tree) := by
  cases op with
  | openLog n =>
    simp only [FsOp.applyTree, FsOp.apply, h.logs n hop]
    exact h.setLog hroom hop _
  | appendLog n bytes =>
    simp only [FsOp.applyTree, FsOp.apply, h.logs n hop]
    exact h.setLog hroom hop _
  | writeSst n bytes => exact h.setSst hroom hop _
  | unlinkSst n => exact h.setSst hroom hop _
  | truncManifest => exact h.setManifest hroom (by simp)
  | printManifest line =>
    have htext : (tree (manifestPath dbPath)).getD [] ++ line.text dbPath =
        (disk.manifest.getD [] ++ [line]).flatMap (·.text dbPath) := by
      rw [h.manifest, List.flatMap_append, List.flatMap_singleton]
      cases disk.manifest <;> rfl
    simp only [FsOp.applyTree, FsOp.apply, htext]
    refine h.setManifest hroom fun l hl => ?_
    rcases List.mem_append.1 hl with hl | hl
    · exact h.lines l hl
    · rw [List.mem_singleton.1 hl]
      exact hop
  | closeManifest => exact h

theorem run (h : Represents dbPath disk tree) (hroom : Roomy dbPath) {ops : List FsOp}
    (hops : ∀ op ∈ ops, op.InRange) : Represents dbPath (disk.run ops) (tree.run dbPath ops) := by
  induction ops generalizing disk tree with
  | nil => exact h
  | cons op ops ih =>
    have hfirst := h.apply hroom (hops op List.mem_cons_self)
    exact ih hfirst fun o ho => hops o (List.mem_cons_of_mem _ ho)

end Represents

namespace ByteWorld

variable {dbPath : Bytes} {options : Options} {s s' : ByteWorld}

/-- The numbers of the files that a step touches, and those that it prints, are of 64 bits. -/
def InRange (s : ByteWorld) (l : Label) : Prop := ∀ op ∈ s.world.issued l, op.InRange

instance (s : ByteWorld) (l : Label) : Decidable (InRange s l) :=
  List.decidableBAll FsOp.InRange (s.world.issued l)

theorem fresh_represents (hroom : Roomy dbPath) (options : Options) :
    Represents dbPath (fresh dbPath options).world.disk (fresh dbPath options).tree :=
  (Represents.empty dbPath).run hroom (by decide)

theorem step_eq_some {l : Label} (h : s.step dbPath l = some s') :
    s.world.step l = some s'.world ∧ s'.tree = s.tree.run dbPath (s.world.issued l) := by
  obtain ⟨w, hw, h⟩ := Option.bind_eq_some_iff.1 h
  obtain rfl := Option.some.inj h
  exact ⟨hw, rfl⟩

/-- **No step parts the files from the disk.** -/
theorem represents_of_reach (hroom : Roomy dbPath)
    (h : Reach (step dbPath) InRange (fresh dbPath options) s) : Represents dbPath s.world.disk s.tree := by
  refine h.invariant (I := fun s => Represents dbPath s.world.disk s.tree) (fresh_represents hroom options) ?_
  intro s l s' hs hok hstep
  obtain ⟨hworld, htree⟩ := step_eq_some hstep
  rw [World.issued_disk hworld, htree]
  exact hs.run hroom hok

theorem reach_world {ok : ByteWorld → Label → Prop} {ok' : World → Label → Prop}
    (hok : ∀ s l, ok s l → ok' s.world l) (h : Reach (step dbPath) ok (fresh dbPath options) s) :
    Reach World.step ok' (World.fresh options) s.world := by
  refine h.map ByteWorld.world fun s l s' hl hstep => ?_
  exact .next .start (hok s l hl) (step_eq_some hstep).1

end ByteWorld

end MiniLSM
