import Mathlib.Data.List.Perm.Basic
import MiniLSM.Proof.Step
import MiniLSM.Spec.RefCount

/-!
# The files of a database

`Files` holds in every reachable state: every table that `levels_` or a job refers to has a
number of its own and its file on disk, and the MANIFEST lists the tables of `levels_`.

* `Registered`: tables under distinct numbers, with their files.
* `Files.step`, `files_of_reach`: no step breaks `Files`.
* `Files.readManifest`: reading the MANIFEST back gives `levels_`.
-/

namespace MiniLSM

open Transition

/-! ## Opening a table -/

/-- A checked read that gives no status and throws nothing: it succeeds or leaves the buffer. -/
def Checked.Silent {α : Type} (x : Checked α) : Prop := ∀ f, x = .error f → f = .outOfBounds

theorem Checked.Silent.bind {α β : Type} {x : Checked α} {f : α → Checked β} (hx : x.Silent)
    (hf : ∀ a, (f a).Silent) : (x >>= f).Silent := by
  intro f' h
  cases x with
  | ok a => exact hf a f' h
  | error e =>
    obtain rfl : e = f' := Except.error.inj h
    exact hx e rfl

theorem Checked.silent_pure {α : Type} (a : α) : (pure a : Checked α).Silent := by
  intro f h
  cases h

theorem Checked.silent_ofOption {α : Type} (o : Option α) : (Checked.ofOption o).Silent := by
  intro f h
  cases o with
  | none => exact (Except.error.inj h).symm
  | some a => cases h

/-- A status behind a silent read is that of what follows it. -/
theorem Checked.Silent.status {α β : Type} {x : Checked α} {f : α → Checked β} {s : Status} (hx : x.Silent)
    (h : x >>= f = .error (.status s)) : ∃ a, x = .ok a ∧ f a = .error (.status s) := by
  cases x with
  | ok a => exact ⟨a, rfl, h⟩
  | error e =>
    obtain rfl : e = .status s := Except.error.inj h
    cases hx _ rfl

theorem parseEntry_silent (buf : Bytes) (limit p : ℕ) : (parseEntry buf limit p).Silent := by
  refine (Checked.silent_ofOption _).bind ?_
  rintro ⟨_, n⟩
  dsimp only
  split
  · exact Checked.silent_pure _
  refine (Checked.silent_ofOption _).bind ?_
  rintro ⟨_, n⟩
  dsimp only
  split
  · exact Checked.silent_pure _
  split
  · exact Checked.silent_pure _
  refine (Checked.silent_ofOption _).bind ?_
  rintro ⟨_, n⟩
  dsimp only
  split <;> exact Checked.silent_pure _

namespace SSTable

theorem parseIndex_silent (buf : Bytes) (limit n p : ℕ) : (parseIndex buf limit n p).Silent := by
  induction n generalizing p with
  | zero => exact Checked.silent_pure _
  | succ n ih =>
    rw [parseIndex]
    split
    · exact Checked.silent_pure _
    refine (parseEntry_silent buf limit p).bind fun r => ?_
    split
    · refine (Checked.silent_ofOption _).bind fun a => (Checked.silent_ofOption _).bind fun b => ?_
      exact (ih _).bind fun rest => Checked.silent_pure _
    · exact Checked.silent_pure _

theorem readFirstKey_silent (block : Bytes) : (readFirstKey block).Silent := by
  rw [readFirstKey]
  split
  · exact Checked.silent_pure _
  refine (Checked.silent_ofOption _).bind ?_
  rintro ⟨_, n⟩
  dsimp only
  split
  · exact Checked.silent_pure _
  refine (Checked.silent_ofOption _).bind ?_
  rintro ⟨_, n⟩
  dsimp only
  split <;> exact Checked.silent_pure _

/-- What the last part of `Open`, the read of the Bloom block, can come to. -/
theorem openBloom_cases {size : ℕ} {filter : Option BloomFilter} {filtered : BloomFilter → SSTable}
    {bare : SSTable} {r : Checked SSTable}
    (h : (if 2 ^ 63 ≤ size then throw .lengthError
      else match filter with
        | some filter => pure (filtered filter)
        | none => pure bare) = r) :
    r = .error .lengthError ∨ ∃ t, r = .ok t ∧ (t = bare ∨ ∃ f, t = filtered f) := by
  rw [← h]
  split
  · exact .inl rfl
  · cases filter with
    | none => exact .inr ⟨_, rfl, .inl rfl⟩
    | some f => exact .inr ⟨_, rfl, .inr ⟨f, rfl⟩⟩

/-- **A status that `Open` gives is not OK.** -/
theorem openFile_status {number : ℕ} {data : Bytes} {s : Status}
    (h : openFile number data = .error (.status s)) : s.isOk = false := by
  simp only [openFile, pure_bind, Checked.throw_bind] at h
  have hstatus : ∀ {s' : Status}, (throw (.status s') : Checked SSTable) = .error (.status s) →
      s'.isOk = false → s.isOk = false := by
    intro s' heq hs'
    cases heq
    exact hs'
  split at h
  · exact hstatus h rfl
  split at h
  · exact hstatus h rfl
  split at h
  · cases h
  split at h
  case h_2 => exact hstatus h rfl
  split at h
  · exact hstatus h rfl
  split at h
  · exact hstatus h rfl
  -- behind the index there is no status any more
  obtain ⟨entries, -, h⟩ := (parseIndex_silent _ _ _ _).status h
  split at h
  · split at h
    · obtain ⟨firstKey, -, h⟩ := (readFirstKey_silent _).status h
      obtain ⟨⟨⟩⟩ | ⟨_, ⟨⟩, -⟩ := openBloom_cases h
    · obtain ⟨⟨⟩⟩ | ⟨_, ⟨⟩, -⟩ := openBloom_cases h
    · rename_i f hf _
      cases h
      exact absurd rfl (hf s)
  · obtain ⟨⟨⟩⟩ | ⟨_, ⟨⟩, -⟩ := openBloom_cases h

end SSTable

/-- An opened table keeps its number and its file. -/
theorem SSTable.openFile_ok {number : ℕ} {data : Bytes} {t : SSTable}
    (h : SSTable.openFile number data = .ok t) : t.number = number ∧ t.data = data := by
  simp only [SSTable.openFile, pure_bind, Checked.throw_bind] at h
  split at h
  · cases h
  split at h
  · cases h
  split at h
  · cases h
  split at h
  case h_2 => cases h
  split at h
  · cases h
  split at h
  · cases h
  obtain ⟨entries, -, h⟩ := Checked.bind_eq_ok h
  split at h
  · split at h
    · obtain ⟨firstKey, -, h⟩ := Checked.bind_eq_ok h
      obtain ⟨⟨⟩⟩ | ⟨_, ⟨⟩, rfl | ⟨f, rfl⟩⟩ := openBloom_cases h <;> exact ⟨rfl, rfl⟩
    · obtain ⟨⟨⟩⟩ | ⟨_, ⟨⟩, rfl | ⟨f, rfl⟩⟩ := openBloom_cases h <;> exact ⟨rfl, rfl⟩
    · cases h
  · obtain ⟨⟨⟩⟩ | ⟨_, ⟨⟩, rfl | ⟨f, rfl⟩⟩ := openBloom_cases h <;> exact ⟨rfl, rfl⟩

/-! ## Numbered tables -/

/-- Tables under distinct numbers below `next`, each with its file. `none` is a number taken
for a table to come. -/
structure Registered (disk : Disk) (next : ℕ) (files : List (ℕ × Option SSTable)) : Prop where
  nodup : (files.map Prod.fst).Nodup
  lt : ∀ f ∈ files, f.1 < next
  onDisk : ∀ n t, (n, some t) ∈ files →
    t.number = n ∧ disk.ssts n = some t.data ∧ SSTable.openFile n t.data = .ok t

namespace Registered

variable {disk disk' : Disk} {next next' : ℕ} {files files' gs : List (ℕ × Option SSTable)}

theorem perm (h : Registered disk next files) (hp : files.Perm files') :
    Registered disk next files' :=
  ⟨(hp.map _).nodup_iff.1 h.nodup, fun f hf => h.lt f (hp.mem_iff.2 hf),
    fun n t ht => h.onDisk n t (hp.mem_iff.2 ht)⟩

theorem mono (h : Registered disk next files) (hle : next ≤ next') : Registered disk next' files :=
  ⟨h.nodup, fun f hf => (h.lt f hf).trans_le hle, h.onDisk⟩

/-- Files at other numbers do not matter. -/
theorem change (h : Registered disk next files) (hd : ∀ f ∈ files, disk'.ssts f.1 = disk.ssts f.1) :
    Registered disk' next files :=
  ⟨h.nodup, h.lt, fun n t ht => by rw [hd _ ht]; exact h.onDisk n t ht⟩

theorem right (h : Registered disk next (gs ++ files)) : Registered disk next files := by
  have hn := h.nodup
  rw [List.map_append, List.nodup_append] at hn
  exact ⟨hn.2.1, fun f hf => h.lt f (List.mem_append_right _ hf),
    fun n t ht => h.onDisk n t (List.mem_append_right _ ht)⟩

theorem disjoint (h : Registered disk next (gs ++ files)) {f g : ℕ × Option SSTable} (hg : g ∈ gs)
    (hf : f ∈ files) : f.1 ≠ g.1 := by
  have hn := h.nodup
  rw [List.map_append, List.nodup_append] at hn
  exact fun heq => hn.2.2 _ (List.mem_map_of_mem hg) _ (List.mem_map_of_mem hf) heq.symm

/-- A fresh number. -/
theorem cons (h : Registered disk next files) {o : Option SSTable}
    (ho : ∀ t, o = some t →
      t.number = next ∧ disk.ssts next = some t.data ∧ SSTable.openFile next t.data = .ok t) :
    Registered disk (next + 1) ((next, o) :: files) := by
  refine ⟨?_, fun f hf => ?_, fun n t ht => ?_⟩
  · rw [List.map_cons, List.nodup_cons]
    refine ⟨fun hmem => ?_, h.nodup⟩
    obtain ⟨f, hf, heq⟩ := List.mem_map.1 hmem
    exact absurd (h.lt f hf) (by simp only at heq; omega)
  · rcases List.mem_cons.1 hf with rfl | hf
    · exact Nat.lt_succ_self _
    · exact (h.lt f hf).trans (Nat.lt_succ_self _)
  · rcases List.mem_cons.1 ht with heq | ht
    · obtain ⟨rfl, rfl⟩ : n = next ∧ some t = o := by simpa using heq
      exact ho t rfl
    · exact h.onDisk n t ht

/-- A table for a number taken before. -/
theorem fill {n : ℕ} {o o' : Option SSTable} (h : Registered disk next ((n, o) :: files))
    (hd : ∀ f ∈ files, disk'.ssts f.1 = disk.ssts f.1)
    (ho : ∀ t, o' = some t →
      t.number = n ∧ disk'.ssts n = some t.data ∧ SSTable.openFile n t.data = .ok t) :
    Registered disk' next ((n, o') :: files) := by
  refine ⟨h.nodup, fun f hf => ?_, fun m t ht => ?_⟩
  · rcases List.mem_cons.1 hf with rfl | hf
    · exact h.lt (n, o) List.mem_cons_self
    · exact h.lt f (List.mem_cons_of_mem _ hf)
  · rcases List.mem_cons.1 ht with heq | ht
    · obtain ⟨rfl, rfl⟩ : m = n ∧ some t = o' := by simpa using heq
      exact ho t rfl
    · rw [hd _ ht]
      exact h.onDisk m t (List.mem_cons_of_mem _ ht)

end Registered

/-! ## Running file operations -/

section Disk

variable {disk : Disk} {n : ℕ}

theorem Disk.run_append (disk : Disk) (ops ops' : List FsOp) :
    disk.run (ops ++ ops') = (disk.run ops).run ops' := List.foldl_append

theorem Disk.run_print (disk : Disk) (lines : List ManifestLine) (printed : List ManifestLine)
    (h : disk.manifest = some printed) :
    disk.run (lines.map .printManifest) = { disk with manifest := some (printed ++ lines) } := by
  induction lines generalizing disk printed with
  | nil => rw [List.append_nil, ← h]; rfl
  | cons line lines ih =>
    rw [List.map_cons, Disk.run, List.foldl_cons]
    refine (ih (FsOp.apply disk (.printManifest line)) (printed ++ [line]) ?_).trans ?_
    · simp [FsOp.apply, h]
    · simp [FsOp.apply]

/-- `WriteManifest` replaces the MANIFEST and nothing else. -/
theorem Disk.run_writeManifest (disk : Disk) (db : DB) :
    disk.run db.writeManifest = { disk with manifest := some db.manifestLines } := by
  rw [DB.writeManifest, Disk.run_append, ← List.singleton_append, Disk.run_append,
    Disk.run_print _ _ [] rfl]
  rfl

/-- Unlinking tables leaves the other files alone. -/
theorem Disk.run_unlink (disk : Disk) (ts : List SSTable) :
    (disk.run (ts.map fun t => .unlinkSst t.number)).logs = disk.logs ∧
      (disk.run (ts.map fun t => .unlinkSst t.number)).manifest = disk.manifest ∧
      ∀ n, (disk.run (ts.map fun t => .unlinkSst t.number)).ssts n =
        if n ∈ ts.map (·.number) then none else disk.ssts n := by
  induction ts generalizing disk with
  | nil => exact ⟨rfl, rfl, fun n => rfl⟩
  | cons t ts ih =>
    obtain ⟨h1, h2, h3⟩ := ih (FsOp.apply disk (.unlinkSst t.number))
    refine ⟨h1, h2, fun n => (h3 n).trans ?_⟩
    rw [List.map_cons]
    by_cases hn : n ∈ ts.map (·.number)
    · rw [if_pos hn, if_pos (List.mem_cons_of_mem _ hn)]
    · rw [if_neg hn]
      by_cases hnt : n = t.number
      · rw [if_pos (hnt ▸ List.mem_cons_self), hnt]
        exact Function.update_self _ _ _
      · rw [if_neg fun h => hn ((List.mem_cons.1 h).resolve_left hnt)]
        exact Function.update_of_ne hnt _ _

end Disk

theorem FlushJob.result_of_table {job : FlushJob} {t : SSTable} (h : job.table = some t) :
    job.result = .opened t := by
  rw [FlushJob.table] at h
  split at h
  · rename_i s hs
    rw [hs, Option.some.inj h]
  · cases h

namespace World

/-- Tables under their numbers. -/
def numbered (ts : List SSTable) : List (ℕ × Option SSTable) := ts.map fun t => (t.number, some t)

/-- All numbers that a table goes by, or that a flush has taken. -/
def files (w : World) : List (ℕ × Option SSTable) :=
  numbered w.db.levels.tables ++ (w.flushes.map (fun job => (job.number, job.table)) ++
    numbered (w.compactions.flatMap CompactionJob.newLevel1))

/-- The MANIFEST on disk lists the tables of `levels_`, with these numbers behind them. -/
def Recorded (w : World) (next wal : ℕ) : Prop :=
  w.disk.manifest = some ({ w.db with nextFileNumber := next, walNumber := wal } : DB).manifestLines ∨
    w.disk.manifest = none ∧ w.db.levels = {} ∧ next = 1 ∧ wal = 1

/-- **The files of a database are in order.** A table that a compaction set out to replace is
still in L0, or its number is no longer in use. -/
structure Files (w : World) : Prop where
  registered : Registered w.disk w.db.nextFileNumber w.files
  snapshot : ∀ job ∈ w.compactions, ∀ t ∈ job.l0Snapshot,
    t ∈ w.db.levels.l0 ∨ t.number < w.db.nextFileNumber ∧ ∀ f ∈ w.files, f.1 ≠ t.number
  deeper : w.db.levels.deeper = [[], []]
  recorded : ∃ next wal, w.Recorded next wal ∧ next ≤ w.db.nextFileNumber ∧
    ∀ t ∈ w.db.levels.tables, t.number < next

variable {w w' : World}

theorem Files.lt_next (h : w.Files) {t : SSTable} (ht : t ∈ w.db.levels.tables) :
    t.number < w.db.nextFileNumber :=
  h.registered.lt (t.number, some t)
    (List.mem_append_left _ (List.mem_map_of_mem (f := fun t => (t.number, some t)) ht))

theorem l0_subset_tables {levels : Levels} {t : SSTable} (ht : t ∈ levels.l0) : t ∈ levels.tables :=
  List.mem_flatten.2 ⟨_, List.mem_cons_self, ht⟩

theorem l1_subset_tables {levels : Levels} {t : SSTable} (ht : t ∈ levels.l1) : t ∈ levels.tables :=
  List.mem_flatten.2 ⟨_, List.mem_cons_of_mem _ List.mem_cons_self, ht⟩

/-- Tables of L0 are pairwise distinct. -/
theorem Files.l0_nodup (h : w.Files) : w.db.levels.l0.Nodup := by
  have hsub : (w.db.levels.l0.map (·.number)).Sublist (w.files.map Prod.fst) := by
    rw [files, List.map_append, numbered, List.map_map]
    exact ((List.sublist_append_left _ _).map _).trans (List.sublist_append_left _ _)
  exact (h.registered.nodup.sublist hsub).of_map _

theorem fresh_files (options : Options) : (fresh options).Files := by
  refine ⟨⟨by simp [files, numbered, fresh, Levels.tables, Levels.toList],
    by simp [files, numbered, fresh, Levels.tables, Levels.toList],
    by simp [files, numbered, fresh, Levels.tables, Levels.toList]⟩, by simp [fresh], rfl, 1, 1,
    Or.inr ⟨rfl, rfl, rfl, rfl⟩, le_refl _, by simp [fresh, Levels.tables, Levels.toList]⟩

/-- Steps that leave `levels_` and the MANIFEST alone. -/
theorem Files.keep (h : w.Files) (hl : w'.db.levels = w.db.levels)
    (hm : w'.disk.manifest = w.disk.manifest) (hn : w.db.nextFileNumber ≤ w'.db.nextFileNumber)
    (hreg : Registered w'.disk w'.db.nextFileNumber w'.files)
    (hnum : ∀ f ∈ w'.files, f.1 = w.db.nextFileNumber ∨ ∃ g ∈ w.files, g.1 = f.1)
    (hsnap : ∀ job ∈ w'.compactions, ∀ t ∈ job.l0Snapshot,
      t ∈ w.db.levels.l0 ∨ ∃ job' ∈ w.compactions, t ∈ job'.l0Snapshot) : w'.Files := by
  refine ⟨hreg, fun job hjob t ht => ?_, hl ▸ h.deeper, ?_⟩
  · rw [hl]
    have hold : t ∈ w.db.levels.l0 ∨ t.number < w.db.nextFileNumber ∧ ∀ f ∈ w.files, f.1 ≠ t.number := by
      rcases hsnap job hjob t ht with ht | ⟨job', hjob', ht⟩
      · exact Or.inl ht
      · exact h.snapshot job' hjob' t ht
    refine hold.imp_right fun ⟨hlt, hnone⟩ => ⟨hlt.trans_le hn, fun f hf => ?_⟩
    rcases hnum f hf with heq | ⟨g, hg, heq⟩
    · rw [heq]; exact hlt.ne'
    · exact heq ▸ hnone g hg
  · obtain ⟨next, wal, hrec, hle, hlt⟩ := h.recorded
    refine ⟨next, wal, ?_, hle.trans hn, hl ▸ hlt⟩
    simp only [Recorded, DB.manifestLines, hl, hm] at hrec ⊢
    exact hrec

/-- Steps that write the MANIFEST. -/
theorem Files.rewrite (hd : w'.db.levels.deeper = [[], []])
    (hm : w'.disk.manifest = some w'.db.manifestLines)
    (hreg : Registered w'.disk w'.db.nextFileNumber w'.files)
    (hsnap : ∀ job ∈ w'.compactions, ∀ t ∈ job.l0Snapshot, t ∈ w'.db.levels.l0 ∨
      t.number < w'.db.nextFileNumber ∧ ∀ f ∈ w'.files, f.1 ≠ t.number) : w'.Files :=
  ⟨hreg, hsnap, hd, _, _, Or.inl hm, le_refl _, fun t ht => hreg.lt (t.number, some t)
    (List.mem_append_left _ (List.mem_map_of_mem (f := fun t => (t.number, some t)) ht))⟩

/-! ## Reading the MANIFEST back -/

/-- The lines of one level push its tables in order. -/
theorem foldlM_readLine {disk : Disk} {level : ℕ} {ts : List SSTable} (m : Manifest)
    (h : ∀ t ∈ ts, disk.ssts t.number = some t.data ∧ SSTable.openFile t.number t.data = .ok t)
    (lines : List ManifestLine) :
    (ts.map (fun t => ManifestLine.table level t.number t.firstKey t.lastKey) ++ lines).foldlM
        (Manifest.readLine disk) m =
      lines.foldlM (Manifest.readLine disk)
        { m with levels := ts.foldl (fun levels t => levels.push level t) m.levels } := by
  induction ts generalizing m with
  | nil => rfl
  | cons t ts ih =>
    obtain ⟨hfile, hopen⟩ := h t List.mem_cons_self
    have hline : Manifest.readLine disk m (.table level t.number t.firstKey t.lastKey) =
        .ok { m with levels := m.levels.push level t } := by
      simp only [Manifest.readLine, hfile, hopen]
      rfl
    rw [List.map_cons, List.cons_append, List.foldlM_cons, hline]
    exact ih _ fun t ht => h t (List.mem_cons_of_mem _ ht)

theorem foldl_push_zero (levels : Levels) (ts : List SSTable) :
    ts.foldl (fun levels t => levels.push 0 t) levels = { levels with l0 := levels.l0 ++ ts } := by
  induction ts generalizing levels with
  | nil => simp
  | cons t ts ih => rw [List.foldl_cons, ih]; simp [Levels.push]

theorem foldl_push_one (levels : Levels) (ts : List SSTable) :
    ts.foldl (fun levels t => levels.push 1 t) levels = { levels with l1 := levels.l1 ++ ts } := by
  induction ts generalizing levels with
  | nil => simp
  | cons t ts ih => rw [List.foldl_cons, ih]; simp [Levels.push]

/-- **Reading the MANIFEST back gives `levels_`** and the numbers written behind it. -/
theorem Files.readManifest (h : w.Files) {next wal : ℕ} (hrec : w.Recorded next wal) :
    w.disk.readManifest = .ok { levels := w.db.levels, nextFileNumber := next, walNumber := wal } := by
  rcases hrec with hrec | ⟨hrec, hl, rfl, rfl⟩
  · have hdisk : ∀ t ∈ w.db.levels.tables,
        w.disk.ssts t.number = some t.data ∧ SSTable.openFile t.number t.data = .ok t := fun t ht =>
      (h.registered.onDisk t.number t (List.mem_append_left _
        (List.mem_map_of_mem (f := fun t => (t.number, some t)) ht))).2
    have hdeeper := h.deeper
    rcases hlevels : w.db.levels with ⟨l0, l1, deeper⟩
    rw [hlevels] at hdeeper hdisk
    obtain rfl : deeper = [[], []] := hdeeper
    have hlines : ({ w.db with nextFileNumber := next, walNumber := wal } : DB).manifestLines =
        l0.map (fun t => ManifestLine.table 0 t.number t.firstKey t.lastKey) ++
          (l1.map (fun t => ManifestLine.table 1 t.number t.firstKey t.lastKey) ++
            [.nextFileNumber next, .walNumber wal]) := by
      simp [DB.manifestLines, hlevels, Levels.toList]
    rw [Disk.readManifest, hrec, Option.getD_some, hlines,
      foldlM_readLine _ fun t ht => hdisk t (by simp [Levels.tables, Levels.toList, ht]),
      foldlM_readLine _ fun t ht => hdisk t (by simp [Levels.tables, Levels.toList, ht]),
      foldl_push_zero, foldl_push_one]
    simp only [List.nil_append]
    rfl
  · rw [Disk.readManifest, hrec, hl]
    rfl

/-! ## Sections that write the MANIFEST -/

theorem flushCommitted_disk (w : World) (i : ℕ) (t : SSTable) : (w.flushCommitted i t).disk =
    { w.disk with manifest := some (w.flushCommitted i t).db.manifestLines } :=
  Disk.run_writeManifest _ _

theorem flushDropped_disk (w : World) (i : ℕ) : (w.flushDropped i).disk =
    { w.disk with manifest := some (w.flushDropped i).db.manifestLines } :=
  Disk.run_writeManifest _ _

/-- Removing the snapshot: every table of it is taken out of L0 and unlinked. -/
theorem removeL0_spec (l0 ts : List SSTable) :
    ∃ gone, l0.Perm (gone ++ (DB.removeL0 l0 ts).1) ∧ (∀ t ∈ ts, t ∈ l0 → t ∈ gone) ∧
      (∀ t ∈ gone, t ∈ ts) ∧ (DB.removeL0 l0 ts).2 = ts.map fun t => .unlinkSst t.number := by
  induction ts generalizing l0 with
  | nil => exact ⟨[], List.Perm.refl _, by simp, by simp, rfl⟩
  | cons t ts ih =>
    obtain ⟨gone, hperm, hall, hsub, hops⟩ := ih (l0.erase t)
    rw [DB.removeL0]
    by_cases ht : t ∈ l0
    · refine ⟨t :: gone, (List.perm_cons_erase ht).trans (hperm.cons t), fun s hs hs0 => ?_,
        fun s hs => ?_, by simp [hops]⟩
      · rcases List.mem_cons.1 hs with rfl | hs
        · exact List.mem_cons_self
        · by_cases hst : s = t
          · exact hst ▸ List.mem_cons_self
          · exact List.mem_cons_of_mem _ (hall s hs ((List.mem_erase_of_ne hst).2 hs0))
      · rcases List.mem_cons.1 hs with rfl | hs
        · exact List.mem_cons_self
        · exact List.mem_cons_of_mem _ (hsub s hs)
    · rw [List.erase_of_not_mem ht] at hperm hall hops ⊢
      refine ⟨gone, hperm, fun s hs hs0 => ?_, fun s hs => List.mem_cons_of_mem _ (hsub s hs),
        by simp [hops]⟩
      rcases List.mem_cons.1 hs with rfl | hs
      · exact absurd hs0 ht
      · exact hall s hs hs0

/-- Removing from L1: what is taken out is unlinked. -/
theorem removeL1_spec (l1 : List SSTable) (indices : List ℕ) :
    ∃ gone, l1.Perm (gone ++ (DB.removeL1 l1 indices).1) ∧
      (gone = [] ↔ ∀ i ∈ indices, l1.length ≤ i) ∧
      (DB.removeL1 l1 indices).2 = gone.map fun t => .unlinkSst t.number := by
  induction indices generalizing l1 with
  | nil => exact ⟨[], List.Perm.refl _, by simp, rfl⟩
  | cons i indices ih =>
    rw [DB.removeL1]
    split
    · rename_i t ht
      obtain ⟨hi, rfl⟩ := List.getElem?_eq_some_iff.1 ht
      obtain ⟨gone, hperm, -, hops⟩ := ih (l1.eraseIdx i)
      refine ⟨l1[i] :: gone, (List.getElem_cons_eraseIdx_perm hi).symm.trans (hperm.cons _), ?_,
        by simp [hops]⟩
      exact iff_of_false (List.cons_ne_nil _ _) fun hle => absurd (hle i List.mem_cons_self) (by omega)
    · rename_i hnone
      obtain ⟨gone, hperm, hnil, hops⟩ := ih l1
      refine ⟨gone, hperm, hnil.trans ?_, hops⟩
      rw [List.forall_mem_cons]
      exact (and_iff_right (List.getElem?_eq_none_iff.1 hnone)).symm

theorem numbered_append (ts us : List SSTable) : numbered (ts ++ us) = numbered ts ++ numbered us :=
  List.map_append

theorem numbered_perm {ts us : List SSTable} (h : ts.Perm us) : (numbered ts).Perm (numbered us) :=
  h.map _

theorem mem_numbered {ts : List SSTable} {f : ℕ × Option SSTable} (h : f ∈ numbered ts) :
    ∃ t ∈ ts, f = (t.number, some t) := by
  obtain ⟨t, ht, rfl⟩ := List.mem_map.1 h
  exact ⟨t, ht, rfl⟩

theorem tables_eq {levels : Levels} (h : levels.deeper = [[], []]) :
    levels.tables = levels.l0 ++ levels.l1 := by
  simp [Levels.tables, Levels.toList, h]

/-- **What a compaction's commit does**: `gone0` and `gone1` leave L0 and L1, the outputs enter
L1, the files of the snapshot and of `gone1` are unlinked, and the MANIFEST is written. -/
theorem compactCommit_spec (db : DB) (snapshot : List SSTable) (indices : List ℕ)
    (outputs : List SSTable) :
    ∃ gone0 gone1, db.levels.l0.Perm (gone0 ++ (db.compactCommit snapshot indices outputs).1.levels.l0) ∧
      (db.levels.l1 ++ outputs).Perm
        (gone1 ++ (db.compactCommit snapshot indices outputs).1.levels.l1) ∧
      (∀ t ∈ snapshot, t ∈ db.levels.l0 → t ∈ gone0) ∧ (∀ t ∈ gone0, t ∈ snapshot) ∧
      (∀ t ∈ gone1, t ∈ db.levels.l1) ∧ (gone1 = [] ↔ ∀ i ∈ indices, db.levels.l1.length ≤ i) ∧
      (db.compactCommit snapshot indices outputs).2 =
        (snapshot ++ gone1).map (fun t => .unlinkSst t.number) ++
          (db.compactCommit snapshot indices outputs).1.writeManifest := by
  obtain ⟨gone0, hperm0, hall, hsub, hops0⟩ := removeL0_spec db.levels.l0 snapshot
  obtain ⟨gone1, hperm1, hnil, hops1⟩ :=
    removeL1_spec db.levels.l1 (indices.insertionSort fun a b => b ≤ a)
  refine ⟨gone0, gone1, hperm0, ?_, hall, hsub, fun t ht => hperm1.mem_iff.2 (List.mem_append_left _ ht),
    ?_, ?_⟩
  · refine (hperm1.append_right outputs).trans ?_
    rw [List.append_assoc]
    exact (List.perm_insertionSort _ _).symm.append_left gone1
  · simp only [hnil, List.mem_insertionSort]
  · simp only [DB.compactCommit, hops0, hops1, List.map_append]

/-! ## Every step -/

/-- Steps that touch no table file. -/
theorem Files.quiet (h : w.Files) (hl : w'.db.levels = w.db.levels)
    (hn : w'.db.nextFileNumber = w.db.nextFileNumber) (hs : w'.disk.ssts = w.disk.ssts)
    (hm : w'.disk.manifest = w.disk.manifest) (hf : w'.flushes = w.flushes)
    (hc : w'.compactions = w.compactions) : w'.Files := by
  have hfiles : w'.files = w.files := by simp only [files, hl, hf, hc]
  refine h.keep hl hm hn.ge ?_ (fun f hfm => Or.inr ⟨f, hfiles ▸ hfm, rfl⟩)
    fun job hjob t ht => Or.inr ⟨job, hc ▸ hjob, ht⟩
  rw [hn, hfiles]
  exact h.registered.change fun f _ => by rw [hs]

/-- The file of flush `i` and the others. -/
theorem files_flush {i : ℕ} {job : FlushJob} (hi : w.flushes[i]? = some job) (job' : FlushJob) :
    ({ w with flushes := w.flushes.set i job' } : World).files.Perm
      ((job'.number, job'.table) :: ({ w with flushes := w.flushes.eraseIdx i } : World).files) := by
  obtain ⟨hlt, -⟩ := List.getElem?_eq_some_iff.1 hi
  have hset := (List.set_perm_cons_eraseIdx hlt job').map fun job : FlushJob => (job.number, job.table)
  exact ((hset.append_right _).append_left _).trans List.perm_middle

theorem files_flush_self {i : ℕ} {job : FlushJob} (hi : w.flushes[i]? = some job) : w.files.Perm
    ((job.number, job.table) :: ({ w with flushes := w.flushes.eraseIdx i } : World).files) := by
  have hself : w.flushes.set i job = w.flushes := by
    obtain ⟨hlt, rfl⟩ := List.getElem?_eq_some_iff.1 hi
    exact List.set_getElem_self hlt
  have h := files_flush hi job
  rwa [hself] at h

/-- The outputs of compaction `i` and the other files. -/
theorem files_compaction {i : ℕ} {job : CompactionJob} (hi : w.compactions[i]? = some job)
    (job' : CompactionJob) :
    ({ w with compactions := w.compactions.set i job' } : World).files.Perm
      (numbered job'.newLevel1 ++
        ({ w with compactions := w.compactions.eraseIdx i } : World).files) := by
  obtain ⟨hlt, -⟩ := List.getElem?_eq_some_iff.1 hi
  have hset := numbered_perm
    ((List.set_perm_cons_eraseIdx hlt job').flatMap_right CompactionJob.newLevel1)
  rw [List.flatMap_cons, numbered_append] at hset
  have hmid : ∀ A B C D : List (ℕ × Option SSTable), (A ++ (B ++ (C ++ D))).Perm (C ++ (A ++ (B ++ D))) := by
    intro A B C D
    rw [← List.append_assoc A, ← List.append_assoc A]
    exact List.perm_append_comm_assoc _ _ _
  exact ((hset.append_left _).append_left _).trans (hmid _ _ _ _)

theorem files_compaction_self {i : ℕ} {job : CompactionJob} (hi : w.compactions[i]? = some job) :
    w.files.Perm (numbered job.newLevel1 ++
      ({ w with compactions := w.compactions.eraseIdx i } : World).files) := by
  have hself : w.compactions.set i job = w.compactions := by
    obtain ⟨hlt, rfl⟩ := List.getElem?_eq_some_iff.1 hi
    exact List.set_getElem_self hlt
  have h := files_compaction hi job
  rwa [hself] at h

theorem Files.flushBegun (h : w.Files) (path : FlushPath) (m : MemTable) :
    (w.flushBegun path m).Files := by
  have hperm : ((w.db.nextFileNumber, none) :: w.files).Perm (w.flushBegun path m).files := by
    simp only [files, World.flushBegun, List.map_append, List.map_cons, List.map_nil]
    rw [List.append_assoc (w.flushes.map _), List.singleton_append]
    exact List.perm_middle.symm.trans (List.perm_middle.symm.append_left _)
  refine h.keep rfl rfl (Nat.le_succ _) ((h.registered.cons (by simp)).perm hperm) (fun f hf => ?_)
    fun job hjob t ht => Or.inr ⟨job, hjob, ht⟩
  rcases List.mem_cons.1 (hperm.mem_iff.2 hf) with rfl | hf
  · exact Or.inl rfl
  · exact Or.inr ⟨f, hf, rfl⟩

/-- A flush writes its file, and its table opens or does not. -/
theorem Files.flushBuilt (h : w.Files) {i : ℕ} {job : FlushJob} (hi : w.flushes[i]? = some job)
    {result : FlushResult} {ops : List FsOp}
    (hops : ∀ n, n ≠ job.number → (w.disk.run ops).ssts n = w.disk.ssts n)
    (hm : (w.disk.run ops).manifest = w.disk.manifest)
    (ho : ∀ t, result = .opened t → t.number = job.number ∧
      (w.disk.run ops).ssts job.number = some t.data ∧ SSTable.openFile job.number t.data = .ok t) :
    (w.flushBuilt i job result ops).Files := by
  have hself := files_flush_self hi
  have hperm := files_flush hi { job with result := result }
  have hreg := h.registered.perm hself
  have hne : ∀ f ∈ ({ w with flushes := w.flushes.eraseIdx i } : World).files,
      f.1 ≠ job.number := fun f hf => by
    have hn := hreg.nodup
    rw [List.map_cons, List.nodup_cons] at hn
    exact fun heq => hn.1 (List.mem_map.2 ⟨f, hf, heq⟩)
  have htable : ∀ t, ({ job with result := result } : FlushJob).table = some t →
      result = .opened t := by
    intro t ht
    cases result with
    | opened t' => exact congrArg _ (Option.some.inj ht)
    | building => cases ht
    | failed => cases ht
  have hfill : Registered (w.disk.run ops) w.db.nextFileNumber
      ((job.number, ({ job with result := result } : FlushJob).table) ::
        ({ w with flushes := w.flushes.eraseIdx i } : World).files) :=
    hreg.fill (fun f hf => hops f.1 (hne f hf)) fun t ht => ho t (htable t ht)
  refine h.keep rfl hm (le_refl _) (hfill.perm hperm.symm) (fun f hf => Or.inr ?_)
    fun job hjob t ht => Or.inr ⟨job, hjob, ht⟩
  rcases List.mem_cons.1 (hperm.mem_iff.1 hf) with rfl | hf
  · exact ⟨_, hself.mem_iff.2 List.mem_cons_self, rfl⟩
  · exact ⟨f, hself.mem_iff.2 (List.mem_cons_of_mem _ hf), rfl⟩

/-- The table of a flush enters L0. -/
theorem Files.flushCommitted (h : w.Files) {i : ℕ} {job : FlushJob} {t : SSTable}
    (hi : w.flushes[i]? = some job) (ht : job.result = .opened t) : (w.flushCommitted i t).Files := by
  have hself := files_flush_self hi
  have hjob : (job.number, job.table) = (t.number, some t) := by
    have htable : job.table = some t := by rw [FlushJob.table, ht]
    have hmem : (job.number, some t) ∈ w.files := by
      rw [← htable]; exact hself.mem_iff.2 List.mem_cons_self
    rw [htable, (h.registered.onDisk _ _ hmem).1]
  have hl0 : (w.flushCommitted i t).db.levels.tables =
      w.db.levels.l0 ++ ([t] ++ (w.db.levels.l1 ++ w.db.levels.deeper.flatten)) := by
    simp [World.flushCommitted, Levels.tables, Levels.toList]
  have hperm : w.files.Perm (w.flushCommitted i t).files := by
    have hlevels : (numbered (w.flushCommitted i t).db.levels.tables).Perm
        ((t.number, some t) :: numbered w.db.levels.tables) := by
      have htables : w.db.levels.tables =
          w.db.levels.l0 ++ (w.db.levels.l1 ++ w.db.levels.deeper.flatten) := by
        simp [Levels.tables, Levels.toList]
      rw [hl0, htables, numbered_append, numbered_append w.db.levels.l0 (w.db.levels.l1 ++ _)]
      exact List.perm_middle
    rw [hjob] at hself
    exact hself.trans (hlevels.append_right _).symm
  refine Files.rewrite h.deeper ?_ ?_ fun job hjob s hs => ?_
  · rw [flushCommitted_disk]
  · exact (h.registered.change fun f _ => by rw [flushCommitted_disk]).perm hperm
  · refine (h.snapshot job hjob s hs).imp (fun hs => List.mem_append_left _ hs) fun ⟨hlt, hnone⟩ =>
      ⟨hlt, fun f hf => hnone f (hperm.mem_iff.2 hf)⟩

/-- A flush ends without a table. -/
theorem Files.flushRemoved (h : w.Files) (i : ℕ) {db : DB} {disk : Disk}
    (hl : db.levels = w.db.levels) (hn : db.nextFileNumber = w.db.nextFileNumber)
    (hs : disk.ssts = w.disk.ssts)
    (hm : disk.manifest = w.disk.manifest ∨ disk.manifest = some db.manifestLines) :
    ({ w with db := db, disk := disk, flushes := w.flushes.eraseIdx i } : World).Files := by
  set w' : World := { w with db := db, disk := disk, flushes := w.flushes.eraseIdx i } with hw'
  have hsub : w'.files.Sublist w.files := by
    simp only [files, hw', hl]
    exact (((List.eraseIdx_sublist _ _).map _).append_right _).append_left _
  have hreg : Registered w'.disk w'.db.nextFileNumber w'.files := by
    have hd : Registered disk w.db.nextFileNumber w.files := h.registered.change fun f _ => by rw [hs]
    rw [hw', hn]
    exact ⟨hd.nodup.sublist (hsub.map _), fun f hf => hd.lt f (hsub.subset hf),
      fun n t ht => hd.onDisk n t (hsub.subset ht)⟩
  rcases hm with hm | hm
  · exact h.keep hl hm hn.ge hreg (fun f hf => Or.inr ⟨f, hsub.subset hf, rfl⟩)
      fun job hjob t ht => Or.inr ⟨job, hjob, ht⟩
  · refine Files.rewrite (hl ▸ h.deeper) hm hreg fun job hjob t ht => ?_
    refine (h.snapshot job hjob t ht).imp (fun ht => hl ▸ ht) fun ⟨hlt, hnone⟩ =>
      ⟨hn ▸ hlt, fun f hf => hnone f (hsub.subset hf)⟩

theorem Files.compactionBegun (h : w.Files) (rest : List (Bytes × Bytes)) :
    ({ w with compactions := w.compactions ++ [newCompaction w.db rest] } : World).Files := by
  have hfiles : ({ w with compactions := w.compactions ++ [newCompaction w.db rest] } : World).files =
      w.files := by
    simp [files, newCompaction]
  refine h.keep rfl rfl (le_refl _) (by rw [hfiles]; exact h.registered)
    (fun f hf => Or.inr ⟨f, hfiles ▸ hf, rfl⟩) fun job hjob t ht => ?_
  rcases List.mem_append.1 hjob with hjob | hjob
  · exact Or.inr ⟨job, hjob, ht⟩
  · obtain rfl := List.mem_singleton.1 hjob
    exact Or.inl ht

/-- A compaction has written an output, or given up. -/
theorem Files.outputWritten (h : w.Files) {i : ℕ} {job job' : CompactionJob}
    (hi : w.compactions[i]? = some job) (hsnap : job'.l0Snapshot = job.l0Snapshot)
    {ops : List FsOp} (hm : (w.disk.run ops).manifest = w.disk.manifest)
    (hops : ∀ n, n ≠ w.db.nextFileNumber → (w.disk.run ops).ssts n = w.disk.ssts n)
    (hout : job'.newLevel1 = job.newLevel1 ∨ ∃ t, job'.newLevel1 = job.newLevel1 ++ [t] ∧
      t.number = w.db.nextFileNumber ∧ (w.disk.run ops).ssts w.db.nextFileNumber = some t.data ∧
      SSTable.openFile w.db.nextFileNumber t.data = .ok t) :
    (w.outputWritten i job' ops).Files := by
  have hself := files_compaction_self hi
  have hperm := files_compaction hi job'
  have hreg : Registered (w.disk.run ops) w.db.nextFileNumber w.files :=
    h.registered.change fun f hf => hops f.1 (h.registered.lt f hf).ne
  have hall : Registered (w.disk.run ops) (w.db.nextFileNumber + 1) (w.outputWritten i job' ops).files ∧
      ∀ f ∈ (w.outputWritten i job' ops).files,
        f.1 = w.db.nextFileNumber ∨ ∃ g ∈ w.files, g.1 = f.1 := by
    rcases hout with hout | ⟨t, hout, hnum, hfile, hopen⟩
    · have hsame : w.files.Perm (w.outputWritten i job' ops).files := by
        rw [hout] at hperm
        exact hself.trans hperm.symm
      exact ⟨(hreg.perm hsame).mono (Nat.le_succ _), fun f hf =>
        Or.inr ⟨f, hsame.mem_iff.2 hf, rfl⟩⟩
    · have hnew : ((w.db.nextFileNumber, some t) :: w.files).Perm
          (w.outputWritten i job' ops).files := by
        rw [hout, numbered_append, List.append_assoc] at hperm
        refine (hself.cons _).trans (List.Perm.trans ?_ hperm.symm)
        rw [← hnum]
        exact List.perm_middle.symm
      refine ⟨(hreg.cons fun s hs => ?_).perm hnew, fun f hf => ?_⟩
      · obtain rfl := Option.some.inj hs
        exact ⟨hnum, hfile, hopen⟩
      · rcases List.mem_cons.1 (hnew.mem_iff.2 hf) with rfl | hf
        · exact Or.inl rfl
        · exact Or.inr ⟨f, hf, rfl⟩
  refine h.keep rfl hm (Nat.le_succ _) hall.1 hall.2 fun c hc t ht => ?_
  -- snapshots are those of before
  rcases List.mem_or_eq_of_mem_set hc with hc | rfl
  · exact Or.inr ⟨c, hc, ht⟩
  · exact Or.inr ⟨job, List.mem_of_getElem? hi, hsnap ▸ ht⟩

/-- A failed compaction unlinks its outputs. -/
theorem Files.compactionFailed (h : w.Files) {i : ℕ} {job : CompactionJob}
    (hi : w.compactions[i]? = some job) : (w.compactionFailed i job).Files := by
  have hself := files_compaction_self hi
  obtain ⟨-, hm, hs⟩ := Disk.run_unlink w.disk job.newLevel1
  have hreg := h.registered.perm hself
  refine h.keep rfl hm (le_refl _) ?_ (fun f hf => Or.inr ⟨f, ?_, rfl⟩) fun c hc t ht =>
    Or.inr ⟨c, List.mem_of_mem_eraseIdx hc, ht⟩
  · refine hreg.right.change fun f hf => ?_
    have hne : f.1 ∉ job.newLevel1.map (·.number) := by
      intro hmem
      obtain ⟨t, ht, heq⟩ := List.mem_map.1 hmem
      exact hreg.disjoint (List.mem_map_of_mem (f := fun t => (t.number, some t)) ht) hf heq.symm
    exact (hs f.1).trans (if_neg hne)
  · exact hself.mem_iff.2 (List.mem_append_right _ hf)

/-- The files that a compaction's commit unlinks, then the MANIFEST. -/
theorem compactionCommitted_disk (w : World) (i : ℕ) (job : CompactionJob) {gone1 : List SSTable}
    (hops : (w.db.compactCommit job.l0Snapshot job.l1Indices job.newLevel1).2 =
      (job.l0Snapshot ++ gone1).map (fun t => .unlinkSst t.number) ++
        (w.db.compactCommit job.l0Snapshot job.l1Indices job.newLevel1).1.writeManifest) :
    (w.compactionCommitted i job).disk =
      { w.disk.run ((job.l0Snapshot ++ gone1).map fun t => .unlinkSst t.number) with
        manifest := some (w.compactionCommitted i job).db.manifestLines } := by
  have hdb : (w.compactionCommitted i job).db =
    (w.db.compactCommit job.l0Snapshot job.l1Indices job.newLevel1).1 := rfl
  rw [hdb, ← Disk.run_writeManifest, ← Disk.run_append, ← hops]
  rfl

/-- The tables that leave at a commit, and the numbers that stay. -/
theorem Files.commit_files (h : w.Files) {i : ℕ} {job : CompactionJob}
    (hi : w.compactions[i]? = some job) {gone0 gone1 : List SSTable}
    (hperm0 : w.db.levels.l0.Perm (gone0 ++ (w.compactionCommitted i job).db.levels.l0))
    (hperm1 : (w.db.levels.l1 ++ job.newLevel1).Perm
      (gone1 ++ (w.compactionCommitted i job).db.levels.l1)) :
    w.files.Perm (numbered (gone0 ++ gone1) ++ (w.compactionCommitted i job).files) := by
  set db' := (w.compactionCommitted i job).db with hdb'
  have hdeeper : db'.levels.deeper = [[], []] := h.deeper
  have htables : (job.newLevel1 ++ w.db.levels.tables).Perm ((gone0 ++ gone1) ++ db'.levels.tables) := by
    rw [tables_eq h.deeper, tables_eq hdeeper]
    calc (job.newLevel1 ++ (w.db.levels.l0 ++ w.db.levels.l1)).Perm
          (w.db.levels.l0 ++ (job.newLevel1 ++ w.db.levels.l1)) := List.perm_append_comm_assoc _ _ _
      _ |>.Perm (w.db.levels.l0 ++ (w.db.levels.l1 ++ job.newLevel1)) :=
          List.perm_append_comm.append_left _
      _ |>.Perm ((gone0 ++ db'.levels.l0) ++ (gone1 ++ db'.levels.l1)) := hperm0.append hperm1
      _ |>.Perm ((gone0 ++ gone1) ++ (db'.levels.l0 ++ db'.levels.l1)) := by
          rw [List.append_assoc, List.append_assoc]
          exact (List.perm_append_comm_assoc _ _ _).append_left _
  have h2 := numbered_perm htables
  rw [numbered_append, numbered_append] at h2
  refine (files_compaction_self hi).trans ?_
  rw [files, ← List.append_assoc, files, ← List.append_assoc (numbered (gone0 ++ gone1))]
  exact h2.append_right _

/-- **The commit of a compaction** unlinks only files that `levels_` no longer refers to. -/
theorem Files.compactionCommitted (h : w.Files) {i : ℕ} {job : CompactionJob}
    (hi : w.compactions[i]? = some job) : (w.compactionCommitted i job).Files := by
  obtain ⟨gone0, gone1, hperm0, hperm1, hall, hsub, hsub1, -, hops⟩ :=
    compactCommit_spec w.db job.l0Snapshot job.l1Indices job.newLevel1
  set w' := w.compactionCommitted i job with hw'
  have hdeeper : w'.db.levels.deeper = [[], []] := h.deeper
  have hfiles : w.files.Perm (numbered (gone0 ++ gone1) ++ w'.files) := h.commit_files hi hperm0 hperm1
  have hreg := h.registered.perm hfiles
  have hgone : ∀ t ∈ gone0 ++ gone1, ∀ f ∈ w'.files, f.1 ≠ t.number := fun t ht f hf =>
    hreg.disjoint (List.mem_map_of_mem (f := fun t => (t.number, some t)) ht) hf
  -- a table of the snapshot that is no longer in L0 has no number any more
  have hsnap : ∀ t ∈ job.l0Snapshot, ∀ f ∈ w'.files, f.1 ≠ t.number := by
    intro t ht f hf
    rcases h.snapshot job (List.mem_of_getElem? hi) t ht with ht0 | ⟨-, hnone⟩
    · exact hgone t (List.mem_append_left _ (hall t ht ht0)) f hf
    · exact hnone f (hfiles.mem_iff.2 (List.mem_append_right _ hf))
  obtain ⟨-, -, hs⟩ := Disk.run_unlink w.disk (job.l0Snapshot ++ gone1)
  have hdisk := compactionCommitted_disk w i job hops
  refine Files.rewrite hdeeper (by rw [hdisk]) ?_ fun c hc t ht => ?_
  · refine hreg.right.change fun f hf => ?_
    have hne : f.1 ∉ (job.l0Snapshot ++ gone1).map (·.number) := by
      intro hmem
      obtain ⟨t, ht, heq⟩ := List.mem_map.1 hmem
      rcases List.mem_append.1 ht with ht | ht
      · exact hsnap t ht f hf heq.symm
      · exact hgone t (List.mem_append_right _ ht) f hf heq.symm
    rw [hdisk]
    exact (hs f.1).trans (if_neg hne)
  · rcases h.snapshot c (List.mem_of_mem_eraseIdx hc) t ht with ht0 | ⟨hlt, hnone⟩
    · rcases List.mem_append.1 (hperm0.mem_iff.1 ht0) with hg | hk
      · exact Or.inr ⟨h.lt_next (l0_subset_tables ht0), hgone t (List.mem_append_left _ hg)⟩
      · exact Or.inl hk
    · exact Or.inr ⟨hlt, fun f hf => hnone f (hfiles.mem_iff.2 (List.mem_append_right _ hf))⟩

/-- Replaying a log changes the memtable and the sequence number. -/
theorem replayAll_frame (db : DB) (rs : List Record) (heights : ℕ → ℕ) :
    ∃ mem seq, db.replayAll rs heights = { db with mem := mem, lastSequence := seq } := by
  have hfold : ∀ (l : List (Record × ℕ)) (db : DB), ∃ mem seq,
      l.foldl (fun db r => db.replay r.1 (heights r.2)) db =
        { db with mem := mem, lastSequence := seq } := by
    intro l
    induction l with
    | nil => exact fun db => ⟨db.mem, db.lastSequence, rfl⟩
    | cons r l ih =>
      intro db
      obtain ⟨mem, seq, h⟩ := ih (db.replay r.1 (heights r.2))
      refine ⟨mem, seq, h.trans ?_⟩
      rw [DB.replay]
      split <;> rfl
  exact hfold _ db

/-- What every add keeps, a replayed log keeps. -/
theorem replayAll_mem {P : MemTable → Prop} (hadd : ∀ m u v height, P m → P (m.add u v height)) {db : DB}
    (h : P db.mem) (rs : List Record) (heights : ℕ → ℕ) : P (db.replayAll rs heights).mem := by
  have hfold : ∀ (l : List (Record × ℕ)) (db : DB), P db.mem →
      P (l.foldl (fun db r => db.replay r.1 (heights r.2)) db).mem := by
    intro l
    induction l with
    | nil => exact fun _ h => h
    | cons r l ih =>
      intro db h
      have hreplay : P (db.replay r.1 (heights r.2)).mem := by
        rw [DB.replay]
        split <;> exact hadd _ _ _ _ h
      exact ih _ hreplay
  exact hfold _ db h

/-- What opening makes of the MANIFEST and the log that it names. -/
theorem recover_eq (options : Options) (heights : ℕ → ℕ) {disk : Disk} {m : Manifest}
    (hm : disk.readManifest = .ok m) :
    ∃ mem seq, (∃ db, DB.replayAll
        { options := options, levels := m.levels, nextFileNumber := m.nextFileNumber, walNumber := m.walNumber }
        (((disk.logs m.walNumber).map WALReader.recover).getD []) heights = db ∧
          mem = db.mem ∧ seq = db.lastSequence) ∧
      DB.recover options disk heights = .ok
        ({ options := options
           levels := m.levels
           nextFileNumber := m.nextFileNumber
           walNumber := m.walNumber
           wal := some m.walNumber
           mem := mem
           lastSequence := seq }, [.openLog m.walNumber]) := by
  simp only [DB.recover, hm, bind, Except.bind]
  cases disk.logs m.walNumber with
  | none => exact ⟨_, _, ⟨_, rfl, rfl, rfl⟩, rfl⟩
  | some file =>
    obtain ⟨mem, seq, hrep⟩ := replayAll_frame
      { options := options, levels := m.levels, nextFileNumber := m.nextFileNumber, walNumber := m.walNumber }
      (WALReader.recover file) heights
    simp only [Option.map_some, Option.getD_some, hrep]
    exact ⟨mem, seq, ⟨_, rfl, rfl, rfl⟩, rfl⟩

/-- A database that has opened is what `recover_eq` says. -/
theorem recover_ok {options : Options} {disk : Disk} {heights : ℕ → ℕ} {db : DB} {ops : List FsOp}
    (h : DB.recover options disk heights = .ok (db, ops)) :
    ∃ (m : Manifest) (mem : MemTable) (seq : SequenceNumber), mem = (DB.replayAll
        { options := options, levels := m.levels, nextFileNumber := m.nextFileNumber, walNumber := m.walNumber }
        (((disk.logs m.walNumber).map WALReader.recover).getD []) heights).mem ∧
      db =
        { options := options
          levels := m.levels
          nextFileNumber := m.nextFileNumber
          walNumber := m.walNumber
          wal := some m.walNumber
          mem := mem
          lastSequence := seq } := by
  obtain ⟨m, hm, -⟩ := Checked.bind_eq_ok h
  obtain ⟨mem, seq, ⟨_, rfl, hmem, -⟩, heq⟩ := recover_eq options heights hm
  rw [heq] at h
  exact ⟨m, mem, seq, hmem, (Prod.ext_iff.1 (Except.ok.inj h)).1.symm⟩

/-- **Opening the database again keeps `levels_`.** -/
theorem Files.recover (h : w.Files) {next wal : ℕ} (hrec : w.Recorded next wal)
    (options : Options) (heights : ℕ → ℕ) :
    ∃ mem seq, DB.recover options w.disk heights = .ok
      ({ options := options
         levels := w.db.levels
         nextFileNumber := next
         walNumber := wal
         wal := some wal
         mem := mem
         lastSequence := seq }, [.openLog wal]) := by
  obtain ⟨mem, seq, -, heq⟩ := recover_eq options heights (h.readManifest hrec)
  exact ⟨mem, seq, heq⟩

theorem Files.reopened (h : w.Files) (hf : w.flushes = []) (hc : w.compactions = [])
    {options : Options} {heights : ℕ → ℕ} {db : DB} {ops : List FsOp}
    (hrec : DB.recover options w.disk heights = .ok (db, ops)) :
    ({ w with db := db, disk := w.disk.run ops } : World).Files := by
  obtain ⟨next, wal, hrecorded, hle, hlt⟩ := h.recorded
  obtain ⟨mem, seq, heq⟩ := h.recover hrecorded options heights
  obtain ⟨rfl, rfl⟩ : _ = db ∧ _ = ops := by
    rw [heq] at hrec
    exact Prod.ext_iff.1 (Except.ok.inj hrec)
  have hfiles : w.files = numbered w.db.levels.tables := by simp [files, hf, hc, numbered]
  refine ⟨?_, by simp [hc], h.deeper, next, wal, hrecorded, le_refl _, hlt⟩
  have hreg := h.registered
  simp only [hfiles] at hreg
  simp only [files, hf, hc, List.map_nil, List.flatMap_nil, numbered, List.append_nil]
  refine ⟨hreg.nodup, fun f hfm => ?_, hreg.onDisk⟩
  obtain ⟨t, ht, rfl⟩ := mem_numbered hfm
  exact hlt t ht

/-- **No step brings the files out of order.** -/
theorem Files.step (h : w.Files) {l : Label} (hstep : w.step l = some w') : w'.Files := by
  cases step_event hstep with
  | wrote => exact h.quiet rfl rfl rfl rfl rfl rfl
  | waits => exact h.quiet rfl rfl rfl rfl rfl rfl
  | rotated => exact h.quiet rfl rfl rfl rfl rfl rfl
  | rotateFailed => exact h.quiet rfl rfl rfl rfl rfl rfl
  | flushBegun => exact h.flushBegun _ _
  | @flushBuilt i job faults t hjob _ _ hopen =>
    obtain ⟨hnum, hdata⟩ := SSTable.openFile_ok hopen
    refine h.flushBuilt hjob (fun n hn => Function.update_of_ne hn _ _) rfl fun s hs => ?_
    obtain rfl := FlushResult.opened.inj hs
    exact ⟨hnum, by rw [hdata]; exact Function.update_self _ _ _, by rw [hdata]; exact hopen⟩
  | @flushNotBuilt i job faults opens ops hjob _ _ hops =>
    refine h.flushBuilt hjob (fun n hn => ?_) ?_ (by simp)
    · rcases hops with rfl | rfl
      · exact Function.update_of_ne hn _ _
      · exact (Function.update_of_ne hn _ _).trans (Function.update_of_ne hn _ _)
    · rcases hops with rfl | rfl <;> rfl
  | flushCommitted hjob hres _ => exact h.flushCommitted hjob hres
  | flushFailed => exact h.flushRemoved _ rfl rfl rfl (Or.inl rfl)
  | @flushDropped i =>
    have hdisk := flushDropped_disk w i
    refine h.flushRemoved _ rfl rfl ?_ (Or.inr ?_)
    · exact (congrArg Disk.ssts hdisk).trans rfl
    · exact (congrArg Disk.manifest hdisk).trans rfl
  | compactionBegun => exact h.compactionBegun _
  | @outputWritten i job faults t b rest hjob _ _ _ hopen =>
    obtain ⟨hnum, hdata⟩ := SSTable.openFile_ok hopen
    refine h.outputWritten hjob ?_ ?_ (fun n hn => ?_) (Or.inr ⟨t, ?_, hnum, ?_, hdata ▸ hopen⟩)
    · rfl
    · rfl
    · exact Function.update_of_ne hn _ _
    · rfl
    · rw [hdata]
      exact Function.update_self _ _ _
  | outputFailed hjob =>
    refine h.outputWritten hjob ?_ ?_ (fun n hn => ?_) (Or.inl ?_)
    · rfl
    · rfl
    · exact (Function.update_of_ne hn _ _).trans (Function.update_of_ne hn _ _)
    · rfl
  | compactionCommitted hjob => exact h.compactionCommitted hjob
  | compactionFailed hjob => exact h.compactionFailed hjob
  | reopened _ hf hc _ hrec => exact h.reopened hf hc hrec

/-- **The files are in order in every reachable state.** -/
theorem files_of_reach {ok : World → Label → Prop} {options : Options}
    (h : Reach World.step ok (fresh options) w) : w.Files :=
  Reach.invariant (fresh_files options) (fun _ _ _ hf _ hs => hf.step hs) h

end World

end MiniLSM
