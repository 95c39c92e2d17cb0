import MiniLSM.Lib.Counter
import MiniLSM.Proof.Crash
import MiniLSM.Proof.Manifest
import MiniLSM.Proof.RefCount
import MiniLSM.Spec.Faults

/-!
# File numbers under faults

A number is handed out once, and `WriteManifest` prints the counter below the tables. So
whatever is lost in a crash, the counter read back is above every number that the MANIFEST
lists, and no builder is opened on a file that is in use.

* `readManifest_numbers`: what `ReadManifest` brings back.
* `Fresh.step`: a step keeps pending numbers out of use.
* `builder_path_ne`: the path of a builder is that of no table in use.
-/

namespace MiniLSM

open Transition

/-! ## The counter in the MANIFEST -/

/-- The table that a line lists. -/
def ManifestLine.number : ManifestLine → Option ℕ
  | .table _ n _ _ => some n
  | _ => none

theorem named_eq (disk : Disk) : disk.named = (disk.manifest.getD []).filterMap ManifestLine.number := rfl

/-- `next_file_number_` behind a line. -/
def ManifestLine.count (n : ℕ) : ManifestLine → ℕ
  | .nextFileNumber m => m
  | _ => n

/-- The file number that `ReadManifest` takes from the MANIFEST. -/
def Disk.counter (disk : Disk) : ℕ := (disk.manifest.getD []).foldl ManifestLine.count 1

theorem counter_of_written {disk : Disk} {db : DB} (h : disk.manifest = some db.manifestLines) :
    disk.counter = db.nextFileNumber := by
  rw [Disk.counter, h, Option.getD_some, DB.manifestLines, List.foldl_append]
  rfl

theorem mem_flatten_modify {ls : List (List SSTable)} {n : ℕ} {t u : SSTable}
    (h : u ∈ (ls.modify n (· ++ [t])).flatten) : u ∈ ls.flatten ∨ u = t := by
  induction ls generalizing n with
  | nil => simp at h
  | cons l ls ih =>
    cases n with
    | zero =>
      simp only [List.modify_zero_cons, List.flatten_cons, List.mem_append, List.mem_singleton] at h ⊢
      tauto
    | succ n =>
      simp only [List.modify_succ_cons, List.flatten_cons, List.mem_append] at h ⊢
      rcases h with h | h
      · exact Or.inl (Or.inl h)
      · exact (ih h).imp_left Or.inr

theorem mem_push {levels : Levels} {level : ℕ} {t u : SSTable} (h : u ∈ (levels.push level t).tables) :
    u ∈ levels.tables ∨ u = t := by
  match level with
  | 0 =>
    simp only [Levels.push, Levels.tables, Levels.toList, List.flatten_cons, List.mem_append,
      List.mem_singleton] at h ⊢
    tauto
  | 1 =>
    simp only [Levels.push, Levels.tables, Levels.toList, List.flatten_cons, List.mem_append,
      List.mem_singleton] at h ⊢
    tauto
  | n + 2 =>
    simp only [Levels.push, Levels.tables, Levels.toList, List.flatten_cons, List.mem_append] at h ⊢
    rcases h with h | h | h
    · exact Or.inl (Or.inl h)
    · exact Or.inl (Or.inr (Or.inl h))
    · have hpad : ∀ (l : List (List SSTable)) (k : ℕ), (l ++ List.replicate k []).flatten = l.flatten := by
        intro l k
        rw [List.flatten_append, List.flatten_replicate_nil, List.append_nil]
      rcases mem_flatten_modify h with h | h
      · rw [hpad] at h
        exact Or.inl (Or.inr (Or.inr h))
      · exact Or.inr h

/-- **What `ReadManifest` brings back**: the counter as it stands in the file, and tables that
the file lists. -/
theorem readManifest_numbers {disk : Disk} {m : Manifest} (h : disk.readManifest = .ok m) :
    m.nextFileNumber = disk.counter ∧ ∀ t ∈ m.levels.tables, t.number ∈ disk.named := by
  have hfold : ∀ (lines : List ManifestLine) (m m' : Manifest),
      lines.foldlM (Manifest.readLine disk) m = .ok m' →
        m'.nextFileNumber = lines.foldl ManifestLine.count m.nextFileNumber ∧
          ∀ t ∈ m'.levels.tables,
            t ∈ m.levels.tables ∨ t.number ∈ lines.filterMap ManifestLine.number := by
    intro lines
    induction lines with
    | nil =>
      intro m m' h
      obtain rfl := Except.ok.inj h
      exact ⟨rfl, fun t ht => Or.inl ht⟩
    | cons line lines ih =>
      intro m m' h
      rw [List.foldlM_cons] at h
      obtain ⟨m₁, hline, h⟩ := Checked.bind_eq_ok h
      obtain ⟨hnext, htables⟩ := ih m₁ m' h
      -- a line sets the counter, or adds a table under its number
      have hone : m₁.nextFileNumber = line.count m.nextFileNumber ∧
          ∀ t ∈ m₁.levels.tables, t ∈ m.levels.tables ∨ line.number = some t.number := by
        cases line with
        | nextFileNumber n =>
          obtain rfl := Except.ok.inj hline
          exact ⟨rfl, fun t ht => Or.inl ht⟩
        | walNumber n =>
          obtain rfl := Except.ok.inj hline
          exact ⟨rfl, fun t ht => Or.inl ht⟩
        | table level number firstKey lastKey =>
          simp only [Manifest.readLine] at hline
          split at hline
          · obtain rfl := Except.ok.inj hline
            exact ⟨rfl, fun t ht => Or.inl ht⟩
          · split at hline
            · rename_i t hopen
              obtain rfl := Except.ok.inj hline
              refine ⟨rfl, fun u hu => ?_⟩
              rcases mem_push hu with hu | rfl
              · exact Or.inl hu
              · exact Or.inr (congrArg some (SSTable.openFile_ok hopen).1.symm)
            · obtain rfl := Except.ok.inj hline
              exact ⟨rfl, fun t ht => Or.inl ht⟩
            · cases hline
      refine ⟨?_, ?_⟩
      · rw [hnext, hone.1, List.foldl_cons]
      · intro t ht
        rcases htables t ht with ht | ht
        · refine (hone.2 t ht).imp_right fun heq => List.mem_filterMap.2 ⟨line, List.mem_cons_self, heq⟩
        · obtain ⟨l, hl, heq⟩ := List.mem_filterMap.1 ht
          exact Or.inr (List.mem_filterMap.2 ⟨l, List.mem_cons_of_mem _ hl, heq⟩)
  obtain ⟨hnext, htables⟩ := hfold _ _ _ h
  refine ⟨hnext, fun t ht => ?_⟩
  rcases htables t ht with ht | ht
  · simp [Levels.tables, Levels.toList] at ht
  · exact ht

theorem mem_held {w : World} {t : SSTable} : t ∈ w.held ↔ t ∈ w.db.levels.tables ∨
    (∃ job ∈ w.flushes, job.table = some t) ∨ ∃ job ∈ w.compactions, t ∈ job.held := by
  rw [World.held, List.mem_append, List.mem_append, List.mem_filterMap, List.mem_flatMap]

namespace Faulty

variable {s s' : Faulty} {w w' : World}

/-! ## The invariant -/

/-- The numbers of tables that somebody holds or that the MANIFEST on disk lists. -/
def Used (w : World) (n : ℕ) : Prop := n ∈ w.disk.named ∨ ∃ t ∈ w.held, t.number = n

/-- **Pending numbers are fresh**, and the counter in the MANIFEST is above what it lists. -/
structure Fresh (s : Faulty) : Prop where
  numbers : Counter.Fresh s.world.db.nextFileNumber s.pending (Used s.world)
  persisted : ∀ n ∈ s.world.disk.named, n < s.world.disk.counter

/-- The MANIFEST behind a section: as before, or just written. -/
def Rewritten (w w' : World) : Prop :=
  w'.disk.manifest = w.disk.manifest ∨ w'.disk.manifest = some w'.db.manifestLines

/-- What a MANIFEST lists behind a section is in use already. -/
theorem Rewritten.named (h : Rewritten w w') {n : ℕ} (hn : n ∈ w'.disk.named) :
    n ∈ w.disk.named ∨ ∃ t ∈ w'.held, t.number = n := by
  rcases h with h | h
  · rw [named_eq, h] at hn
    exact Or.inl hn
  · have hall : w'.disk.manifest = some (w'.db.manifestLines.take w'.db.manifestLines.length) := by
      rw [List.take_length, h]
    obtain ⟨t, ht, heq⟩ := number_of_mem_named hall hn
    exact Or.inr ⟨t, mem_held.2 (Or.inl ht), heq⟩

theorem Rewritten.used (h : Rewritten w w') {P : ℕ → Prop} (hheld : ∀ t ∈ w'.held, P t.number)
    (hnamed : ∀ n ∈ w.disk.named, P n) (n : ℕ) (hn : Used w' n) : P n := by
  rcases hn with hn | ⟨t, ht, rfl⟩
  · rcases h.named hn with hn | ⟨t, ht, rfl⟩
    · exact hnamed n hn
    · exact hheld t ht
  · exact hheld t ht

theorem Rewritten.persisted (h : Rewritten w w') (hold : ∀ n ∈ w.disk.named, n < w.disk.counter)
    (hlt : ∀ n, Used w' n → n < w'.db.nextFileNumber) : ∀ n ∈ w'.disk.named, n < w'.disk.counter := by
  intro n hn
  rcases h with h | h
  · rw [named_eq, h] at hn
    rw [Disk.counter, h]
    exact hold n hn
  · rw [counter_of_written h]
    exact hlt n (Or.inl hn)

/-- What a section does to the numbers. -/
inductive Effect (s s' : Faulty) : Prop
  /-- It makes no table. -/
  | quiet : s.world.db.nextFileNumber ≤ s'.world.db.nextFileNumber → s'.pending.Subperm s.pending →
      (∀ t ∈ s'.world.held, t ∈ s.world.held) → Effect s s'
  /-- It takes a number. -/
  | take : s'.world.db.nextFileNumber = s.world.db.nextFileNumber + 1 →
      s'.pending.Perm (s.world.db.nextFileNumber :: s.pending) →
      (∀ t ∈ s'.world.held, t ∈ s.world.held) → Effect s s'
  /-- It makes a table under a pending number. -/
  | fill {n : ℕ} : s'.world.db.nextFileNumber = s.world.db.nextFileNumber →
      s.pending.Perm (n :: s'.pending) → (∀ t ∈ s'.world.held, t ∈ s.world.held ∨ t.number = n) →
      Effect s s'

theorem Effect.keepManifest {ms : List Merging} (h : Effect s ⟨w', ms⟩) (b : Bool) :
    Effect s ⟨Faulty.keepManifest s.world w' b, ms⟩ := by
  unfold Faulty.keepManifest
  cases b with
  | true => exact h
  | false =>
    cases h with
    | quiet hnext hp hheld => exact .quiet hnext hp hheld
    | take hnext hp hheld => exact .take hnext hp hheld
    | fill hnext hp hheld => exact .fill hnext hp hheld

theorem Rewritten.keepManifest (h : Rewritten w w') (b : Bool) :
    Rewritten w (Faulty.keepManifest w w' b) := by
  unfold Faulty.keepManifest
  cases b with
  | true => exact h
  | false => exact Or.inl rfl

theorem Fresh.effect (h : s.Fresh) (he : Effect s s') (hman : Rewritten s.world s'.world) : s'.Fresh := by
  have hnumbers : Counter.Fresh s'.world.db.nextFileNumber s'.pending (Used s'.world) := by
    cases he with
    | quiet hnext hp hheld =>
      refine h.numbers.mono hnext hp (hman.used ?_ ?_)
      · exact fun t ht => Or.inr ⟨t, hheld t ht, rfl⟩
      · exact fun n hn => Or.inl hn
    | take hnext hp hheld =>
      refine h.numbers.take.mono hnext.ge hp.subperm (hman.used ?_ ?_)
      · exact fun t ht => Or.inr ⟨t, hheld t ht, rfl⟩
      · exact fun n hn => Or.inl hn
    | @fill n hnext hp hheld =>
      have hfill := (h.numbers.mono le_rfl hp.symm.subperm fun _ hm => hm).fill
      refine hfill.mono hnext.ge (List.Subperm.refl _) (hman.used ?_ ?_)
      · exact fun t ht => (hheld t ht).imp_left fun ht => Or.inr ⟨t, ht, rfl⟩
      · exact fun m hm => Or.inl (Or.inl hm)
  exact ⟨hnumbers, hman.persisted h.persisted hnumbers.used_lt⟩

theorem manifest_of_recover {options : Options} {disk : Disk} {heights : ℕ → ℕ} {db : DB}
    {ops : List FsOp} (hrec : DB.recover options disk heights = .ok (db, ops)) (disk' : Disk) :
    (disk'.run ops).manifest = disk'.manifest := by
  obtain ⟨m, hread, -⟩ := Checked.bind_eq_ok hrec
  obtain ⟨mem, seq, -, heq⟩ := World.recover_eq options heights hread
  rw [heq] at hrec
  obtain ⟨-, rfl⟩ := Prod.ext_iff.1 (Except.ok.inj hrec)
  rfl

/-- **An opening takes its counter from the MANIFEST.** -/
theorem fresh_of_recover {options : Options} {disk : Disk} {heights : ℕ → ℕ} {db : DB} {ops : List FsOp}
    (hpersisted : ∀ n ∈ disk.named, n < disk.counter)
    (hrec : DB.recover options disk heights = .ok (db, ops)) (hdb : w.db = db) (hf : w.flushes = [])
    (hc : w.compactions = []) (hm : w.disk.manifest = disk.manifest) : Fresh { world := w } := by
  obtain ⟨m, hread, -⟩ := Checked.bind_eq_ok hrec
  obtain ⟨mem, seq, -, heq⟩ := World.recover_eq options heights hread
  obtain ⟨hcounter, hlisted⟩ := readManifest_numbers hread
  have hnamed : w.disk.named = disk.named := by rw [named_eq, hm, named_eq]
  have hsame : w.disk.counter = disk.counter := by rw [Disk.counter, hm, Disk.counter]
  rw [heq] at hrec
  obtain ⟨rfl, -⟩ := Prod.ext_iff.1 (Except.ok.inj hrec)
  have hnext : w.db.nextFileNumber = disk.counter := by
    rw [hdb]
    exact hcounter
  have hlevels : w.db.levels = m.levels := by rw [hdb]
  have hpending : pending { world := w } = [] := by
    simp only [pending, hf, List.filterMap_nil, List.append_nil]
  refine ⟨?_, by rw [hnamed, hsame]; exact hpersisted⟩
  rw [hpending]
  refine Counter.Fresh.restart fun n hn => ?_
  rw [hnext]
  apply hpersisted
  rcases hn with hn | ⟨t, ht, rfl⟩
  · exact hnamed ▸ hn
  · rcases mem_held.1 ht with ht | ⟨job, hjob, -⟩ | ⟨job, hjob, -⟩
    · exact hlisted t (hlevels ▸ ht)
    · exact absurd hjob (by simp [hf])
    · exact absurd hjob (by simp [hc])

/-! ## Every step -/

theorem numberOf_building {job : FlushJob} (h : job.result = .building) : numberOf job = some job.number := by
  rw [numberOf, h]

theorem filterMap_perm_of_get {α : Type} (f : α → Option ℕ) {l : List α} {i : ℕ} {x : α} {n : ℕ}
    (hi : l[i]? = some x) (hx : f x = some n) :
    (l.filterMap f).Perm (n :: (l.eraseIdx i).filterMap f) := by
  obtain ⟨hlt, rfl⟩ := List.getElem?_eq_some_iff.1 hi
  have hperm := (List.getElem_cons_eraseIdx_perm hlt).symm.filterMap f
  rwa [List.filterMap_cons_some hx] at hperm

theorem filterMap_perm_of_none {α : Type} (f : α → Option ℕ) {l : List α} {i : ℕ} {x : α}
    (hi : l[i]? = some x) (hx : f x = none) : (l.filterMap f).Perm ((l.eraseIdx i).filterMap f) := by
  obtain ⟨hlt, rfl⟩ := List.getElem?_eq_some_iff.1 hi
  have hperm := (List.getElem_cons_eraseIdx_perm hlt).symm.filterMap f
  rwa [List.filterMap_cons_none hx] at hperm

theorem filterMap_set_some {α : Type} (f : α → Option ℕ) {l : List α} {i : ℕ} {x y : α} {n : ℕ}
    (hi : l[i]? = some x) (hy : f y = some n) :
    ((l.set i y).filterMap f).Perm (n :: (l.eraseIdx i).filterMap f) := by
  obtain ⟨hlt, -⟩ := List.getElem?_eq_some_iff.1 hi
  have hperm := (List.set_perm_cons_eraseIdx hlt y).filterMap f
  rwa [List.filterMap_cons_some hy] at hperm

theorem filterMap_set_none {α : Type} (f : α → Option ℕ) {l : List α} {i : ℕ} {x y : α}
    (hi : l[i]? = some x) (hy : f y = none) :
    ((l.set i y).filterMap f).Perm ((l.eraseIdx i).filterMap f) := by
  obtain ⟨hlt, -⟩ := List.getElem?_eq_some_iff.1 hi
  have hperm := (List.set_perm_cons_eraseIdx hlt y).filterMap f
  rwa [List.filterMap_cons_none hy] at hperm

/-- Sections that leave flushes, tables and the counter alone. -/
theorem Effect.same (ms : List Merging) (hnext : w'.db.nextFileNumber = w.db.nextFileNumber)
    (hflushes : w'.flushes = w.flushes) (hheld : w'.held = w.held) : Effect ⟨w, ms⟩ ⟨w', ms⟩ := by
  refine .quiet hnext.ge ?_ fun t ht => hheld ▸ ht
  show (w'.flushes.filterMap numberOf ++ _).Subperm _
  rw [hflushes]
  exact List.Subperm.refl _

/-- The end of a flush. -/
theorem Effect.flushEnd (ms : List Merging) {i : ℕ} (hnext : w'.db.nextFileNumber = w.db.nextFileNumber)
    (hflushes : w'.flushes = w.flushes.eraseIdx i) (hcompactions : w'.compactions = w.compactions)
    (hheld : ∀ t ∈ w'.db.levels.tables, t ∈ w.held) : Effect ⟨w, ms⟩ ⟨w', ms⟩ := by
  refine .quiet hnext.ge ?_ fun t ht => ?_
  · show (w'.flushes.filterMap numberOf ++ _).Subperm _
    rw [hflushes]
    exact (((List.eraseIdx_sublist _ _).filterMap _).append_right _).subperm
  · rcases mem_held.1 ht with ht | ⟨job, hjob, ht⟩ | ⟨job, hjob, ht⟩
    · exact hheld t ht
    · rw [hflushes] at hjob
      exact mem_held.2 (Or.inr (Or.inl ⟨job, List.mem_of_mem_eraseIdx hjob, ht⟩))
    · exact mem_held.2 (Or.inr (Or.inr ⟨job, hcompactions ▸ hjob, ht⟩))

/-- A flush has built its table, or given up. -/
theorem Effect.flushBuilt (ms : List Merging) {i : ℕ} {job : FlushJob} {result : FlushResult}
    {ops : List FsOp} (hi : w.flushes[i]? = some job) (hjob : job.result = .building)
    (hdone : numberOf { job with result := result } = none)
    (htable : ∀ t, result = .opened t → t.number = job.number) :
    Effect ⟨w, ms⟩ ⟨w.flushBuilt i job result ops, ms⟩ := by
  have hold := filterMap_perm_of_get numberOf hi (numberOf_building hjob)
  have hnew := filterMap_set_none numberOf hi hdone
  refine @Effect.fill _ _ job.number rfl ?_ fun t ht => ?_
  · exact (hold.append_right _).trans ((hnew.symm.append_right _).cons _)
  · rcases mem_held.1 ht with ht | ⟨j, hj, ht⟩ | ht
    · exact Or.inl (mem_held.2 (Or.inl ht))
    · rcases List.mem_or_eq_of_mem_set hj with hj | rfl
      · exact Or.inl (mem_held.2 (Or.inr (Or.inl ⟨j, hj, ht⟩)))
      · exact Or.inr (htable t (FlushJob.result_of_table ht))
    · exact Or.inl (mem_held.2 (Or.inr (Or.inr ht)))

/-- **The steps of the database** that are neither a compaction's nor an opening. -/
theorem effect_of_event {l : MiniLSM.Label} (h : World.Event w l w') (ms : List Merging)
    (hend : ∀ i, l ≠ .compactEnd i) (hout : ∀ i faults opens, l ≠ .compactOutput i faults opens)
    (hbegin : l ≠ .compactBegin) (hreopen : ∀ options heights, l ≠ .reopen options heights) :
    Rewritten w w' ∧ Effect ⟨w, ms⟩ ⟨w', ms⟩ := by
  cases h with
  | wrote => exact ⟨Or.inl rfl, .same ms rfl rfl rfl⟩
  | waits => exact ⟨Or.inl rfl, .same ms rfl rfl rfl⟩
  | rotated => exact ⟨Or.inl rfl, .same ms rfl rfl rfl⟩
  | rotateFailed => exact ⟨Or.inl rfl, .same ms rfl rfl rfl⟩
  | @flushBegun path m himm hfree =>
    refine ⟨Or.inl rfl, .take rfl ?_ fun t ht => ?_⟩
    · show ((w.flushes ++ [_]).filterMap numberOf ++ _).Perm _
      rw [List.filterMap_append, List.append_assoc]
      exact List.perm_middle
    · rcases mem_held.1 ht with ht | ⟨job, hjob, ht⟩ | ht
      · exact mem_held.2 (Or.inl ht)
      · rcases List.mem_append.1 hjob with hjob | hjob
        · exact mem_held.2 (Or.inr (Or.inl ⟨job, hjob, ht⟩))
        · obtain rfl := List.mem_singleton.1 hjob
          cases ht
      · exact mem_held.2 (Or.inr (Or.inr ht))
  | flushBuilt hi hjob _ hopen =>
    refine ⟨Or.inl rfl, .flushBuilt ms hi hjob rfl fun t ht => ?_⟩
    cases ht
    exact (SSTable.openFile_ok hopen).1
  | flushNotBuilt hi hjob _ hops =>
    refine ⟨?_, .flushBuilt ms hi hjob rfl fun t ht => by cases ht⟩
    rcases hops with rfl | rfl <;> exact Or.inl rfl
  | @flushCommitted i job t m hi hjob himm =>
    refine ⟨Or.inr (by rw [World.flushCommitted_disk]), .flushEnd ms rfl rfl rfl fun u hu => ?_⟩
    simp only [World.flushCommitted, Levels.tables, Levels.toList, List.flatten_cons, List.mem_append,
      List.mem_singleton] at hu
    rcases hu with (hu | rfl) | hu
    · exact mem_held.2 (Or.inl (World.l0_subset_tables hu))
    · exact mem_held.2 (Or.inr (Or.inl ⟨job, List.mem_of_getElem? hi, by rw [FlushJob.table, hjob]⟩))
    · exact mem_held.2 (Or.inl (List.mem_append_right w.db.levels.l0 (List.mem_append.2 hu)))
  | flushFailed => exact ⟨Or.inl rfl, .flushEnd ms rfl rfl rfl fun t ht => mem_held.2 (Or.inl ht)⟩
  | flushDropped =>
    refine ⟨Or.inr (by rw [World.flushDropped_disk]), .flushEnd ms rfl rfl rfl fun t ht => ?_⟩
    exact mem_held.2 (Or.inl ht)
  | compactionBegun => exact absurd rfl hbegin
  | outputWritten => exact absurd rfl (hout _ _ _)
  | outputFailed => exact absurd rfl (hout _ _ _)
  | compactionCommitted => exact absurd rfl (hend _)
  | compactionFailed => exact absurd rfl (hend _)
  | reopened => exact absurd rfl (hreopen _ _)

/-! ## The steps of a compaction -/

/-- The last section of a compaction. -/
theorem effect_of_compactEnd {i : ℕ} (h : w.step (.compactEnd i) = some w') (ms : List Merging) :
    Rewritten w w' ∧ Effect ⟨w, ms⟩ ⟨w', ms.eraseIdx i⟩ := by
  have hpending : ∀ w'' : World, w''.flushes = w.flushes →
      (pending ⟨w'', ms.eraseIdx i⟩).Subperm (pending ⟨w, ms⟩) := by
    intro w'' hflushes
    show (w''.flushes.filterMap numberOf ++ _).Subperm _
    rw [hflushes]
    exact (((List.eraseIdx_sublist _ _).filterMap _).append_left _).subperm
  obtain ⟨job, hi, ⟨-, rfl⟩ | ⟨-, rfl⟩⟩ := World.compactEnd_cases h
  · obtain ⟨gone0, gone1, hl0, hl1, -, -, -, -, hops⟩ :=
      World.compactCommit_spec w.db job.l0Snapshot job.l1Indices job.newLevel1
    refine ⟨Or.inr (by rw [World.compactionCommitted_disk w i job hops]), .quiet le_rfl (hpending _ rfl)
      fun t ht => ?_⟩
    have hjob : job ∈ w.compactions := List.mem_of_getElem? hi
    rcases mem_held.1 ht with ht | ht | ⟨job', hjob', ht⟩
    · -- what L1 gains are the outputs
      have ht : t ∈ (w.compactionCommitted i job).db.levels.l0 ∨
          t ∈ (w.compactionCommitted i job).db.levels.l1 ∨ t ∈ w.db.levels.deeper.flatten := by
        rw [Levels.tables, Levels.toList, List.flatten_cons, List.flatten_cons, List.mem_append,
          List.mem_append] at ht
        exact ht
      rcases ht with ht | ht | ht
      · exact mem_held.2 (Or.inl (World.l0_subset_tables (hl0.mem_iff.2 (List.mem_append_right _ ht))))
      · rcases List.mem_append.1 (hl1.mem_iff.2 (List.mem_append_right _ ht)) with ht | ht
        · exact mem_held.2 (Or.inl (World.l1_subset_tables ht))
        · exact mem_held.2 (Or.inr (Or.inr ⟨job, hjob,
            List.mem_append_right _ (List.mem_append_right _ ht)⟩))
      · exact mem_held.2 (Or.inl (List.mem_append_right w.db.levels.l0 (List.mem_append_right _ ht)))
    · exact mem_held.2 (Or.inr (Or.inl ht))
    · exact mem_held.2 (Or.inr (Or.inr ⟨job', List.mem_of_mem_eraseIdx hjob', ht⟩))
  · obtain ⟨-, hm, -⟩ := Disk.run_unlink w.disk job.newLevel1
    refine ⟨Or.inl hm, .quiet le_rfl (hpending _ rfl) fun t ht => ?_⟩
    rcases mem_held.1 ht with ht | ht | ⟨job', hjob', ht⟩
    · exact mem_held.2 (Or.inl ht)
    · exact mem_held.2 (Or.inr (Or.inl ht))
    · exact mem_held.2 (Or.inr (Or.inr ⟨job', List.mem_of_mem_eraseIdx hjob', ht⟩))

theorem beginCompaction_eq_some {reads : SSTable → Bytes} (h : s.beginCompaction reads = some s') :
    s.world.db.levels.l0 ≠ [] ∧ ∃ rest, s' =
      { world := { s.world with compactions := s.world.compactions ++ [World.newCompaction s.world.db rest] }
        merging := s.merging ++ [{ reads := reads }] } := by
  unfold beginCompaction at h
  simp only at h
  split at h
  · cases h
  · split at h
    · cases h
    · rename_i hne
      split at h
      · rename_i rest hrest
        exact ⟨hne, rest, (Option.some.inj h).symm⟩
      · cases h

theorem effect_of_beginCompaction {reads : SSTable → Bytes} (h : s.beginCompaction reads = some s') :
    Rewritten s.world s'.world ∧ Effect s s' := by
  obtain ⟨-, rest, rfl⟩ := beginCompaction_eq_some h
  refine ⟨Or.inl rfl, .quiet le_rfl ?_ fun t ht => ?_⟩
  · show (_ ++ (s.merging ++ [_]).filterMap _).Subperm _
    rw [List.filterMap_append]
    simp only [List.filterMap_cons_none, List.filterMap_nil, List.append_nil]
    exact List.Subperm.refl _
  · rcases mem_held.1 ht with ht | ht | ⟨job, hjob, ht⟩
    · exact mem_held.2 (Or.inl ht)
    · exact mem_held.2 (Or.inr (Or.inl ht))
    · rcases List.mem_append.1 hjob with hjob | hjob
      · exact mem_held.2 (Or.inr (Or.inr ⟨job, hjob, ht⟩))
      · -- a snapshot is taken from `levels_`
        obtain rfl := List.mem_singleton.1 hjob
        refine mem_held.2 (Or.inl ?_)
        simp only [CompactionJob.held, World.newCompaction, List.append_nil, List.mem_append] at ht
        rcases ht with ht | ht
        · exact World.l0_subset_tables ht
        · exact World.l1_subset_tables (World.l1Inputs_subset _ _ ht)

theorem takeNumber_eq_some {i : ℕ} (h : s.takeNumber i = some s') :
    ∃ m, s.merging[i]? = some m ∧ m.number = none ∧ s' =
      { world := { s.world with
          db := { s.world.db with nextFileNumber := s.world.db.nextFileNumber + 1 } }
        merging := s.merging.set i { m with number := some s.world.db.nextFileNumber } } := by
  unfold takeNumber at h
  obtain ⟨job, hjob, h⟩ := Option.bind_eq_some_iff.1 h
  obtain ⟨m, hm, h⟩ := Option.bind_eq_some_iff.1 h
  split at h
  · cases h
  · rename_i hfree
    have hnone : m.number = none := by
      cases hn : m.number with
      | none => rfl
      | some n => exact absurd (by simp [hn]) hfree
    exact ⟨m, hm, hnone, (Option.some.inj h).symm⟩

theorem effect_of_takeNumber {i : ℕ} (h : s.takeNumber i = some s') :
    Rewritten s.world s'.world ∧ Effect s s' := by
  obtain ⟨m, hm, hnone, rfl⟩ := takeNumber_eq_some h
  refine ⟨Or.inl rfl, .take rfl ?_ fun t ht => ht⟩
  have hset := filterMap_set_some Merging.number hm
    (show Merging.number { m with number := some s.world.db.nextFileNumber } = _ from rfl)
  have hself := filterMap_perm_of_none Merging.number hm hnone
  exact ((hset.trans (hself.symm.cons _)).append_left _).trans List.perm_middle

/-- An output is built under the number that was taken for it. -/
theorem writeOutput_eq_some {i : ℕ} {faults : ℕ → Option ℕ} {opens : Bool}
    (h : s.writeOutput i faults opens = some s') :
    ∃ m n job job' ops, s.merging[i]? = some m ∧ m.number = some n ∧ s.world.compactions[i]? = some job ∧
      job'.l0Snapshot = job.l0Snapshot ∧ job'.l1Snapshot = job.l1Snapshot ∧
      (job'.newLevel1 = job.newLevel1 ∨ ∃ t, job'.newLevel1 = job.newLevel1 ++ [t] ∧ t.number = n) ∧
      (s.world.disk.run ops).manifest = s.world.disk.manifest ∧
      s' = { world := { s.world with
               disk := s.world.disk.run ops
               compactions := s.world.compactions.set i job' }
             merging := s.merging.set i { m with number := none } } := by
  unfold writeOutput at h
  obtain ⟨m, hm, h⟩ := Option.bind_eq_some_iff.1 h
  obtain ⟨n, hn, h⟩ := Option.bind_eq_some_iff.1 h
  obtain ⟨w', hw, h⟩ := Option.bind_eq_some_iff.1 h
  have hstep : ({ s.world with db := { s.world.db with nextFileNumber := n } } : World).step
      (.compactOutput i faults opens) = some w' := hw
  cases World.step_event hstep with
  | rotated hl => rcases hl with ⟨hl, -⟩ | ⟨i, hl, -⟩ <;> cases hl
  | rotateFailed hl => rcases hl with ⟨hl, -⟩ | ⟨i, hl, -⟩ <;> cases hl
  | @outputWritten _ job _ t b rest hi hbusy hfill hok hopen =>
    exact ⟨m, n, job, { job with rest := rest, newLevel1 := job.newLevel1 ++ [t] }, _, hm, hn, hi, rfl, rfl,
      Or.inr ⟨t, rfl, (SSTable.openFile_ok hopen).1⟩, rfl, (Option.some.inj h).symm⟩
  | @outputFailed _ job _ _ b rest hi hbusy hfill hbad =>
    exact ⟨m, n, job, { job with rest := rest, failed := true }, _, hm, hn, hi, rfl, rfl, Or.inl rfl, rfl,
      (Option.some.inj h).symm⟩

theorem effect_of_writeOutput {i : ℕ} {faults : ℕ → Option ℕ} {opens : Bool}
    (h : s.writeOutput i faults opens = some s') : Rewritten s.world s'.world ∧ Effect s s' := by
  obtain ⟨m, n, job, job', ops, hm, hn, hi, h0, h1, hout, hman, rfl⟩ := writeOutput_eq_some h
  refine ⟨Or.inl hman, @Effect.fill _ _ n rfl ?_ fun t ht => ?_⟩
  · have hold := filterMap_perm_of_get Merging.number hm hn
    have hnew := filterMap_set_none Merging.number hm
      (show Merging.number { m with number := none } = none from rfl)
    exact ((hold.trans (hnew.symm.cons _)).append_left _).trans List.perm_middle
  · have hjob : job ∈ s.world.compactions := List.mem_of_getElem? hi
    rcases mem_held.1 ht with ht | ht | ⟨j, hj, hu⟩
    · exact Or.inl (mem_held.2 (Or.inl ht))
    · exact Or.inl (mem_held.2 (Or.inr (Or.inl ht)))
    · rcases List.mem_or_eq_of_mem_set hj with hj | rfl
      · exact Or.inl (mem_held.2 (Or.inr (Or.inr ⟨j, hj, hu⟩)))
      · -- its snapshots are those of before, and it has at most one table more
        have hmem : t ∈ job.held ∨ t.number = n := by
          unfold CompactionJob.held at hu
          rw [h0, h1] at hu
          rcases hout with hout | ⟨o, hout, ho⟩
          · rw [hout] at hu
            exact Or.inl hu
          · rw [hout, ← List.append_assoc, ← List.append_assoc, List.mem_append, List.mem_singleton,
              List.append_assoc] at hu
            rcases hu with hu | rfl
            · exact Or.inl hu
            · exact Or.inr ho
        exact hmem.imp_left fun hu => mem_held.2 (Or.inr (Or.inr ⟨job, hjob, hu⟩))

/-! ## Runs -/

theorem fresh_fresh (options : Options) : Fresh (fresh options) := by
  refine ⟨Counter.Fresh.restart fun n hn => ?_, by simp [fresh, World.fresh, named_eq, Disk.run, FsOp.apply]⟩
  rcases hn with hn | ⟨t, ht, -⟩
  · simp [fresh, World.fresh, named_eq, Disk.run, FsOp.apply] at hn
  · simp [fresh, World.fresh, World.held, Levels.tables, Levels.toList] at ht

/-- **No step uses a pending number**, whatever fails. -/
theorem Fresh.step (h : s.Fresh) {l : Label} (hstep : s.step l = some s') : s'.Fresh := by
  cases l with
  | base l b =>
    cases l with
    | compactOutput i faults opens => cases hstep
    | compactBegin => cases hstep
    | compactEnd i =>
      obtain ⟨w', hw, hs⟩ := Option.bind_eq_some_iff.1 hstep
      obtain rfl := Option.some.inj hs
      obtain ⟨hman, heff⟩ := effect_of_compactEnd hw s.merging
      exact h.effect (heff.keepManifest b) (hman.keepManifest b)
    | reopen options heights =>
      obtain ⟨w', hw, hs⟩ := Option.bind_eq_some_iff.1 hstep
      obtain rfl := Option.some.inj hs
      obtain ⟨hf, hc, db, ops, hrec, rfl⟩ := World.reopen_cases hw
      exact fresh_of_recover h.persisted hrec rfl hf hc (manifest_of_recover hrec _)
    | _ =>
      obtain ⟨w', hw, hs⟩ := Option.bind_eq_some_iff.1 hstep
      obtain rfl := Option.some.inj hs
      obtain ⟨hman, heff⟩ := effect_of_event (World.step_event hw) s.merging (by simp) (by simp) (by simp)
        (by simp)
      exact h.effect (heff.keepManifest b) (hman.keepManifest b)
  | compactBegin reads =>
    obtain ⟨hman, heff⟩ := effect_of_beginCompaction hstep
    exact h.effect heff hman
  | takeNumber i =>
    obtain ⟨hman, heff⟩ := effect_of_takeNumber hstep
    exact h.effect heff hman
  | compactOutput i faults opens =>
    obtain ⟨hman, heff⟩ := effect_of_writeOutput hstep
    exact h.effect heff hman
  | crash disk options heights =>
    unfold Faulty.step at hstep
    simp only at hstep
    split at hstep
    case isFalse => cases hstep
    case isTrue hman =>
      split at hstep
      case h_2 => cases hstep
      case h_1 r hrec =>
        obtain rfl := Option.some.inj hstep
        have hpersisted : ∀ n ∈ disk.named, n < disk.counter := by
          rw [named_eq, Disk.counter, hman]
          exact h.persisted
        exact fresh_of_recover hpersisted hrec rfl rfl rfl (manifest_of_recover hrec _)

theorem fresh_of_reach {ok : Faulty → Label → Prop} {options : Options}
    (h : Reach step ok (fresh options) s) : s.Fresh :=
  Reach.invariant (fresh_fresh options) (fun _ _ _ hf _ hs => hf.step hs) h

end Faulty

/-! ## Paths -/

namespace Faulty

variable {s : Faulty}

/-- **No builder is opened on a table in use**: in every reachable state, the path of a pending
number is that of no table of `levels_` and of none that the MANIFEST on disk lists. -/
theorem builder_path_ne {options : Options} (h : Reach step (fun _ _ => True) (fresh options) s) {n : ℕ}
    (hn : n ∈ s.pending) {dbPath : Bytes} (hwhole : (wholeFileName dbPath n).length ≤ 127) :
    (∀ t ∈ s.world.db.levels.tables, (wholeFileName dbPath t.number).length ≤ 127 →
      sstableFileName dbPath t.number ≠ sstableFileName dbPath n) ∧
    ∀ m ∈ s.world.disk.named, (wholeFileName dbPath m).length ≤ 127 →
      sstableFileName dbPath m ≠ sstableFileName dbPath n := by
  have hunused := (fresh_of_reach h).numbers.unused n hn
  refine ⟨?_, ?_⟩
  · intro t ht hshort heq
    obtain rfl := sstableFileName_inj hshort hwhole heq
    exact hunused (Or.inr ⟨t, mem_held.2 (Or.inl ht), rfl⟩)
  · intro m hm hshort heq
    obtain rfl := sstableFileName_inj hshort hwhole heq
    exact hunused (Or.inl hm)

/-- A flush, a crash that keeps its table, and the next flush. -/
def crashRun : List Label :=
  [.base (.write (.put [107] [118]) 1 true) true, .base (.flushBegin .background) true,
    .base (.flushBuild 0 (fun _ => none) true) true, .base (.flushEnd 0) true,
    .crash
      { manifest := some [.table 0 1 [] [], .nextFileNumber 2, .walNumber 2]
        ssts := Function.update (fun _ => none) 1 (some (DB.buildTable MemTable.new fun _ => none).2) }
      { writeBufferSize := 1 } fun _ => 1,
    .base (.write (.put [107] [119]) 1 true) true, .base (.flushBegin .background) true]

theorem builder_path_ne_crashRun : ∃ s,
    run step (fun _ _ => True) (fresh { writeBufferSize := 1 }) crashRun = some s ∧ s.pending = [2] ∧
      s.world.db.levels.tables.map (·.number) = [1] ∧ s.world.disk.named = [1] ∧
      (∀ t ∈ s.world.db.levels.tables, (wholeFileName (ascii "db") t.number).length ≤ 127 →
        sstableFileName (ascii "db") t.number ≠ sstableFileName (ascii "db") 2) ∧
      ∀ m ∈ s.world.disk.named, (wholeFileName (ascii "db") m).length ≤ 127 →
        sstableFileName (ascii "db") m ≠ sstableFileName (ascii "db") 2 := by
  have hrun : (run step (fun _ _ => True) (fresh { writeBufferSize := 1 }) crashRun).map
      (fun s => (s.pending, s.world.db.levels.tables.map (·.number), s.world.disk.named)) =
        some ([2], [1], [1]) := by decide +kernel
  obtain ⟨s, hs, hvalues⟩ := Option.map_eq_some_iff.1 hrun
  simp only [Prod.mk.injEq] at hvalues
  obtain ⟨hp, hl, hn⟩ := hvalues
  have hmem : 2 ∈ s.pending := by rw [hp]; exact List.mem_singleton_self 2
  obtain ⟨h1, h2⟩ := builder_path_ne (reach_of_run hs) hmem
    (show (wholeFileName (ascii "db") 2).length ≤ 127 by decide +kernel)
  exact ⟨s, hs, hp, hl, hn, h1, h2⟩

end Faulty

end MiniLSM
