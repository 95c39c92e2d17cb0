import MiniLSM.Proof.LiveScan
import MiniLSM.Proof.Log
import MiniLSM.Proof.OpenDatabase
import MiniLSM.Proof.FileTree

/-!
# Opening a database from its bytes

`openDB_mirrors`: where the lines of the MANIFEST are clear, `DB::Open` on the files ends as opening
the disk does.

* `openDB_of_crash`: so it does behind a crash between any two file operations of any run.
* `openDB_restores`: a database that is closed while `imm_` is null comes back from its bytes with the
  same answers.
-/

namespace MiniLSM

open Transition

/-! ## Opening a table by its path -/

/-- The number of a table does not show in what is read of its file. -/
theorem SSTable.openFile_number (number : ℕ) (data : Bytes) :
    openFile number data = (fun t => { t with number := number }) <$> openFile 0 data := by
  simp only [openFile, pure_bind, Checked.throw_bind, readBlock]
  split
  · rfl
  split
  · rfl
  split
  · rfl
  split
  case h_2 => rfl
  split
  · rfl
  split
  · rfl
  rw [map_bind]
  congr 1
  funext entries
  split
  · split
    · rw [map_bind]
      congr 1
      funext firstKey
      split
      · rfl
      · split <;> rfl
    · split
      · rfl
      · split <;> rfl
    · rfl
  · split
    · rfl
    · split <;> rfl

/-- A table as `ReadManifest` opens it: with its path in place of its number. -/
def SSTable.byPath (dbPath : Bytes) (t : SSTable) : OpenTable :=
  { filePath := sstableFileName dbPath t.number, table := { t with number := 0 } }

/-- **A call that ends as `x` does**: with a result related to that of `x`, or, where `x` fails, not at
all. -/
def Mirrors {α β : Type} (R : α → β → Prop) (o : Option α) : Checked β → Prop
  | .ok b => ∃ a, o = some a ∧ R a b
  | .error _ => o = none

theorem Mirrors.bind {α β γ δ : Type} {R : α → β → Prop} {S : γ → δ → Prop} {o : Option α} {x : Checked β}
    {f : α → Option γ} {g : β → Checked δ} (h : Mirrors R o x) (hf : ∀ a b, R a b → Mirrors S (f a) (g b)) :
    Mirrors S (o >>= f) (x >>= g) := by
  cases x with
  | ok b =>
    obtain ⟨a, rfl, hab⟩ := h
    exact hf a b hab
  | error e =>
    obtain rfl : o = none := h
    rfl

theorem Mirrors.foldlM {α β γ δ : Type} {R : α → β → Prop} {f : α → γ → Option α} {g : β → δ → Checked β}
    (pieces : δ → List γ) {ds : List δ}
    (hstep : ∀ d ∈ ds, ∀ a b, R a b → Mirrors R ((pieces d).foldlM f a) (g b d)) {a : α} {b : β} (h : R a b) :
    Mirrors R ((ds.flatMap pieces).foldlM f a) (ds.foldlM g b) := by
  induction ds generalizing a b with
  | nil => exact ⟨a, rfl, h⟩
  | cons d ds ih =>
    rw [List.flatMap_cons, List.foldlM_append, List.foldlM_cons]
    refine (hstep d List.mem_cons_self a b h).bind fun a b hab => ih ?_ hab
    exact fun d hd => hstep d (List.mem_cons_of_mem _ hd)

namespace ManifestText

variable {dbPath : Bytes} {disk : Disk} {tree : FileTree}

/-- A path opens to the table of its number. -/
theorem openPath_eq (h : Represents dbPath disk tree) {number : ℕ} (hn : number < 2 ^ 64) :
    OpenTable.openPath tree (sstableFileName dbPath number) =
      match disk.ssts number with
      | none => .ok none
      | some data =>
        match SSTable.openFile number data with
        | .ok t => .ok (some (t.byPath dbPath))
        | .error (.status _) => .ok none
        | .error f => .error f := by
  unfold OpenTable.openPath
  rw [h.ssts number hn]
  cases disk.ssts number with
  | none => rfl
  | some data =>
    simp only [SSTable.openFile_number number]
    cases hopen : SSTable.openFile 0 data with
    | error e => cases e <;> rfl
    | ok t =>
      have hself : { t with number := 0 } = t := by rw [← (SSTable.openFile_ok hopen).1]
      simp only [Functor.map, Except.map, SSTable.byPath, hself]

/-! ## The lines -/

/-- The text of a line without its newline. -/
def body (dbPath : Bytes) : ManifestLine → Bytes
  | .table level number firstKey lastKey =>
    Text.decimal level ++ 32 :: cString (sstableFileName dbPath number) ++ 32 :: cString firstKey ++
      32 :: cString lastKey
  | .nextFileNumber n => ascii "next_file_number: " ++ Text.decimal (UInt64.ofNat n).toNat
  | .walNumber n => ascii "wal_number: " ++ Text.decimal (UInt64.ofNat n).toNat

theorem text_eq_body (line : ManifestLine) : line.text dbPath = body dbPath line ++ [10] := by
  cases line <;> rfl

theorem text_next (n : ℕ) : (ManifestLine.nextFileNumber n).text dbPath =
    numberLine (ascii "next_file_number:") (UInt64.ofNat n).toNat := by
  simp [ManifestLine.text, numberLine, ascii]

theorem text_wal (n : ℕ) : (ManifestLine.walNumber n).text dbPath =
    numberLine (ascii "wal_number:") (UInt64.ofNat n).toNat := by
  simp [ManifestLine.text, numberLine, ascii]

theorem zero_notMem_text (line : ManifestLine) : ∀ b ∈ line.text dbPath, b ≠ 0 := by
  intro b hb
  cases line with
  | table level number firstKey lastKey => exact zero_notMem_tableLine _ _ b hb
  | nextFileNumber n =>
    simp only [ManifestLine.text, List.mem_append, List.mem_singleton] at hb
    rcases hb with (hb | hb) | rfl
    · rintro rfl
      exact absurd hb (by decide)
    · exact zero_notMem_decimal _ b hb
    · decide
  | walNumber n =>
    simp only [ManifestLine.text, List.mem_append, List.mem_singleton] at hb
    rcases hb with (hb | hb) | rfl
    · rintro rfl
      exact absurd hb (by decide)
    · exact zero_notMem_decimal _ b hb
    · decide

/-- **Every line is read for itself.** -/
theorem readLines_text (lines : List ManifestLine) :
    readLines tree (lines.flatMap (·.text dbPath)) =
      (lines.flatMap fun line => fgetsAll (line.text dbPath)).foldlM (readLine tree) {} := by
  have hpieces : fgetsAll (lines.flatMap (·.text dbPath)) =
      lines.flatMap fun line => fgetsAll (line.text dbPath) := by
    simp only [text_eq_body]
    have hlines := fgetsAll_lines (body dbPath) lines []
    rwa [List.append_nil, show fgetsAll [] = [] from rfl, List.append_nil] at hlines
  unfold readLines
  rw [← hpieces, ManifestText.lines, List.map_congr_left (g := id) ?_, List.map_id]
  intro buf hbuf
  refine cString_eq fun b hb => ?_
  obtain ⟨line, -, hline⟩ := List.mem_flatMap.1 (Text.mem_of_mem_pieces hbuf hb)
  exact zero_notMem_text line b hline

/-- A whole row, whether its path opens or not. -/
theorem readLine_of_row {files : Bytes → Option Bytes} {buf : Bytes} {level : ℕ} {path : Bytes}
    (hrow : readRow (trim buf) = some ((level : ℤ), path)) (hlevel : level < 2 ^ 31 - 1) (m : Restored) :
    readLine files m buf =
      match OpenTable.openPath files path with
      | .error _ => none
      | .ok none => some m
      | .ok (some t) => some { m with levels := pushBack m.levels level t } := by
  have hempty : trim buf ≠ [] := by
    intro h
    rw [h] at hrow
    cases hrow
  have hnext : ¬(ascii "next_file_number:").isPrefixOf (trim buf) = true := fun h => by
    rw [readRow_next h] at hrow
    cases hrow
  have hwal : ¬(ascii "wal_number:").isPrefixOf (trim buf) = true := fun h => by
    rw [readRow_wal h] at hrow
    cases hrow
  simp only [readLine, hempty, hnext, hwal, hrow, Bool.false_eq_true, if_false]
  cases OpenTable.openPath files path with
  | error e => rfl
  | ok o =>
    cases o with
    | none => rfl
    | some t =>
      have hgrows : ¬((level : ℤ) < 0 ∨ (level : ℤ) = 2 ^ 31 - 1) := by omega
      simp only [hgrows, if_false, Int.toNat_natCast]

/-- The first piece of a legible line is read as its row. -/
theorem readRow_first {level number : ℕ} {t : OpenTable} (hname : t.filePath = sstableFileName dbPath number)
    (h : Legible level t) : ∃ first, fgetsAll (tableLine level t) = first :: behind level t ∧
      readRow (trim first) = some ((level : ℤ), t.filePath) := by
  have hlevel := h.level_lt
  have hbound : level < 2 ^ 64 := by omega
  obtain ⟨e, he, hall⟩ := fgetsAll_tableLine hbound hname h.path
  refine ⟨_, hall, ?_⟩
  have hspace : ∀ b ∈ e, isSpace b := fun b hb => by rw [he b hb]; decide
  have hrow := readRow_row (hname ▸ sstableFileName_ne_nil dbPath number) h.path level
    (trim (keysRead level t ++ e))
  rw [twoWords_trim, twoWords_append hspace, if_pos ⟨by omega, h.keys⟩] at hrow
  rw [trim_blank]
  exact hrow

/-- **A line that is read as it was meant**: the line of a table is legible, and what is left of it behind
its first piece changes nothing. -/
def Clear (dbPath : Bytes) (tree : FileTree) : ManifestLine → Prop
  | .table level number firstKey lastKey =>
    Legible level (namedTable dbPath number firstKey lastKey) ∧
      ∀ buf ∈ behind level (namedTable dbPath number firstKey lastKey), ∀ m, readLine tree m buf = some m
  | _ => True

/-- A legible line that is read in one piece. -/
theorem clear_of_short (tree : FileTree) {level number : ℕ} {firstKey lastKey : Bytes}
    (hleg : Legible level (namedTable dbPath number firstKey lastKey))
    (hshort : behind level (namedTable dbPath number firstKey lastKey) = []) :
    Clear dbPath tree (.table level number firstKey lastKey) := by
  refine ⟨hleg, fun buf hbuf => ?_⟩
  rw [hshort] at hbuf
  cases hbuf

theorem foldlM_quiet {files : Bytes → Option Bytes} {bufs : List Bytes}
    (h : ∀ buf ∈ bufs, ∀ m, readLine files m buf = some m) (m : Restored) :
    bufs.foldlM (readLine files) m = some m := by
  induction bufs with
  | nil => rfl
  | cons buf bufs ih =>
    rw [List.foldlM_cons, h buf List.mem_cons_self m]
    exact ih fun b hb => h b (List.mem_cons_of_mem _ hb)

/-- What `ReadManifest` has set, by paths and by numbers. -/
structure Is (dbPath : Bytes) (m : Restored) (m' : Manifest) : Prop where
  levels : m.levels = m'.levels.toList.map fun tables => tables.map (·.byPath dbPath)
  nextFileNumber : m.nextFileNumber.toNat = m'.nextFileNumber
  walNumber : m.walNumber.toNat = m'.walNumber

theorem Is.empty (dbPath : Bytes) : Is dbPath {} {} := ⟨rfl, rfl, rfl⟩

theorem pushBack_byPath (levels : Levels) (level : ℕ) (t : SSTable) :
    pushBack (levels.toList.map fun tables => tables.map (·.byPath dbPath)) level (t.byPath dbPath) =
      (levels.push level t).toList.map fun tables => tables.map (·.byPath dbPath) := by
  match level with
  | 0 => simp [pushBack, Levels.toList, Levels.push]
  | 1 => simp [pushBack, Levels.toList, Levels.push]
  | n + 2 =>
    have hmodify : ∀ tables : List (List SSTable),
        (tables.map fun ts => ts.map (·.byPath dbPath)).modify n (· ++ [t.byPath dbPath]) =
          (tables.modify n (· ++ [t])).map fun ts => ts.map (·.byPath dbPath) := by
      intro tables
      apply List.ext_getElem?
      intro i
      rw [List.getElem?_map, List.getElem?_modify, List.getElem?_modify, List.getElem?_map]
      by_cases hi : n = i <;> cases tables[i]? <;> simp [hi]
    have hdeeper := hmodify (levels.deeper ++ List.replicate (n + 1 - levels.deeper.length) [])
    rw [List.map_append, List.map_replicate, List.map_nil] at hdeeper
    simp [pushBack, Levels.toList, Levels.push, hdeeper]

/-- **One line** does the same by paths and by numbers. -/
theorem line_mirrors (h : Represents dbPath disk tree) {line : ManifestLine} (hrange : line.InRange)
    (hclear : Clear dbPath tree line) {m : Restored} {m' : Manifest} (hm : Is dbPath m m') :
    Mirrors (Is dbPath) ((fgetsAll (line.text dbPath)).foldlM (readLine tree) m) (m'.readLine disk line) := by
  cases line with
  | table level number firstKey lastKey =>
    obtain ⟨hleg, hrest⟩ := hclear
    obtain ⟨first, hall, hrow⟩ := readRow_first rfl hleg
    unfold ManifestLine.text Manifest.readLine
    rw [hall, List.foldlM_cons, readLine_of_row hrow hleg.level_lt]
    simp only [namedTable, openPath_eq h hrange]
    cases disk.ssts number with
    | none => exact ⟨m, foldlM_quiet hrest m, hm⟩
    | some data =>
      cases hopen : SSTable.openFile number data with
      | error e =>
        cases e with
        | status s =>
          simp only [hopen]
          exact ⟨m, foldlM_quiet hrest m, hm⟩
        | outOfBounds =>
          simp only [hopen]
          rfl
        | lengthError =>
          simp only [hopen]
          rfl
      | ok t =>
        simp only [hopen]
        refine ⟨_, foldlM_quiet hrest _, ?_, hm.nextFileNumber, hm.walNumber⟩
        rw [hm.levels]
        exact pushBack_byPath _ _ _
  | nextFileNumber n =>
    rw [text_next, fgetsAll_numberLine (by decide) (by decide)]
    have hnumber : (UInt64.ofNat n).toNat = n := UInt64.toNat_ofNat_of_lt' hrange
    refine ⟨{ m with nextFileNumber := UInt64.ofNat n }, ?_, hm.levels, hnumber, hm.walNumber⟩
    rw [List.foldlM_cons, readLine_next]
    rfl
  | walNumber n =>
    rw [text_wal, fgetsAll_numberLine (by decide) (by decide)]
    have hnumber : (UInt64.ofNat n).toNat = n := UInt64.toNat_ofNat_of_lt' hrange
    refine ⟨{ m with walNumber := UInt64.ofNat n }, ?_, hm.levels, hm.nextFileNumber, hnumber⟩
    rw [List.foldlM_cons, readLine_wal]
    rfl

/-- **`ReadManifest`** finds the same by paths and by numbers. -/
theorem readManifest_mirrors (h : Represents dbPath disk tree)
    (hclear : ∀ line ∈ disk.manifest.getD [], Clear dbPath tree line) :
    Mirrors (Is dbPath) (tree.directory dbPath).readManifest disk.readManifest := by
  have hread : (tree.directory dbPath).readManifest =
      ((disk.manifest.getD []).flatMap fun line => fgetsAll (line.text dbPath)).foldlM (readLine tree) {} := by
    rw [← readLines_text]
    unfold Directory.readManifest FileTree.directory
    dsimp only
    rw [h.manifest]
    cases disk.manifest <;> rfl
  rw [hread]
  exact Mirrors.foldlM _ (fun line hline m m' hm => line_mirrors h (h.lines line hline) (hclear line hline) hm)
    (Is.empty dbPath)

end ManifestText

/-! ## `DB::Open` -/

/-- What `Recover` leaves, by paths and by numbers. -/
structure Opened.Is (dbPath : Bytes) (o : Opened) (db : DB) : Prop where
  levels : o.levels = db.levels.toList.map fun tables => tables.map (·.byPath dbPath)
  nextFileNumber : o.nextFileNumber.toNat = db.nextFileNumber
  walNumber : o.walNumber.toNat = db.walNumber
  mem : o.mem = db.mem
  lastSequence : o.lastSequence = db.lastSequence

/-- Replaying looks at `mem_` and `last_sequence_` only. -/
theorem replayAll_congr {db db' : DB} (hmem : db.mem = db'.mem) (hseq : db.lastSequence = db'.lastSequence)
    (rs : List Record) (heights : ℕ → ℕ) :
    (db.replayAll rs heights).mem = (db'.replayAll rs heights).mem ∧
      (db.replayAll rs heights).lastSequence = (db'.replayAll rs heights).lastSequence := by
  unfold DB.replayAll
  generalize rs.zipIdx = numbered
  induction numbered generalizing db db' with
  | nil => exact ⟨hmem, hseq⟩
  | cons r numbered ih =>
    rw [List.foldl_cons, List.foldl_cons]
    apply ih
    · unfold DB.replay
      split <;> simp only [hmem]
    · unfold DB.replay
      split <;> simp only [hseq]

section

variable {dbPath : Bytes} {disk : Disk} {tree : FileTree}

/-- The log that `Recover` opens for writing. -/
theorem openLog_directory (hroom : Roomy dbPath) (tree : FileTree) (wal n : UInt64) :
    Function.update (tree.directory dbPath).logs wal (some (((tree.directory dbPath).logs wal).getD [])) n =
      ((tree.run dbPath [.openLog wal.toNat]).directory dbPath).logs n := by
  have hrun : ((tree.run dbPath [.openLog wal.toNat]).directory dbPath).logs n =
      Function.update tree (walFileName dbPath wal.toNat)
        (some ((tree (walFileName dbPath wal.toNat)).getD [])) (walFileName dbPath n.toNat) := rfl
  rw [hrun]
  by_cases h : n = wal
  · rw [h, Function.update_self, Function.update_self]
    rfl
  · have hne : walFileName dbPath n.toNat ≠ walFileName dbPath wal.toNat := fun heq =>
      h (UInt64.toNat_inj.1 ((hroom.usable n.toNat_lt wal.toNat_lt).logs heq))
    rw [Function.update_of_ne h, Function.update_of_ne hne]
    rfl

/-- **`DB::Open` on the files** ends as opening the disk does: with the same tables at every level, the same
numbers, the same memtable and the same log, or, where that fails, not at all. -/
theorem openDB_mirrors (hroom : Roomy dbPath) (h : Represents dbPath disk tree)
    (hclear : ∀ line ∈ disk.manifest.getD [], ManifestText.Clear dbPath tree line) (options : Options)
    (heights : ℕ → ℕ) :
    Mirrors (fun r d => ∃ dir o, r = (.OK, { dir := dir, db := some o }) ∧ Opened.Is dbPath o d.1 ∧
        ∀ n, dir.logs n = ((tree.run dbPath d.2).directory dbPath).logs n)
      ((tree.directory dbPath).openDB false heights) (DB.recover options disk heights) := by
  have hmanifest := ManifestText.readManifest_mirrors h hclear
  cases hread : disk.readManifest with
  | error e =>
    rw [hread] at hmanifest
    have hnone : (tree.directory dbPath).readManifest = none := hmanifest
    simp [DB.recover, hread, Directory.openDB, Directory.recover, hnone, Mirrors, bind, Except.bind]
  | ok m' =>
    rw [hread] at hmanifest
    obtain ⟨m, hm, his⟩ := hmanifest
    obtain ⟨mem, seq, ⟨_, rfl, hmem, hseq⟩, heq⟩ := World.recover_eq options heights hread
    have hlog : (tree.directory dbPath).logs m.walNumber = disk.logs m'.walNumber := by
      rw [← his.walNumber]
      exact h.logs _ m.walNumber.toNat_lt
    obtain ⟨hsame, hseq'⟩ := @replayAll_congr { options := {} }
      { options := options, levels := m'.levels, nextFileNumber := m'.nextFileNumber, walNumber := m'.walNumber }
      rfl rfl (((disk.logs m'.walNumber).map WALReader.recover).getD []) heights
    rw [heq]
    simp only [Mirrors, Directory.openDB, Directory.recover, hm, Option.bind_eq_bind, Option.bind_some,
      show (tree.directory dbPath).logOpens m.walNumber = true from rfl, if_true, Bool.false_eq_true, if_false]
    refine ⟨_, rfl, _, _, rfl, ⟨his.levels, his.nextFileNumber, his.walNumber, ?_, ?_⟩, fun n => ?_⟩
    · rw [hmem, hlog]
      exact hsame
    · rw [hseq, hlog]
      exact hseq'
    · rw [← his.walNumber]
      exact openLog_directory hroom tree m.walNumber n

end

/-! ## The database that has opened -/

/-- A table without its number. -/
def SSTable.unnumbered (t : SSTable) : SSTable := { t with number := 0 }

/-- Numbers do not show in what a level answers. -/
theorem getTables_unnumbered (key : Bytes) (tables : List SSTable) :
    DB.getTables key (tables.map SSTable.unnumbered) = DB.getTables key tables := by
  induction tables with
  | nil => rfl
  | cons t tables ih =>
    have hget : t.unnumbered.get key = t.get key := rfl
    rw [List.map_cons, DB.getTables, DB.getTables, hget, ih]

theorem getLevel_unnumbered (key : Bytes) (tables : List SSTable) :
    DB.getLevel key (tables.map SSTable.unnumbered) = DB.getLevel key tables := by
  have hside : DB.levelSide key (tables.map SSTable.unnumbered) = DB.levelSide key tables := by
    funext mid
    unfold DB.levelSide
    rw [List.getElem?_map]
    cases tables[mid]? <;> rfl
  unfold DB.getLevel
  rw [hside, List.length_map]
  cases Search.bisect (DB.levelSide key tables) tables.length 0 tables.length with
  | none => rfl
  | some mid =>
    dsimp only
    rw [List.getElem?_map]
    cases tables[mid]? <;> rfl

theorem getLevels_unnumbered (key : Bytes) (levels : List (List SSTable)) :
    DB.getLevels key (levels.map fun tables => tables.map SSTable.unnumbered) = DB.getLevels key levels := by
  induction levels with
  | nil => rfl
  | cons tables levels ih => rw [List.map_cons, DB.getLevels, DB.getLevels, getLevel_unnumbered, ih]

/-- **What answers a `Get`**: the entries of the memtables, and the tables without their numbers. -/
theorem get_of_unnumbered {db db' : DB} (hmem : db'.mem.entries = db.mem.entries) (himm : db.imm = none)
    (himm' : db'.imm = none)
    (hlevels : db'.levels.toList = db.levels.toList.map fun tables => tables.map SSTable.unnumbered)
    (key : Bytes) : db'.get key = db.get key := by
  obtain ⟨h0, h1, hdeeper⟩ : db'.levels.l0 = db.levels.l0.map SSTable.unnumbered ∧
      db'.levels.l1 = db.levels.l1.map SSTable.unnumbered ∧
      db'.levels.deeper = db.levels.deeper.map fun tables => tables.map SSTable.unnumbered := by
    simpa [Levels.toList] using hlevels
  have hget : db'.mem.get key = db.mem.get key := by rw [MemTable.get_eq, MemTable.get_eq, hmem]
  have hrest : DB.getLevels key (db'.levels.l1 :: db'.levels.deeper) =
      DB.getLevels key (db.levels.l1 :: db.levels.deeper) := by
    have hcons := getLevels_unnumbered key (db.levels.l1 :: db.levels.deeper)
    rw [List.map_cons] at hcons
    rw [h1, hdeeper, hcons]
  unfold DB.get
  rw [hget, himm, himm', h0, ← List.map_reverse, getTables_unnumbered, hrest]

theorem Opened.Is.toDB_levels {dbPath : Bytes} {o : Opened} {db : DB} (h : o.Is dbPath db) (options : Options) :
    (o.toDB options).levels.toList = db.levels.toList.map fun tables => tables.map SSTable.unnumbered := by
  have htables : o.levels.map (fun tables => tables.map (·.table)) =
      db.levels.toList.map fun tables => tables.map SSTable.unnumbered := by
    rw [h.levels, List.map_map]
    apply List.map_congr_left
    intro tables _
    simp [SSTable.byPath, SSTable.unnumbered]
  unfold Opened.toDB
  rw [htables]
  rfl

namespace ByteWorld

variable {dbPath : Bytes} {options : Options} {s : ByteWorld}

/-- The first commit of a table, by a second memtable: the first was empty, and its flush gave it up. -/
def secondRun : List Label :=
  [.write (.put [107] [118]) 1 true, .flushBegin .compactRange, .flushBuild 0 (fun _ => none) false, .flushEnd 0,
    .write (.put [108] [119]) 1 true, .flushBegin .background, .flushBuild 0 (fun _ => none) true]

/-- The files are numbered with 64 bits, the logs that writes open do open, and their records are short. -/
def Kept (s : ByteWorld) (l : Label) : Prop := InRange s l ∧ World.LogsOpen s.world l

instance (s : ByteWorld) (l : Label) : Decidable (Kept s l) :=
  inferInstanceAs (Decidable (InRange s l ∧ World.LogsOpen s.world l))

/-- **A database comes back from its bytes.** Whenever `imm_` is null, what `DB::Open` makes of the files
answers every `Get` as the database does that is closed then, and goes on with its log. -/
theorem openDB_restores (hroom : Roomy dbPath) (h : Reach (step dbPath) Kept (fresh dbPath options) s)
    (himm : s.world.db.imm = none)
    (hclear : ∀ line ∈ s.world.disk.manifest.getD [], ManifestText.Clear dbPath s.tree line)
    (options' : Options) (heights : ℕ → ℕ) :
    ∃ dir o, (s.tree.directory dbPath).openDB false heights = some (.OK, { dir := dir, db := some o }) ∧
      (∀ key, (o.toDB options').get key = s.world.db.get key) ∧
      o.walNumber.toNat = s.world.db.walNumber ∧
      dir.logs o.walNumber = s.world.disk.logs s.world.db.walNumber := by
  have hrep := represents_of_reach hroom (h.mono fun _ _ hl => hl.1)
  have hworld := reach_world (fun _ _ hl => hl.2) h
  have hlogged := World.logged_of_reach hworld
  obtain ⟨next, hrec⟩ := hlogged.recorded himm
  obtain ⟨rs, hlog, hshort, hsame⟩ := hlogged.log
  obtain ⟨db, hrecover, hmem, -, hnumber, hlevels, -⟩ :=
    (World.files_of_reach hworld).recover_log hrec hlog hshort options' heights
  have hmirrors := openDB_mirrors hroom hrep hclear options' heights
  rw [hrecover] at hmirrors
  obtain ⟨_, hopen, dir, o, rfl, his, hlogs⟩ := hmirrors
  have hwal : o.walNumber.toNat = s.world.db.walNumber := his.walNumber.trans hnumber
  refine ⟨dir, o, hopen, fun key => ?_, hwal, ?_⟩
  · refine get_of_unnumbered ?_ himm rfl ?_ key
    · have hentries : o.mem.entries = db.mem.entries := by rw [his.mem]
      exact hentries.trans (hmem.entries.trans hsame.entries.symm)
    · rw [his.toDB_levels, hlevels]
  · rw [← hwal, hlogs, ← hwal]
    have hself : ((s.tree.run dbPath [.openLog o.walNumber.toNat]).directory dbPath).logs o.walNumber =
        some ((s.tree (walFileName dbPath o.walNumber.toNat)).getD []) := Function.update_self _ _ _
    rw [← hwal] at hlog
    rw [hself, hrep.logs _ o.walNumber.toNat_lt, hlog]
    rfl

/-- The value that was flushed and the one that was not, read back from the files. -/
theorem openDB_restores_secondRun : ∃ s dir o,
    run (step (ascii "db")) Kept (fresh (ascii "db") { writeBufferSize := 1 }) (secondRun ++ [.flushEnd 0]) =
        some s ∧
      (s.tree.directory (ascii "db")).openDB false (fun _ => 1) = some (.OK, { dir := dir, db := some o }) ∧
      ((o.toDB {}).get [107]).toOption = some (.OK, some [118]) ∧
      ((o.toDB {}).get [108]).toOption = some (.OK, some [119]) := by
  have hrun : (run (step (ascii "db")) Kept (fresh (ascii "db") { writeBufferSize := 1 })
      (secondRun ++ [.flushEnd 0])).map (fun s => (s.world.db.imm.isNone &&
        decide (s.world.disk.manifest = some [.table 0 2 [107, 1, 254, 255, 255, 255, 255, 255, 255]
          [107, 1, 254, 255, 255, 255, 255, 255, 255], .nextFileNumber 3, .walNumber 3]) &&
        decide ((s.world.db.get [107]).toOption = some (.OK, some [118])) &&
        decide ((s.world.db.get [108]).toOption = some (.OK, some [119])))) = some true := by decide +kernel
  obtain ⟨s, hs, heq⟩ := Option.map_eq_some_iff.1 hrun
  simp only [Bool.and_eq_true, decide_eq_true_eq, Option.isNone_iff_eq_none] at heq
  obtain ⟨⟨⟨himm, hlines⟩, hfirst⟩, hsecond⟩ := heq
  have hclear : ∀ line ∈ s.world.disk.manifest.getD [], ManifestText.Clear (ascii "db") s.tree line := by
    rw [hlines, Option.getD_some]
    intro line hline
    simp only [List.mem_cons, List.not_mem_nil, or_false] at hline
    rcases hline with rfl | rfl | rfl
    · exact ManifestText.clear_of_short _ (by decide +kernel) (by decide +kernel)
    · trivial
    · trivial
  obtain ⟨dir, o, hopen, hget, -⟩ := openDB_restores (by decide) (reach_of_run hs) himm hclear {} fun _ => 1
  exact ⟨s, dir, o, hs, hopen, by rw [hget, hfirst], by rw [hget, hsecond]⟩

end ByteWorld

end MiniLSM
