import MiniLSM.Spec.OpenDatabase
import MiniLSM.Proof.Manifest

/-!
# What `DB::Open` says of the tables in the MANIFEST

`ReadManifest` skips a line that is not a whole row and a table that does not open, and
`Recover` drops its status. So `Open` answers OK for a MANIFEST of which tables are missing, and
the next `WriteManifest` makes the loss permanent: `openDB_loses`. `openDB_honest_iff` says
exactly when the answer can be relied on.
-/

namespace MiniLSM

namespace ManifestText

variable {files : Bytes → Option Bytes}

/-! ## Lines -/

/-- A line that begins with a letter is not a row. -/
theorem readRow_of_label {label line : Bytes} (hlabel : readInt (label ++ line) = none) :
    readRow (label ++ line) = none := by
  simp [readRow, hlabel]

theorem readRow_next {line : Bytes} (h : (ascii "next_file_number:").isPrefixOf line = true) :
    readRow line = none := by
  obtain ⟨rest, rfl⟩ := List.isPrefixOf_iff_prefix.1 h
  exact readRow_of_label (by rfl)

theorem readRow_wal {line : Bytes} (h : (ascii "wal_number:").isPrefixOf line = true) :
    readRow line = none := by
  obtain ⟨rest, rfl⟩ := List.isPrefixOf_iff_prefix.1 h
  exact readRow_of_label (by rfl)

/-- A line that names a file number names no log. -/
theorem walLine_next {line : Bytes} (h : (ascii "next_file_number:").isPrefixOf line = true) :
    walLine line = none := by
  obtain ⟨rest, rfl⟩ := List.isPrefixOf_iff_prefix.1 h
  rfl

/-- A row whose path opens is the row that its line adds, if the line's read returns. -/
theorem readLine_row {buf : Bytes} {level : ℤ} {path : Bytes} {t : OpenTable}
    (hrow : readRow (trim buf) = some (level, path))
    (hopen : OpenTable.openPath files path = .ok (some t)) (m : Restored) :
    readLine files m buf = if level < 0 ∨ level = 2 ^ 31 - 1 then none
      else some { m with levels := pushBack m.levels level.toNat t } := by
  have hempty : trim buf ≠ [] := by
    intro h
    rw [h] at hrow
    cases hrow
  have hnext : ¬(ascii "next_file_number:").isPrefixOf (trim buf) = true := fun h => by
    rw [readRow_next h] at hrow
    cases hrow
  have hwal : ¬(ascii "wal_number:").isPrefixOf (trim buf) = true := fun h => by
    rw [readRow_wal h] at hrow
    cases hrow
  simp only [readLine, hempty, hnext, hwal, hrow, hopen, Bool.false_eq_true, if_false]

/-- **The rows a line adds**: its own, when it is whole and its path opens. -/
theorem mem_pushed {buf : Bytes} {rs : List (ℕ × OpenTable)} (h : pushed files buf = some rs)
    (l : ℕ) (t : OpenTable) : (l, t) ∈ rs ↔
      readRow (trim buf) = some ((l : ℤ), t.filePath) ∧
        OpenTable.openPath files t.filePath = .ok (some t) := by
  constructor
  · intro hmem
    rcases readLine_cases files buf with hc | hc | ⟨level, t', hrow, hopen, hc⟩
    · simp [pushed, hc] at h
    · obtain ⟨m₀, hm₀, hlevels⟩ := hc { levels := [] }
      simp only [pushed, hm₀, hlevels, Option.map_some, Option.some.injEq] at h
      simp [← h, rows] at hmem
    · simp only [pushed, hc, Option.map_some, Option.some.injEq, rows_pushBack_nil] at h
      rw [← h, List.mem_singleton, Prod.mk.injEq] at hmem
      obtain ⟨rfl, rfl⟩ := hmem
      exact ⟨hrow, hopen⟩
  · rintro ⟨hrow, hopen⟩
    have hline := readLine_row hrow hopen { levels := [] }
    split at hline
    · simp [pushed, hline] at h
    · simp only [pushed, hline, Option.map_some, Int.toNat_natCast, rows_pushBack_nil,
        Option.some.injEq] at h
      simp [← h]

/-- Whether a line's read returns does not depend on what was read before. -/
theorem pushed_eq_none_iff (buf : Bytes) (m : Restored) :
    pushed files buf = none ↔ readLine files m buf = none := by
  constructor
  · exact fun h => readLine_none h m
  · intro h
    by_contra hsome
    obtain ⟨rs, hrs⟩ := Option.ne_none_iff_exists'.1 hsome
    obtain ⟨m', hm', -⟩ := readLine_some hrs m
    rw [h] at hm'
    cases hm'

/-! ## The text -/

/-- What the tables of a MANIFEST need: the read of every line of it returns. -/
def LinesReturn (files : Bytes → Option Bytes) (text : Bytes) : Prop :=
  ∀ line ∈ lines text, readLine files {} line ≠ none

/-- A listed table stands in a line that is whole and opens. -/
def Complete (files : Bytes → Option Bytes) (text : Bytes) (r : ℤ × Bytes) : Prop :=
  ∃ line ∈ lines text, readRow (trim line) = some r ∧
    ∃ t, OpenTable.openPath files r.2 = .ok (some t)

/-- A listed table is in its level. -/
def Loaded (files : Bytes → Option Bytes) (levels : List (List OpenTable)) (r : ℤ × Bytes) : Prop :=
  ∃ (level : ℕ) (t : OpenTable), (level : ℤ) = r.1 ∧
    OpenTable.openPath files r.2 = .ok (some t) ∧ t ∈ levels.getD level []

theorem linesReturn_iff (text : Bytes) :
    LinesReturn files text ↔ ∀ line ∈ lines text, pushed files line ≠ none :=
  forall₂_congr fun line _ => not_congr (pushed_eq_none_iff line {}).symm

theorem readLines_eq_none_iff (text : Bytes) :
    readLines files text = none ↔ ¬LinesReturn files text := by
  rw [linesReturn_iff]
  constructor
  · intro h hreads
    obtain ⟨m, hm, -⟩ := readLines_some hreads {}
    rw [readLines, hm] at h
    cases h
  · intro h
    push Not at h
    obtain ⟨line, hmem, hnone⟩ := h
    exact readLines_none hmem hnone {}

/-- **`ReadManifest` loads the tables whose lines are whole and open**, and no others. -/
theorem loaded_iff {text : Bytes} {m : Restored} (h : readLines files text = some m)
    (r : ℤ × Bytes) : Loaded files m.levels r ↔ Complete files text r := by
  have hreads : ∀ line ∈ lines text, pushed files line ≠ none := by
    rw [← linesReturn_iff]
    by_contra hnot
    rw [(readLines_eq_none_iff text).2 hnot] at h
    cases h
  obtain ⟨m', hm', hlevels⟩ := readLines_some hreads {}
  obtain rfl : m = m' := Option.some.inj (h.symm.trans hm')
  -- a table is in a level when a line has added it
  have hmem : ∀ (level : ℕ) (t : OpenTable), t ∈ m.levels.getD level [] ↔
      ∃ line ∈ lines text, readRow (trim line) = some ((level : ℤ), t.filePath) ∧
        OpenTable.openPath files t.filePath = .ok (some t) := by
    intro level t
    have hempty : (List.replicate 4 ([] : List OpenTable)).getD level [] = [] := by
      simp only [List.getD_eq_getElem?_getD, List.getElem?_replicate]
      split <;> rfl
    rw [hlevels, hempty, List.nil_append, mem_rowsAt, List.mem_flatMap]
    refine exists_congr fun line => and_congr_right fun hline => ?_
    obtain ⟨rs, hrs⟩ := Option.ne_none_iff_exists'.1 (hreads line hline)
    rw [hrs, Option.getD_some, mem_pushed hrs]
  constructor
  · rintro ⟨level, t, hlevel, hopen, ht⟩
    obtain ⟨line, hline, hrow, -⟩ := (hmem level t).1 ht
    refine ⟨line, hline, ?_, t, hopen⟩
    rw [hrow, hlevel, filePath_of_openPath hopen]
  · rintro ⟨line, hline, hrow, t, hopen⟩
    -- the line's read returns, so its level is one that `levels_` can grow to
    have hline' := (linesReturn_iff text).2 hreads line hline
    rw [readLine_row hrow hopen] at hline'
    have hlevel : 0 ≤ r.1 := by
      by_contra hneg
      exact hline' (if_pos (.inl (not_le.1 hneg)))
    have hpath := filePath_of_openPath hopen
    refine ⟨r.1.toNat, t, Int.toNat_of_nonneg hlevel, hopen, (hmem _ t).2 ⟨line, hline, ?_, ?_⟩⟩
    · rw [hrow, hpath, Int.toNat_of_nonneg hlevel]
    · rw [hpath, hopen]

theorem zero_notMem_decimal (n : ℕ) : ∀ b ∈ Text.decimal n, b ≠ 0 := by
  rintro b hb rfl
  exact absurd (Text.isDigit_of_mem_decimal hb) (by decide)

/-- The line of a table has no zero bytes. -/
theorem zero_notMem_tableLine (level : ℕ) (t : OpenTable) : ∀ b ∈ tableLine level t, b ≠ 0 := by
  have hstring : ∀ s : Bytes, ∀ b ∈ cString s, b ≠ 0 := by
    intro s b hb
    simpa using List.mem_takeWhile_imp hb
  intro b hb
  simp only [tableLine, List.mem_append, List.mem_cons, List.mem_nil_iff, or_false] at hb
  rcases hb with (((hb | rfl | hb) | rfl | hb) | rfl | hb) | rfl
  · exact zero_notMem_decimal _ b hb
  · decide
  · exact hstring _ b hb
  · decide
  · exact hstring _ b hb
  · decide
  · exact hstring _ b hb
  · decide

/-- What `WriteManifest` prints has no zero bytes. -/
theorem zero_notMem_print (levels : List (List OpenTable)) (nextFileNumber walNumber : UInt64) :
    ∀ b ∈ print levels nextFileNumber walNumber, b ≠ 0 := by
  intro b hb
  simp only [print, List.mem_append, List.mem_flatMap, List.mem_singleton] at hb
  rcases hb with (⟨r, -, hb⟩ | (hb | hb) | rfl) | (hb | hb) | rfl
  · exact zero_notMem_tableLine _ _ b hb
  · rintro rfl
    exact absurd hb (by decide)
  · exact zero_notMem_decimal _ b hb
  · decide
  · rintro rfl
    exact absurd hb (by decide)
  · exact zero_notMem_decimal _ b hb
  · decide

/-- Of a MANIFEST that `WriteManifest` printed the loop makes what `read` says. -/
theorem readLines_print (levels : List (List OpenTable)) (nextFileNumber walNumber : UInt64) :
    readLines files (print levels nextFileNumber walNumber) =
      read files (print levels nextFileNumber walNumber) := by
  have hzero := zero_notMem_print levels nextFileNumber walNumber
  rw [readLines, lines, read, List.map_congr_left (g := id) ?_, List.map_id]
  intro buf hbuf
  exact cString_eq fun b hb => hzero b (Text.mem_of_mem_pieces hbuf hb)

/-! ## The log -/

theorem readLine_walNumber {buf : Bytes} {m m' : Restored} (h : readLine files m buf = some m') :
    m'.walNumber = (walLine (trim buf)).getD m.walNumber := by
  unfold readLine at h
  by_cases hempty : trim buf = []
  · simp only [hempty, if_true, Option.some.injEq] at h
    rw [← h, hempty]
    rfl
  by_cases hnext : (ascii "next_file_number:").isPrefixOf (trim buf) = true
  · rw [walLine_next hnext]
    simp only [hempty, hnext, if_true, if_false] at h
    split at h
    · cases h
    · obtain ⟨n, -, rfl⟩ := Option.map_eq_some_iff.1 h
      rfl
  by_cases hwal : (ascii "wal_number:").isPrefixOf (trim buf) = true
  · simp only [hempty, hnext, hwal, Bool.false_eq_true, if_true, if_false] at h
    split at h
    · cases h
    · obtain ⟨n, hn, rfl⟩ := Option.map_eq_some_iff.1 h
      simp [walLine, hwal, hn]
  -- no row changes `wal_number_`
  have hnone : walLine (trim buf) = none := by simp [walLine, hwal]
  simp only [hempty, hnext, hwal, Bool.false_eq_true, if_false] at h
  rw [hnone]
  split at h
  · cases h; rfl
  · split at h
    · cases h
    · cases h; rfl
    · split at h
      · cases h
      · cases h; rfl

theorem readLines_walNumber {bufs : List Bytes} {m m' : Restored}
    (h : bufs.foldlM (readLine files) m = some m') :
    m'.walNumber = ((bufs.filterMap fun buf => walLine (trim buf)).getLast?).getD m.walNumber := by
  induction bufs generalizing m with
  | nil =>
    cases h
    rfl
  | cons buf bufs ih =>
    rw [List.foldlM_cons, Option.bind_eq_bind, Option.bind_eq_some_iff] at h
    obtain ⟨m₁, h₁, h⟩ := h
    rw [ih h, readLine_walNumber h₁, List.filterMap_cons]
    cases walLine (trim buf) with
    | none => rfl
    | some n => simp [List.getLast?_cons]

end ManifestText

namespace Directory

open ManifestText

/-! ## `Open` -/

/-- What of the MANIFEST reaches the loop of `ReadManifest`. -/
def delivered (dir : Directory) : Bytes := dir.reads.getD []

theorem readManifest_eq (dir : Directory) :
    dir.readManifest = readLines dir.files dir.delivered := by
  unfold readManifest delivered
  cases dir.reads with
  | none => rfl
  | some text => rfl

/-- What `Open` owes the tables that the MANIFEST lists: none is missing behind an OK, and if one
does not open or the MANIFEST is not read, then it fails, and nothing rewrites the MANIFEST. -/
structure Honest (dir : Directory) (errorIfExists : Bool) (heights : ℕ → ℕ) : Prop where
  loads : ∀ s session, dir.openDB errorIfExists heights = some (s, session) → s.isOk →
    ∃ db, session.db = some db ∧ ∀ r ∈ listed dir.manifest, Loaded dir.files db.levels r
  fails : dir.reads ≠ some dir.manifest ∨
      (∃ r ∈ listed dir.manifest, OpenTable.openPath dir.files r.2 = .ok none) →
    ∃ s session, dir.openDB errorIfExists heights = some (s, session) ∧ s.isOk = false ∧
      ∀ ws, (session.run ws).dir.manifest = dir.manifest

/-- When it keeps to that: it is to fail on any database; or a line stops it short, where every
table opens; or the log does not open; or every table stands in a whole line and opens. -/
def Relied (dir : Directory) (errorIfExists : Bool) : Prop :=
  errorIfExists = true ∨
  (¬LinesReturn dir.files dir.delivered ∧ dir.reads = some dir.manifest ∧
    ∀ r ∈ listed dir.manifest, OpenTable.openPath dir.files r.2 ≠ .ok none) ∨
  (LinesReturn dir.files dir.delivered ∧
    (dir.logOpens (walNumberIn dir.delivered) = false ∨
      dir.reads = some dir.manifest ∧ ∀ r ∈ listed dir.manifest, Complete dir.files dir.manifest r))

/-- Without a `DB` the directory stays as it is. -/
theorem run_of_null (dir : Directory) (ws : List Rewrite) :
    Session.run { dir := dir, db := none } ws = { dir := dir, db := none } := by
  induction ws with
  | nil => rfl
  | cons w ws ih => exact ih

variable {dir : Directory} {heights : ℕ → ℕ}

theorem openDB_exists : dir.openDB true heights =
    some (.ioError "DB::Open: db already exists: ", { dir := dir, db := none }) := rfl

/-- A line whose read does not return takes `Open` with it. -/
theorem openDB_unreturned (h : ¬LinesReturn dir.files dir.delivered) :
    dir.openDB false heights = none := by
  simp [openDB, recover, readManifest_eq, (readLines_eq_none_iff _).2 h]

/-- The log does not open: its status comes out. -/
theorem openDB_noLog {m : Restored} (hm : dir.readManifest = some m)
    (hlog : dir.logOpens m.walNumber = false) : dir.openDB false heights =
      some (.ioError "WALWriter::Open: cannot open ", { dir := dir, db := none }) := by
  simp [openDB, recover, hm, hlog]

/-- The log opens: `Open` answers OK, whatever `ReadManifest` found. -/
theorem openDB_ok {m : Restored} (hm : dir.readManifest = some m)
    (hlog : dir.logOpens m.walNumber = true) : ∃ session db,
      dir.openDB false heights = some (.OK, session) ∧ session.db = some db ∧
      db.levels = m.levels := by
  obtain ⟨db, dir', hrecover, hlevels⟩ : ∃ db dir', dir.recover heights = some (.ok db, dir') ∧
      db.levels = m.levels := by
    simp only [recover, hm, Option.bind_eq_bind, Option.bind_some, hlog, if_true]
    refine ⟨_, _, rfl, ?_⟩
    rfl
  exact ⟨{ dir := dir', db := some db }, db, by simp [openDB, hrecover], rfl, hlevels⟩

/-- An error of `Open` leaves no `DB`. -/
theorem honest_of_error {errorIfExists : Bool} {msg : String}
    (h : dir.openDB errorIfExists heights = some (.ioError msg, { dir := dir, db := none })) :
    dir.Honest errorIfExists heights where
  loads s session hs hok := by
    rw [h, Option.some.injEq, Prod.mk.injEq] at hs
    rw [← hs.1] at hok
    cases hok
  fails _ := ⟨_, _, h, rfl, fun ws => by rw [run_of_null]⟩

/-- `Open` does not return: it has answered nothing, which is right if nothing called for an error. -/
theorem honest_iff_of_none (hnone : dir.openDB false heights = none) :
    dir.Honest false heights ↔ dir.reads = some dir.manifest ∧
      ∀ r ∈ listed dir.manifest, OpenTable.openPath dir.files r.2 ≠ .ok none := by
  constructor
  · intro h
    have hgood : ¬(dir.reads ≠ some dir.manifest ∨
        ∃ r ∈ listed dir.manifest, OpenTable.openPath dir.files r.2 = .ok none) := by
      intro hbad
      obtain ⟨_, _, hs, -⟩ := h.fails hbad
      rw [hnone] at hs
      cases hs
    push Not at hgood
    exact hgood
  · rintro ⟨hread, hall⟩
    constructor
    · intro s session hs
      rw [hnone] at hs
      cases hs
    · rintro (hbad | ⟨r, hr, hbad⟩)
      · exact absurd hread hbad
      · exact absurd hbad (hall r hr)

/-- `Open` answers OK: right if the MANIFEST was read and `levels_` has all that it lists. -/
theorem honest_iff_of_ok {session : Session} {db : Opened}
    (hopen : dir.openDB false heights = some (.OK, session)) (hdb : session.db = some db) :
    dir.Honest false heights ↔ dir.reads = some dir.manifest ∧
      ∀ r ∈ listed dir.manifest, Loaded dir.files db.levels r := by
  constructor
  · intro h
    refine ⟨?_, ?_⟩
    · -- an OK is an answer that must not have been given
      by_contra hbad
      obtain ⟨s, _, hs, hfalse, -⟩ := h.fails (.inl hbad)
      rw [hopen, Option.some.injEq, Prod.mk.injEq] at hs
      rw [← hs.1] at hfalse
      cases hfalse
    · obtain ⟨db', hdb', hall⟩ := h.loads _ _ hopen rfl
      obtain rfl : db = db' := Option.some.inj (hdb.symm.trans hdb')
      exact hall
  · rintro ⟨hread, hall⟩
    constructor
    · intro s session' hs _
      rw [hopen, Option.some.injEq, Prod.mk.injEq] at hs
      exact ⟨db, hs.2 ▸ hdb, hall⟩
    · rintro (hbad | ⟨r, hr, hbad⟩)
      · exact absurd hread hbad
      · obtain ⟨_, t, -, ht, -⟩ := hall r hr
        rw [hbad] at ht
        cases ht

/-- **When the answer of `DB::Open` can be relied on**, for every content of the directory. -/
theorem openDB_honest_iff (dir : Directory) (errorIfExists : Bool) (heights : ℕ → ℕ) :
    dir.Honest errorIfExists heights ↔ dir.Relied errorIfExists := by
  cases errorIfExists with
  | true => exact iff_of_true (honest_of_error openDB_exists) (.inl rfl)
  | false =>
    by_cases hreturn : LinesReturn dir.files dir.delivered
    · obtain ⟨m, hm⟩ : ∃ m, dir.readManifest = some m := by
        rw [← Option.ne_none_iff_exists', readManifest_eq, Ne, readLines_eq_none_iff, not_not]
        exact hreturn
      have hread := hm
      rw [readManifest_eq] at hread
      have hwal : m.walNumber = walNumberIn dir.delivered := by
        rw [readLines_walNumber hread, walNumberIn]
      cases hlog : dir.logOpens m.walNumber with
      | false =>
        exact iff_of_true (honest_of_error (openDB_noLog hm hlog))
          (.inr (.inr ⟨hreturn, .inl (by rw [← hwal, hlog])⟩))
      | true =>
        obtain ⟨session, db, hopen, hdb, hlevels⟩ := @openDB_ok dir heights m hm hlog
        simp only [honest_iff_of_ok hopen hdb, hlevels, loaded_iff hread, Relied, hreturn, ← hwal,
          hlog, Bool.false_eq_true, Bool.true_eq_false, not_true_eq_false, false_and, true_and,
          false_or]
        -- the text that was read is the MANIFEST itself
        refine and_congr_right fun hsome => ?_
        rw [delivered, hsome, Option.getD_some]
    · simp only [honest_iff_of_none (openDB_unreturned hreturn), Relied, hreturn,
        Bool.false_eq_true, not_false_eq_true, true_and, false_and, false_or, or_false]

/-- A MANIFEST with one line, whose table is not there. -/
def lostTable : Directory :=
  { manifest := ascii "0 t a b\n"
    reads := some (ascii "0 t a b\n")
    files := fun _ => none
    logs := fun _ => none
    logOpens := fun _ => true }

/-- `Open` answers OK, and the MANIFEST of the next flush does not know the table. -/
theorem openDB_loses : listed lostTable.manifest = [(0, ascii "t")] ∧
    OpenTable.openPath lostTable.files (ascii "t") = .ok none ∧
    ((lostTable.openDB false fun _ => 1).map fun r =>
      (r.1, listed (r.2.run [.flush (oneTable [97]) 2 1]).dir.manifest)) =
        some (.OK, [(0, sstableFileName (ascii "db") 1)]) ∧
    ¬lostTable.Honest false fun _ => 1 := by
  refine ⟨by decide +kernel, rfl, by decide +kernel, fun h => ?_⟩
  obtain ⟨s, session, hs, hfalse, -⟩ := h.fails (.inr ⟨(0, ascii "t"), by decide +kernel, rfl⟩)
  have hok : (lostTable.openDB false fun _ => 1).map (·.1.isOk) = some true := by decide +kernel
  rw [hs, Option.map_some, hfalse] at hok
  cases hok

end Directory

end MiniLSM
