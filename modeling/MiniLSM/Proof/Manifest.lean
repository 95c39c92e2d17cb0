import MiniLSM.Proof.FileNames
import MiniLSM.Proof.RoundTrip

/-!
# Reading the MANIFEST back

`ReadManifest` cuts the text that `WriteManifest` printed at every newline and after every 511
bytes, wherever in a key that falls.

* `Legible level t`: the line of `t` is read as the row of `t`.
* `restores_iff`: tables and numbers are restored if every line is legible and what is left of
  it behind its first piece is passed over, and only then, unless such a piece happens to be the
  row of a listed table.
* `restores_fails`: a user key with a newline loses its table.
-/

namespace MiniLSM

namespace ManifestText

open Text

/-! ## Bytes -/

theorem isSpace_of_isDigit {b : UInt8} (h : isDigit b) : isSpace b = false := by
  have hb : b ≠ 32 := by rintro rfl; exact absurd h (by decide)
  simp only [isDigit, Bool.and_eq_true, decide_eq_true_eq] at h
  simp only [isSpace, Bool.or_eq_false_iff, decide_eq_false_iff_not, Bool.and_eq_false_iff]
  exact ⟨hb, by omega⟩

/-- The part of a file name behind the path of the database. -/
theorem sstableFileName_eq (dbPath : Bytes) (number : ℕ) :
    ∃ s, (∀ b ∈ s, b ≠ 0 ∧ isSpace b = false) ∧ s ≠ [] ∧
      sstableFileName dbPath number = (cString dbPath ++ s).take 127 := by
  refine ⟨ascii "/" ++ List.replicate (6 - (decimal number).length) 48 ++ decimal number ++
    ascii ".sst", ?_, ?_, by simp only [sstableFileName, List.append_assoc]⟩
  · intro b hb
    simp only [List.mem_append, or_assoc] at hb
    rcases hb with hb | hb | hb | hb
    · rw [List.mem_singleton.1 (show b ∈ [47] from hb)]; decide
    · rw [List.eq_of_mem_replicate hb]; decide
    · have hd := isDigit_of_mem_decimal hb
      exact ⟨by rintro rfl; exact absurd hd (by decide), isSpace_of_isDigit hd⟩
    · have hb : b ∈ [46, 115, 115, 116] := hb
      simp only [List.mem_cons, List.not_mem_nil, or_false] at hb
      rcases hb with rfl | rfl | rfl | rfl <;> decide
  · simp [ascii]

theorem length_sstableFileName_le (dbPath : Bytes) (number : ℕ) :
    (sstableFileName dbPath number).length ≤ 127 := by
  unfold sstableFileName
  exact List.length_take_le _ _

theorem sstableFileName_ne_nil (dbPath : Bytes) (number : ℕ) : sstableFileName dbPath number ≠ [] := by
  obtain ⟨s, -, hne, h⟩ := sstableFileName_eq dbPath number
  rw [h]
  intro he
  rcases List.take_eq_nil_iff.1 he with h0 | h0
  · omega
  · exact hne (List.append_eq_nil_iff.1 h0).2

theorem cString_sstableFileName (dbPath : Bytes) (number : ℕ) :
    cString (sstableFileName dbPath number) = sstableFileName dbPath number := by
  refine cString_eq fun b hb h0 => ?_
  rw [sstableFileName_eq_numbered, h0] at hb
  exact zero_notMem_numberedName dbPath (by decide) number hb

/-- A space in one file name is in the path of the database, and so in every file name. -/
theorem space_sstableFileName {dbPath : Bytes} {n : ℕ} {b : UInt8} (hb : b ∈ sstableFileName dbPath n)
    (hspace : isSpace b) (m : ℕ) : b ∈ sstableFileName dbPath m := by
  obtain ⟨s, hs, -, hn⟩ := sstableFileName_eq dbPath n
  obtain ⟨s', -, -, hm⟩ := sstableFileName_eq dbPath m
  rw [hn, List.take_append, List.mem_append] at hb
  rw [hm, List.take_append, List.mem_append]
  rcases hb with hb | hb
  · exact .inl hb
  · have := (hs b (List.mem_of_mem_take hb)).2
    simp [hspace] at this

/-! ## Trimming and words -/

theorem trim_append_space (s : Bytes) : ∃ e, (∀ b ∈ e, isSpace b) ∧ s = trim s ++ e := by
  refine ⟨(s.reverse.takeWhile fun b => b = 10 || b = 13).reverse, fun b hb => ?_, ?_⟩
  · have := List.mem_takeWhile_imp (List.mem_reverse.1 hb)
    simp only [Bool.or_eq_true, decide_eq_true_eq] at this
    rcases this with rfl | rfl <;> decide
  · rw [trim, ← List.reverse_append, List.takeWhile_append_dropWhile, List.reverse_reverse]

/-- Trimming stops at a blank. -/
theorem trim_blank (p s : Bytes) : trim (p ++ 32 :: s) = p ++ 32 :: trim s := by
  have hblank : List.dropWhile (fun b : UInt8 => b = 10 || b = 13) (32 :: p.reverse) =
      32 :: p.reverse := by simp
  simp only [trim, List.reverse_append, List.reverse_cons, List.append_assoc, List.singleton_append]
  rw [List.dropWhile_append, hblank]
  split
  · rename_i h
    rw [List.isEmpty_iff.1 h]
    simp
  · simp

/-- Whether there are two words to be read. -/
def twoWords (s : Bytes) : Bool :=
  match nextWord isSpace s with
  | some (_, s) => (nextWord isSpace s).isSome
  | none => false

theorem twoWords_append {s e : Bytes} (he : ∀ b ∈ e, isSpace b) : twoWords (s ++ e) = twoWords s := by
  unfold twoWords
  rw [nextWord_append he]
  cases nextWord isSpace s with
  | none => rfl
  | some p => simp [nextWord_append he]

theorem twoWords_trim (s : Bytes) : twoWords (trim s) = twoWords s := by
  obtain ⟨e, he, hs⟩ := trim_append_space s
  conv_rhs => rw [hs, twoWords_append he]

/-! ## Rows -/

/-- A numeral starts with a digit, which is neither a space nor a sign. -/
theorem sign_decimal (n : ℕ) (s : Bytes) :
    sign ((decimal n ++ s).dropWhile isSpace) = (false, decimal n ++ s) := by
  obtain ⟨b, ds, hb⟩ := List.exists_cons_of_ne_nil (decimal_ne_nil n)
  have hd : isDigit b := @isDigit_of_mem_decimal n b (by simp [hb])
  have h43 : b ≠ 43 := by rintro rfl; exact absurd hd (by decide)
  have h45 : b ≠ 45 := by rintro rfl; exact absurd hd (by decide)
  rw [hb, List.cons_append, List.dropWhile_cons_of_neg (by simp [isSpace_of_isDigit hd])]
  unfold sign
  split
  · rename_i heq; exact absurd (List.cons.inj heq).1 h43
  · rename_i heq; exact absurd (List.cons.inj heq).1 h45
  · rfl

theorem stoull_decimal (n : UInt64) : stoull (decimal n.toNat) = some n := by
  have htake : (decimal n.toNat).takeWhile isDigit = decimal n.toNat :=
    List.takeWhile_eq_self_iff.2 fun b hb => isDigit_of_mem_decimal hb
  have hsign := sign_decimal n.toNat []
  have hlt : ¬2 ^ 64 ≤ n.toNat := not_le.2 n.toNat_lt
  rw [List.append_nil] at hsign
  unfold stoull
  simp only [hsign, htake, value_decimal, decimal_ne_nil, hlt, or_self, if_false]
  simp

theorem readInt_decimal (n : ℕ) (s : Bytes) :
    readInt (decimal n ++ 32 :: s) = if n < 2 ^ 31 then some ((n : ℤ), 32 :: s) else none := by
  have hdigit : ∀ b ∈ decimal n, isDigit b = true := fun b hb => isDigit_of_mem_decimal hb
  have htake : (decimal n ++ 32 :: s).takeWhile isDigit = decimal n := by
    rw [List.takeWhile_append_of_pos hdigit]
    simp [isDigit]
  have hdrop : (decimal n ++ 32 :: s).dropWhile isDigit = 32 :: s := by
    rw [List.dropWhile_append_of_pos hdigit]
    simp [isDigit]
  unfold readInt
  simp only [sign_decimal, htake, hdrop, value_decimal, decimal_ne_nil, false_or, Bool.false_eq_true, if_false]
  by_cases h : n < 2 ^ 31
  · rw [if_neg (by omega), if_pos h]
  · rw [if_pos (by omega), if_neg h]

theorem readRow_row {path : Bytes} (hne : path ≠ []) (hpath : ∀ b ∈ path, isSpace b = false) (n : ℕ)
    (s : Bytes) : readRow (decimal n ++ 32 :: path ++ 32 :: s) =
      if n < 2 ^ 31 ∧ twoWords s then some ((n : ℤ), path) else none := by
  have hword : nextWord isSpace (32 :: (path ++ 32 :: s)) = some (path, 32 :: s) := by
    rw [nextWord_sep (by decide), nextWord_word hne hpath (by simp [isSpace])]
  have hblank : nextWord isSpace (32 :: s) = nextWord isSpace s := nextWord_sep (by decide) s
  unfold readRow twoWords
  rw [List.append_assoc, List.cons_append, readInt_decimal]
  by_cases h : n < 2 ^ 31
  · simp only [h, if_true, Option.bind_eq_bind, Option.bind_some, hword, hblank, true_and]
    cases nextWord isSpace s with
    | none => simp
    | some p => cases hp : nextWord isSpace p.2 <;> simp [hp]
  · simp only [h, if_false, false_and, Option.bind_eq_bind, Option.bind_none]

/-! ## What a line adds -/

/-- The tables that rows have for a level. -/
def rowsAt (rs : List (ℕ × OpenTable)) (i : ℕ) : List OpenTable :=
  (rs.filter (·.1 = i)).map Prod.snd

/-- The rows that a line adds to `levels_`, `none` where its read does not return. -/
def pushed (files : Bytes → Option Bytes) (buf : Bytes) : Option (List (ℕ × OpenTable)) :=
  (readLine files { levels := [] } buf).map fun m => rows m.levels

theorem rowsAt_append (rs rs' : List (ℕ × OpenTable)) (i : ℕ) :
    rowsAt (rs ++ rs') i = rowsAt rs i ++ rowsAt rs' i := by
  simp [rowsAt]

theorem mem_rowsAt {rs : List (ℕ × OpenTable)} {i : ℕ} {t : OpenTable} :
    t ∈ rowsAt rs i ↔ (i, t) ∈ rs := by
  simp [rowsAt, and_comm]

theorem rowsAt_rows (levels : List (List OpenTable)) (i : ℕ) :
    rowsAt (rows levels) i = levels.getD i [] := by
  -- the levels are numbered from `k` on while the front ones are taken off
  have h : ∀ k, rowsAt ((levels.zipIdx k).flatMap fun l => l.1.map fun t => (l.2, t)) i =
      if i < k then [] else levels.getD (i - k) [] := by
    induction levels with
    | nil => intro k; simp [rowsAt]
    | cons l levels ih =>
      intro k
      rw [List.zipIdx_cons, List.flatMap_cons, rowsAt_append, ih]
      rcases lt_trichotomy i k with hlt | rfl | hgt
      · simp [rowsAt, List.filter_map, Function.comp_def, hlt, hlt.ne', Nat.lt_succ_of_lt hlt]
      · simp [rowsAt, List.filter_map, Function.comp_def]
      · obtain ⟨d, rfl⟩ : ∃ d, i = k + 1 + d := ⟨i - (k + 1), by omega⟩
        have hsub : k + 1 + d - k = d + 1 := by omega
        have hlt : ¬k + 1 + d < k + 1 := by omega
        rw [if_neg hlt, if_neg hgt.not_gt, hsub, Nat.add_sub_cancel_left, List.getD_cons_succ]
        simp [rowsAt, List.filter_map, Function.comp_def, hgt.ne]
  simpa [rows] using h 0

theorem getD_pushBack (levels : List (List OpenTable)) (level : ℕ) (t : OpenTable) (i : ℕ) :
    (pushBack levels level t).getD i [] = levels.getD i [] ++ rowsAt [(level, t)] i := by
  simp only [pushBack, List.getD_eq_getElem?_getD, List.getElem?_modify, List.getElem?_append,
    List.getElem?_replicate, rowsAt]
  by_cases hi : level = i
  · subst hi
    by_cases hlt : level < levels.length
    · simp [hlt]
    · have hroom : level - levels.length < level + 1 - levels.length := by omega
      simp [hlt, hroom]
  · by_cases hlt : i < levels.length
    · simp [hlt, hi]
    · have hnone : levels[i]? = none := List.getElem?_eq_none (not_lt.1 hlt)
      simp only [hlt, hi, if_false]
      split <;> simp [hi, hnone]

theorem rows_pushBack_nil (level : ℕ) (t : OpenTable) : rows (pushBack [] level t) = [(level, t)] := by
  have hpush : pushBack [] level t = List.replicate level [] ++ [[t]] := by
    rw [pushBack, List.modify_eq_take_cons_drop (by simp)]
    simp
  have hempty : (List.zipIdx (List.replicate level ([] : List OpenTable))).flatMap
      (fun l => l.1.map fun t => (l.2, t)) = [] := by
    rw [List.flatMap_eq_nil_iff]
    intro l hl
    rw [List.eq_of_mem_replicate (List.fst_mem_of_mem_zipIdx hl), List.map_nil]
  rw [rows, hpush, List.zipIdx_append, List.flatMap_append, hempty]
  simp

/-- A table that opens has the path it was opened with. -/
theorem filePath_of_openPath {files : Bytes → Option Bytes} {path : Bytes} {t : OpenTable}
    (h : OpenTable.openPath files path = .ok (some t)) : t.filePath = path := by
  unfold OpenTable.openPath at h
  split at h
  · cases h
  · split at h
    · cases h; rfl
    · cases h
    · cases h

/-- **What one line does**: its read does not return, or it adds no table, or it adds the one
that its path opens. -/
theorem readLine_cases (files : Bytes → Option Bytes) (buf : Bytes) :
    (∀ m, readLine files m buf = none) ∨
    (∀ m, ∃ m', readLine files m buf = some m' ∧ m'.levels = m.levels) ∨
    ∃ (level : ℕ) (t : OpenTable), readRow (trim buf) = some ((level : ℤ), t.filePath) ∧
      OpenTable.openPath files t.filePath = .ok (some t) ∧
      ∀ m, readLine files m buf = some { m with levels := pushBack m.levels level t } := by
  unfold readLine
  by_cases hempty : trim buf = []
  · exact .inr (.inl fun m => ⟨m, by simp [hempty]⟩)
  by_cases hnext : (ascii "next_file_number:").isPrefixOf (trim buf) = true
  · by_cases hlen : (trim buf).length < 18
    · exact .inl fun m => by simp [hempty, hnext, hlen]
    · cases hn : stoull ((trim buf).drop 18) with
      | none => exact .inl fun m => by simp [hempty, hnext, hlen, hn]
      | some n => exact .inr (.inl fun m => ⟨{ m with nextFileNumber := n }, by simp [hempty, hnext, hlen, hn]⟩)
  by_cases hwal : (ascii "wal_number:").isPrefixOf (trim buf) = true
  · by_cases hlen : (trim buf).length < 12
    · exact .inl fun m => by simp [hempty, hnext, hwal, hlen]
    · cases hn : stoull ((trim buf).drop 12) with
      | none => exact .inl fun m => by simp [hempty, hnext, hwal, hlen, hn]
      | some n => exact .inr (.inl fun m => ⟨{ m with walNumber := n }, by simp [hempty, hnext, hwal, hlen, hn]⟩)
  cases hrow : readRow (trim buf) with
  | none => exact .inr (.inl fun m => ⟨m, by simp [hempty, hnext, hwal, hrow]⟩)
  | some row =>
    obtain ⟨level, path⟩ := row
    cases hopen : OpenTable.openPath files path with
    | error e => exact .inl fun m => by simp [hempty, hnext, hwal, hrow, hopen]
    | ok t =>
      cases t with
      | none => exact .inr (.inl fun m => ⟨m, by simp [hempty, hnext, hwal, hrow, hopen]⟩)
      | some t =>
        by_cases hlevel : level < 0 ∨ level = 2 ^ 31 - 1
        · exact .inl fun m => by simp only [hempty, hnext, hwal, hrow, hopen, hlevel, Bool.false_eq_true, if_false, if_true]
        · have hpath := filePath_of_openPath hopen
          have hnat : (level.toNat : ℤ) = level := Int.toNat_of_nonneg (by omega)
          refine .inr (.inr ⟨level.toNat, t, by rw [hnat, hpath], by rw [hpath, hopen], fun m => ?_⟩)
          simp only [hempty, hnext, hwal, hrow, hopen, hlevel, Bool.false_eq_true, if_false]

section

variable {files : Bytes → Option Bytes} {buf : Bytes}

theorem readLine_none (h : pushed files buf = none) (m : Restored) : readLine files m buf = none := by
  rcases readLine_cases files buf with hc | hc | ⟨level, t, _, _, hc⟩
  · exact hc m
  · obtain ⟨m', hm', -⟩ := hc { levels := [] }
    simp [pushed, hm'] at h
  · simp [pushed, hc] at h

/-- A line adds the same rows whatever `levels_` holds. -/
theorem readLine_some {rs : List (ℕ × OpenTable)} (h : pushed files buf = some rs) (m : Restored) :
    ∃ m', readLine files m buf = some m' ∧
      ∀ i, m'.levels.getD i [] = m.levels.getD i [] ++ rowsAt rs i := by
  rcases readLine_cases files buf with hc | hc | ⟨level, t, _, _, hc⟩
  · simp [pushed, hc] at h
  · obtain ⟨m₀, hm₀, hlevels⟩ := hc { levels := [] }
    obtain ⟨m', hm', hkeep⟩ := hc m
    simp only [pushed, hm₀, hlevels, Option.map_some, Option.some.injEq] at h
    exact ⟨m', hm', fun i => by simp [hkeep, ← h, rows, rowsAt]⟩
  · simp only [pushed, hc, Option.map_some, Option.some.injEq, rows_pushBack_nil] at h
    exact ⟨_, hc m, fun i => by rw [← h, getD_pushBack]⟩

/-- A row that a line adds is its own: the table its path opens, and a path is a word. -/
theorem of_mem_pushed {rs : List (ℕ × OpenTable)} (h : pushed files buf = some rs) {r : ℕ × OpenTable}
    (hr : r ∈ rs) : ∀ b ∈ r.2.filePath, isSpace b = false := by
  rcases readLine_cases files buf with hc | hc | ⟨level, t, hrow, _, hc⟩
  · simp [pushed, hc] at h
  · obtain ⟨m₀, hm₀, hlevels⟩ := hc { levels := [] }
    simp only [pushed, hm₀, hlevels, Option.map_some, Option.some.injEq] at h
    simp [← h, rows] at hr
  · simp only [pushed, hc, Option.map_some, Option.some.injEq, rows_pushBack_nil] at h
    rw [← h, List.mem_singleton] at hr
    rw [hr]
    unfold readRow at hrow
    simp only [Option.bind_eq_bind, Option.bind_eq_some_iff] at hrow
    obtain ⟨a, _, w, hw, _, _, _, _, hpath⟩ := hrow
    simp only [pure, Option.some.injEq, Prod.mk.injEq] at hpath
    rw [← hpath.2]
    exact (@of_nextWord _ _ a.2 _ _ hw).2

/-- **The lines of a file**, when each of their reads returns, add their rows one after the other. -/
theorem readLines_some {bufs : List Bytes} (h : ∀ b ∈ bufs, pushed files b ≠ none) (m : Restored) :
    ∃ m', bufs.foldlM (readLine files) m = some m' ∧ ∀ i, m'.levels.getD i [] =
      m.levels.getD i [] ++ rowsAt (bufs.flatMap fun b => (pushed files b).getD []) i := by
  induction bufs generalizing m with
  | nil => exact ⟨m, rfl, fun i => by simp [rowsAt]⟩
  | cons b bufs ih =>
    obtain ⟨rs, hrs⟩ := Option.ne_none_iff_exists'.1 (h b (by simp))
    obtain ⟨m₁, hm₁, h₁⟩ := readLine_some hrs m
    obtain ⟨m₂, hm₂, h₂⟩ := ih (fun b' hb' => h b' (by simp [hb'])) m₁
    refine ⟨m₂, by simp [hm₁, hm₂], fun i => ?_⟩
    rw [h₂, h₁, List.flatMap_cons, rowsAt_append, hrs, Option.getD_some, List.append_assoc]

theorem readLines_none {bufs : List Bytes} {b : Bytes} (hb : b ∈ bufs) (h : pushed files b = none)
    (m : Restored) : bufs.foldlM (readLine files) m = none := by
  induction bufs generalizing m with
  | nil => cases hb
  | cons c bufs ih =>
    rcases List.mem_cons.1 hb with rfl | hb
    · simp [readLine_none h]
    · rw [List.foldlM_cons]
      cases readLine files m c with
      | none => rfl
      | some m' => exact ih hb m'

end

/-! ## The lines of the two numbers -/

/-- The line of a number. -/
def numberLine (label : Bytes) (n : ℕ) : Bytes := label ++ 32 :: decimal n ++ [10]

theorem print_eq (levels : List (List OpenTable)) (nextFileNumber walNumber : UInt64) :
    print levels nextFileNumber walNumber =
      (rows levels).flatMap (fun r => tableLine r.1 r.2) ++
        (numberLine (ascii "next_file_number:") nextFileNumber.toNat ++
          numberLine (ascii "wal_number:") walNumber.toNat) := by
  simp [print, numberLine, ascii]

theorem trim_numberLine (label : Bytes) (n : ℕ) : trim (numberLine label n) = label ++ 32 :: decimal n := by
  have hrev : ((decimal n).reverse).dropWhile (fun b => b = 10 || b = 13) = (decimal n).reverse := by
    cases h : (decimal n).reverse with
    | nil => rfl
    | cons b ds =>
      have hd : isDigit b := isDigit_of_mem_decimal (List.mem_reverse.1 (h ▸ List.mem_cons_self))
      apply List.dropWhile_cons_of_neg
      simp only [Bool.or_eq_true, decide_eq_true_eq, not_or]
      exact ⟨by rintro rfl; exact absurd hd (by decide), by rintro rfl; exact absurd hd (by decide)⟩
  have htrim : trim (decimal n ++ [10]) = decimal n := by simp [trim, hrev]
  rw [numberLine, List.append_assoc, List.cons_append, trim_blank, htrim]

theorem readLine_next (files : Bytes → Option Bytes) (m : Restored) (n : UInt64) :
    readLine files m (numberLine (ascii "next_file_number:") n.toNat) =
      some { m with nextFileNumber := n } := by
  unfold readLine
  simp only [trim_numberLine]
  simp [ascii, stoull_decimal]

theorem readLine_wal (files : Bytes → Option Bytes) (m : Restored) (n : UInt64) :
    readLine files m (numberLine (ascii "wal_number:") n.toNat) = some { m with walNumber := n } := by
  unfold readLine
  simp only [trim_numberLine]
  simp [ascii, stoull_decimal]

theorem fgetsAll_numberLine {label : Bytes} (hlabel : 10 ∉ label) (hlen : label.length ≤ 20)
    (n : UInt64) : fgetsAll (numberLine label n.toNat) = [numberLine label n.toNat] := by
  have hdigits : (decimal n.toNat).length ≤ 20 := by
    apply length_decimal_le (by omega)
    have := n.toNat_lt
    omega
  have hnl : (10 : UInt8) ∉ label ++ 32 :: decimal n.toNat := by
    simp only [List.mem_append, List.mem_cons, not_or]
    refine ⟨hlabel, by decide, fun h => ?_⟩
    exact absurd (isDigit_of_mem_decimal h) (by decide)
  obtain ⟨l, ls, hl, hp⟩ := @pieces_front _ _ (10 : UInt8) 511 510 (label ++ 32 :: decimal n.toNat) [10]
    (by simp) hnl (by simp only [List.length_append, List.length_cons]; omega)
  simp only [pieces, true_or, if_true, List.cons.injEq] at hl
  rw [fgetsAll, numberLine, hp, ← hl.1, ← hl.2]

theorem fgetsAll_line (line rest : Bytes) :
    fgetsAll (line ++ [10] ++ rest) = fgetsAll (line ++ [10]) ++ fgetsAll rest := by
  rw [List.append_assoc]
  exact pieces_append 510 line rest

theorem fgetsAll_lines {α : Type} (line : α → Bytes) (rs : List α) (rest : Bytes) :
    fgetsAll (rs.flatMap (fun r => line r ++ [10]) ++ rest) =
      rs.flatMap (fun r => fgetsAll (line r ++ [10])) ++ fgetsAll rest := by
  induction rs with
  | nil => rfl
  | cons r rs ih =>
    rw [List.flatMap_cons, List.append_assoc, fgetsAll_line, ih, List.flatMap_cons, List.append_assoc]

/-- **Every line is read for itself**, and the numbers come back whatever stands in front of them. -/
theorem read_print (files : Bytes → Option Bytes) (levels : List (List OpenTable))
    (nextFileNumber walNumber : UInt64) :
    read files (print levels nextFileNumber walNumber) =
      (((rows levels).flatMap fun r => fgetsAll (tableLine r.1 r.2)).foldlM (readLine files) {}).map
        fun m => { m with nextFileNumber := nextFileNumber, walNumber := walNumber } := by
  have hnext : fgetsAll (numberLine (ascii "next_file_number:") nextFileNumber.toNat ++
      numberLine (ascii "wal_number:") walNumber.toNat) =
      [numberLine (ascii "next_file_number:") nextFileNumber.toNat,
        numberLine (ascii "wal_number:") walNumber.toNat] := by
    have h1 := @fgetsAll_numberLine (ascii "next_file_number:") (by decide) (by decide) nextFileNumber
    have h2 := @fgetsAll_numberLine (ascii "wal_number:") (by decide) (by decide) walNumber
    rw [numberLine] at h1 ⊢
    rw [fgetsAll_line, h1, h2]
    rfl
  unfold read
  rw [print_eq]
  have hlines := fgetsAll_lines (fun r : ℕ × OpenTable => decimal r.1 ++ 32 :: cString r.2.filePath ++
    32 :: cString r.2.table.firstKey ++ 32 :: cString r.2.table.lastKey) (rows levels)
    (numberLine (ascii "next_file_number:") nextFileNumber.toNat ++
      numberLine (ascii "wal_number:") walNumber.toNat)
  unfold tableLine
  rw [hlines, hnext, List.foldlM_append]
  cases (List.foldlM (readLine files) {} _ : Option Restored) with
  | none => rfl
  | some m => simp [readLine_next, readLine_wal]

/-! ## The line of a table -/

/-- What the first read of the line of `t` gets of its two keys: what fits in the buffer behind
level and path, up to a newline. -/
def keysRead (level : ℕ) (t : OpenTable) : Bytes :=
  ((cString t.table.firstKey ++ 32 :: cString t.table.lastKey).take
    (509 - (decimal level).length - t.filePath.length)).takeWhile (· ≠ 10)

/-- The pieces in which the rest of the line of `t` is read. -/
def behind (level : ℕ) (t : OpenTable) : List Bytes := (fgetsAll (tableLine level t)).tail

/-- **The line of `t` is read as its row**: the path is one word, the level is an `int` with a
successor, and the first read gets two words behind the path. -/
structure Legible (level : ℕ) (t : OpenTable) : Prop where
  level_lt : level < 2 ^ 31 - 1
  path : ∀ b ∈ t.filePath, isSpace b = false
  keys : twoWords (keysRead level t) = true

instance (level : ℕ) (t : OpenTable) : Decidable (Legible level t) :=
  haveI := List.decidableBAll (fun b => isSpace b = false) t.filePath
  decidable_of_iff (level < 2 ^ 31 - 1 ∧ (∀ b ∈ t.filePath, isSpace b = false) ∧
      twoWords (keysRead level t) = true)
    ⟨fun h => ⟨h.1, h.2.1, h.2.2⟩, fun h => ⟨h.level_lt, h.path, h.keys⟩⟩

section

variable {files : Bytes → Option Bytes} {dbPath : Bytes} {number level : ℕ} {t : OpenTable}

theorem takeWhile_take_append (x : Bytes) (n : ℕ) :
    ((x ++ [10]).take n).takeWhile (· ≠ 10) = (x.take n).takeWhile (· ≠ 10) := by
  rw [List.take_append, List.takeWhile_append]
  split
  · rename_i h
    have hself : (x.take n).takeWhile (· ≠ 10) = x.take n := (List.takeWhile_prefix _).eq_of_length h
    have hnone : (([10] : Bytes).take (n - x.length)).takeWhile (· ≠ 10) = [] := by
      cases n - x.length <;> simp
    rw [hself, hnone, List.append_nil]
  · rfl

/-- The first piece of a line whose path is one word. -/
theorem fgetsAll_tableLine (hlevel : level < 2 ^ 64) (hname : t.filePath = sstableFileName dbPath number)
    (hpath : ∀ b ∈ t.filePath, isSpace b = false) :
    ∃ e, (∀ b ∈ e, b = 10) ∧ fgetsAll (tableLine level t) =
      (decimal level ++ 32 :: t.filePath ++ 32 :: (keysRead level t ++ e)) :: behind level t := by
  have hdigits : (decimal level).length ≤ 20 := length_decimal_le (by omega) (by omega)
  have hlen : t.filePath.length ≤ 127 := hname ▸ length_sstableFileName_le dbPath number
  have hcstr : cString t.filePath = t.filePath := by rw [hname, cString_sstableFileName]
  have hnl : (10 : UInt8) ∉ decimal level ++ 32 :: t.filePath ++ [32] := by
    simp only [List.mem_append, List.mem_cons, List.not_mem_nil, not_or]
    refine ⟨⟨fun h => ?_, by decide, fun h => ?_⟩, by decide, by simp⟩
    · exact absurd (isDigit_of_mem_decimal h) (by decide)
    · exact absurd (hpath 10 h) (by decide)
  have hline : tableLine level t = (decimal level ++ 32 :: t.filePath ++ [32]) ++
      (cString t.table.firstKey ++ 32 :: cString t.table.lastKey ++ [10]) := by
    simp [tableLine, hcstr]
  obtain ⟨l, ls, hl, hp⟩ := @pieces_front _ _ (10 : UInt8) 511 510
    (decimal level ++ 32 :: t.filePath ++ [32])
    (cString t.table.firstKey ++ 32 :: cString t.table.lastKey ++ [10]) (by simp) hnl
    (by simp only [List.length_append, List.length_cons, List.length_nil]; omega)
  obtain ⟨e, ls', he, hhead⟩ := @pieces_head _ _ (10 : UInt8) 511
    (510 - (decimal level ++ 32 :: t.filePath ++ [32]).length)
    (cString t.table.firstKey ++ 32 :: cString t.table.lastKey ++ [10]) (by simp)
  have hroom : 510 - (decimal level ++ 32 :: t.filePath ++ [32]).length + 1 =
      509 - (decimal level).length - t.filePath.length := by
    simp only [List.length_append, List.length_cons, List.length_nil]
    omega
  rw [hhead, hroom, takeWhile_take_append, List.cons.injEq] at hl
  have hall : fgetsAll (tableLine level t) =
      (decimal level ++ 32 :: t.filePath ++ 32 :: (keysRead level t ++ e)) :: ls := by
    rw [fgetsAll, hline, hp, ← hl.1]
    simp [keysRead]
  exact ⟨e, he, by rw [behind, hall]; rfl⟩

/-- The piece of a row that starts with a digit is neither empty nor a number line. -/
theorem pushed_row {buf : Bytes} {n : ℕ} {s : Bytes} (h : trim buf = decimal n ++ s) :
    (readRow (trim buf) = none → pushed files buf = some []) ∧
    ∀ level : ℕ, readRow (trim buf) = some ((level : ℤ), t.filePath) →
      OpenTable.openPath files t.filePath = .ok (some t) →
      pushed files buf = if level = 2 ^ 31 - 1 then none else some [(level, t)] := by
  obtain ⟨b, ds, hb⟩ := List.exists_cons_of_ne_nil (decimal_ne_nil n)
  have hd : isDigit b := @isDigit_of_mem_decimal n b (by simp [hb])
  have hempty : trim buf ≠ [] := by simp [h, hb]
  have hn : b ≠ 110 := by rintro rfl; exact absurd hd (by decide)
  have hw : b ≠ 119 := by rintro rfl; exact absurd hd (by decide)
  -- a digit starts neither of the two number lines
  have hnext : (ascii "next_file_number:").isPrefixOf (trim buf) = false := by
    rw [h, hb]
    simp [ascii, List.isPrefixOf, hn.symm]
  have hwal : (ascii "wal_number:").isPrefixOf (trim buf) = false := by
    rw [h, hb]
    simp [ascii, List.isPrefixOf, hw.symm]
  unfold pushed readLine
  constructor
  · intro hrow
    simp [hempty, hnext, hwal, hrow, rows]
  · intro level hrow hopen
    simp only [hempty, hnext, hwal, hrow, hopen, Bool.false_eq_true, if_false]
    by_cases hmax : level = 2 ^ 31 - 1
    · rw [if_pos (by omega), if_pos hmax, Option.map_none]
    · rw [if_neg (by omega), if_neg hmax, Option.map_some, Int.toNat_natCast, rows_pushBack_nil]

/-- **What the first piece of a line adds**: its table, if the line is legible; otherwise nothing
that is listed. -/
theorem pushed_first (hlevel : level < 2 ^ 64) (hname : t.filePath = sstableFileName dbPath number)
    (hopen : OpenTable.openPath files t.filePath = .ok (some t)) :
    ∃ first, fgetsAll (tableLine level t) = first :: behind level t ∧
      (Legible level t → pushed files first = some [(level, t)]) ∧
      (¬Legible level t → ∀ rs, pushed files first = some rs →
        ∀ r ∈ rs, ∀ n, r.2.filePath ≠ sstableFileName dbPath n) := by
  by_cases hpath : ∀ b ∈ t.filePath, isSpace b = false
  · obtain ⟨e, he, hall⟩ := fgetsAll_tableLine hlevel hname hpath
    have htrim : trim (decimal level ++ 32 :: t.filePath ++ 32 :: (keysRead level t ++ e)) =
        decimal level ++ 32 :: t.filePath ++ 32 :: trim (keysRead level t ++ e) := trim_blank _ _
    have hrow := readRow_row (hname ▸ sstableFileName_ne_nil dbPath number) hpath level
      (trim (keysRead level t ++ e))
    have hspace : ∀ b ∈ e, isSpace b := fun b hb => by rw [he b hb]; decide
    rw [twoWords_trim, twoWords_append hspace, ← htrim] at hrow
    have hdecimal : trim (decimal level ++ 32 :: t.filePath ++ 32 :: (keysRead level t ++ e)) =
        decimal level ++ (32 :: t.filePath ++ 32 :: trim (keysRead level t ++ e)) := by
      rw [htrim, List.append_assoc]
    obtain ⟨hnone, hsome⟩ := @pushed_row files t _ _ _ hdecimal
    refine ⟨_, hall, fun h => ?_, fun h rs hrs r hr => ?_⟩
    · have := h.level_lt
      rw [hsome level (by rw [hrow, if_pos ⟨by omega, h.keys⟩]) hopen, if_neg (by omega)]
    · -- the row is not read, or the level is the one that overflows
      exfalso
      by_cases hread : level < 2 ^ 31 ∧ twoWords (keysRead level t) = true
      · have hmax : level = 2 ^ 31 - 1 := by
          by_contra hne
          exact h ⟨by omega, hpath, hread.2⟩
        rw [hsome level (by rw [hrow, if_pos hread]) hopen, if_pos hmax] at hrs
        cases hrs
      · rw [hnone (by rw [hrow, if_neg hread])] at hrs
        cases hrs
        cases hr
  · have hline : tableLine level t ≠ [] := by simp [tableLine]
    obtain ⟨first, ls, hall⟩ := List.exists_cons_of_ne_nil
      (@pieces_ne_nil _ _ (10 : UInt8) 511 510 _ hline)
    refine ⟨first, by rw [behind, fgetsAll, hall]; rfl, fun h => absurd h.path hpath, ?_⟩
    intro _ rs hrs r hr n hn
    -- every listed path has the space, and a path that is read has none
    push Not at hpath
    obtain ⟨b, hb, hspace⟩ := hpath
    rw [hname] at hb
    have hmem := space_sstableFileName hb (by simpa using hspace) n
    exact hspace (of_mem_pushed hrs hr b (hn ▸ hmem))

end

/-! ## The whole file -/

/-- **`ReadManifest` restores what `WriteManifest` printed**: the tables of every level in their
order, and the two numbers. -/
def Restores (files : Bytes → Option Bytes) (levels : List (List OpenTable))
    (nextFileNumber walNumber : UInt64) : Prop :=
  ∃ m, read files (print levels nextFileNumber walNumber) = some m ∧
    (∀ i, m.levels.getD i [] = levels.getD i []) ∧
    m.nextFileNumber = nextFileNumber ∧ m.walNumber = walNumber

/-- What is left of the line of `t` behind its first piece is passed over. -/
def PassedOver (files : Bytes → Option Bytes) (level : ℕ) (t : OpenTable) : Prop :=
  ∀ buf ∈ behind level t, pushed files buf = some []

/-- The rows that the line of a listed table adds. -/
def linePushed (files : Bytes → Option Bytes) (r : ℕ × OpenTable) : List (ℕ × OpenTable) :=
  (fgetsAll (tableLine r.1 r.2)).flatMap fun buf => (pushed files buf).getD []

theorem flatMap_if {α : Type} (p : α → Prop) [DecidablePred p] (xs : List α) :
    xs.flatMap (fun x => if p x then [x] else []) = xs.filter p := by
  induction xs with
  | nil => rfl
  | cons x xs ih =>
    rw [List.flatMap_cons, ih]
    by_cases h : p x <;> simp [h]

theorem restores_iff_rows (files : Bytes → Option Bytes) (levels : List (List OpenTable))
    (nextFileNumber walNumber : UInt64) : Restores files levels nextFileNumber walNumber ↔
      (∀ r ∈ rows levels, ∀ buf ∈ fgetsAll (tableLine r.1 r.2), pushed files buf ≠ none) ∧
      ∀ i, rowsAt ((rows levels).flatMap (linePushed files)) i = levels.getD i [] := by
  have hempty : ∀ i, (List.replicate 4 ([] : List OpenTable)).getD i [] = [] := by
    intro i
    simp only [List.getD_eq_getElem?_getD, List.getElem?_replicate]
    split <;> rfl
  unfold Restores linePushed
  rw [read_print, ← List.flatMap_assoc]
  constructor
  · rintro ⟨m, hm, hlevels, -, -⟩
    have hall : ∀ b ∈ (rows levels).flatMap fun r => fgetsAll (tableLine r.1 r.2),
        pushed files b ≠ none := by
      intro b hb hnone
      rw [readLines_none hb hnone] at hm
      cases hm
    refine ⟨fun r hr b hb => hall b (List.mem_flatMap.2 ⟨r, hr, hb⟩), fun i => ?_⟩
    obtain ⟨m₀, hm₀, hrows⟩ := readLines_some hall {}
    rw [hm₀, Option.map_some, Option.some.injEq] at hm
    rw [← hlevels i, ← hm]
    have := hrows i
    rw [hempty, List.nil_append] at this
    exact this.symm
  · rintro ⟨hall, hrows⟩
    have hall' : ∀ b ∈ (rows levels).flatMap fun r => fgetsAll (tableLine r.1 r.2),
        pushed files b ≠ none := by
      intro b hb
      obtain ⟨r, hr, hb⟩ := List.mem_flatMap.1 hb
      exact hall r hr b hb
    obtain ⟨m₀, hm₀, h₀⟩ := readLines_some hall' {}
    refine ⟨_, by rw [hm₀]; rfl, fun i => ?_, rfl, rfl⟩
    have := h₀ i
    simp only [hempty, List.nil_append] at this
    rw [← hrows i, ← this]

section

variable {files : Bytes → Option Bytes} {dbPath : Bytes} {r : ℕ × OpenTable}

theorem PassedOver.adds_nothing (h : PassedOver files r.1 r.2) :
    (behind r.1 r.2).flatMap (fun buf => (pushed files buf).getD []) = [] :=
  List.flatMap_eq_nil_iff.2 fun buf hbuf => by simp [h buf hbuf]

/-- A legible line whose rest is passed over adds its own row. -/
theorem linePushed_of_legible (hlevel : r.1 < 2 ^ 64)
    (hname : ∃ n, r.2.filePath = sstableFileName dbPath n)
    (hopen : OpenTable.openPath files r.2.filePath = .ok (some r.2)) (hleg : Legible r.1 r.2)
    (hrest : PassedOver files r.1 r.2) :
    (∀ buf ∈ fgetsAll (tableLine r.1 r.2), pushed files buf ≠ none) ∧ linePushed files r = [r] := by
  obtain ⟨n, hn⟩ := hname
  obtain ⟨first, hall, hlegible, -⟩ := pushed_first hlevel hn hopen
  have hone := hlegible hleg
  unfold linePushed
  rw [hall]
  constructor
  · intro buf hbuf
    rcases List.mem_cons.1 hbuf with rfl | hbuf
    · simp [hone]
    · simp [hrest buf hbuf]
  · rw [List.flatMap_cons, hone, hrest.adds_nothing]
    rfl

/-- A line that adds listed rows only, and none behind its first piece, adds its own row if it is
legible and nothing otherwise. -/
theorem linePushed_of_listed {listed : List (ℕ × OpenTable)} (hlevel : r.1 < 2 ^ 64)
    (hname : ∀ s ∈ listed, ∃ n, s.2.filePath = sstableFileName dbPath n)
    (hopen : OpenTable.openPath files r.2.filePath = .ok (some r.2)) (hr : r ∈ listed)
    (hreturns : ∀ buf ∈ fgetsAll (tableLine r.1 r.2), pushed files buf ≠ none)
    (hlisted : ∀ s ∈ linePushed files r, s ∈ listed)
    (hstray : ∀ buf ∈ behind r.1 r.2, ∀ s ∈ (pushed files buf).getD [], s ∉ listed) :
    PassedOver files r.1 r.2 ∧ linePushed files r = if Legible r.1 r.2 then [r] else [] := by
  obtain ⟨n, hn⟩ := hname r hr
  obtain ⟨first, hall, hlegible, hother⟩ := pushed_first hlevel hn hopen
  unfold linePushed at hlisted ⊢
  rw [hall] at hreturns hlisted ⊢
  have hin : ∀ buf ∈ first :: behind r.1 r.2, ∀ rs, pushed files buf = some rs → ∀ s ∈ rs, s ∈ listed :=
    fun buf hbuf rs hrs s hs => hlisted s (List.mem_flatMap.2 ⟨buf, hbuf, by simpa [hrs] using hs⟩)
  have hrest : PassedOver files r.1 r.2 := by
    intro buf hbuf
    have hmem := List.mem_cons_of_mem first hbuf
    obtain ⟨rs, hrs⟩ := Option.ne_none_iff_exists'.1 (hreturns buf hmem)
    have hnil : rs = [] := List.eq_nil_iff_forall_not_mem.2 fun s hs =>
      hstray buf hbuf s (by simpa [hrs] using hs) (hin buf hmem rs hrs s hs)
    rw [hrs, hnil]
  refine ⟨hrest, ?_⟩
  rw [List.flatMap_cons, hrest.adds_nothing, List.append_nil]
  split
  · rename_i hleg
    simp [hlegible hleg]
  · rename_i hleg
    have hmem : first ∈ first :: behind r.1 r.2 := List.mem_cons_self
    obtain ⟨rs, hrs⟩ := Option.ne_none_iff_exists'.1 (hreturns first hmem)
    rw [hrs, Option.getD_some]
    refine List.eq_nil_iff_forall_not_mem.2 fun s hs => ?_
    obtain ⟨k, hk⟩ := hname s (hin first hmem rs hrs s hs)
    exact hother hleg rs hrs s hs k hk

end

/-- The rows restored are at their levels, so whatever a line adds is listed. -/
theorem linePushed_listed {files : Bytes → Option Bytes} {levels : List (List OpenTable)}
    (hrows : ∀ i, rowsAt ((rows levels).flatMap (linePushed files)) i = levels.getD i [])
    {r s : ℕ × OpenTable} (hr : r ∈ rows levels) (hs : s ∈ linePushed files r) : s ∈ rows levels := by
  have hat : s.2 ∈ rowsAt _ s.1 := mem_rowsAt.2 (List.mem_flatMap.2 ⟨r, hr, hs⟩)
  rw [hrows, ← rowsAt_rows] at hat
  exact mem_rowsAt.1 hat

/-- **Reading the MANIFEST back.** The listed files are named as `SSTableFileName` names them and
open. Tables and numbers are restored if every line is legible and the rest of it is passed over;
and only then, unless the rest of some line spells out the row of a listed table. -/
theorem restores_iff {files : Bytes → Option Bytes} {dbPath : Bytes} {levels : List (List OpenTable)}
    (hlevels : levels.length ≤ 2 ^ 64)
    (hname : ∀ r ∈ rows levels, ∃ n, r.2.filePath = sstableFileName dbPath n)
    (hopen : ∀ r ∈ rows levels, OpenTable.openPath files r.2.filePath = .ok (some r.2))
    (nextFileNumber walNumber : UInt64) :
    ((∀ r ∈ rows levels, Legible r.1 r.2 ∧ PassedOver files r.1 r.2) →
      Restores files levels nextFileNumber walNumber) ∧
    ((∀ r ∈ rows levels, ∀ buf ∈ behind r.1 r.2, ∀ s ∈ (pushed files buf).getD [], s ∉ rows levels) →
      Restores files levels nextFileNumber walNumber →
      ∀ r ∈ rows levels, Legible r.1 r.2 ∧ PassedOver files r.1 r.2) := by
  have hlt : ∀ r ∈ rows levels, r.1 < 2 ^ 64 := by
    intro r hr
    obtain ⟨l, hl, hr⟩ := List.mem_flatMap.1 hr
    obtain ⟨t, -, rfl⟩ := List.mem_map.1 hr
    have := List.snd_lt_of_mem_zipIdx hl
    simp only at *
    omega
  rw [restores_iff_rows]
  constructor
  · intro h
    have hlines := fun r hr =>
      linePushed_of_legible (hlt r hr) (hname r hr) (hopen r hr) (h r hr).1 (h r hr).2
    refine ⟨fun r hr => (hlines r hr).1, fun i => ?_⟩
    have hall : (rows levels).flatMap (linePushed files) = rows levels := by
      rw [List.flatMap_congr fun r hr => (hlines r hr).2]
      simp
    rw [hall, rowsAt_rows]
  · rintro hstray ⟨hreturns, hrows⟩
    have hlines := fun r hr => linePushed_of_listed (hlt r hr) hname (hopen r hr) hr (hreturns r hr)
      (fun s => linePushed_listed hrows hr) (hstray r hr)
    -- so at every level as many tables are restored as have legible lines
    have hfilter : (rows levels).flatMap (linePushed files) =
        (rows levels).filter fun r => Legible r.1 r.2 := by
      rw [List.flatMap_congr fun r hr => (hlines r hr).2, flatMap_if]
    rw [hfilter] at hrows
    refine fun r hr => ⟨?_, (hlines r hr).1⟩
    have hcount := congrArg List.length (hrows r.1)
    rw [← rowsAt_rows] at hcount
    simp only [rowsAt, List.length_map] at hcount
    rw [List.filter_comm] at hcount
    have := List.length_filter_eq_length_iff.1 hcount r (by simp [hr])
    simpa using this

/-- The files of a database `db` with the table of one pair. -/
def oneFile (key : Bytes) (path : Bytes) : Option Bytes :=
  if path = sstableFileName (ascii "db") 1 then some (SSTableBuilder.build [(key, [1])]) else none

/-- That table. -/
def oneTable (key : Bytes) : OpenTable :=
  ((OpenTable.openPath (oneFile key) (sstableFileName (ascii "db") 1)).toOption.getD none).getD
    ⟨[], { number := 0, data := [] }⟩

/-- A table whose only user key is `a`, at level 1. -/
theorem restores_iff_small : Restores (oneFile [97]) [[], [oneTable [97]]] 2 1 := by
  refine (@restores_iff _ (ascii "db") _ (by decide) ?_ ?_ 2 1).1 ?_
  · intro r hr
    exact ⟨1, by revert r; decide +kernel⟩
  · decide +kernel
  · unfold PassedOver
    decide +kernel

/-- A table whose only user key is a newline opens, and its line is not read as a row. -/
theorem restores_fails :
    OpenTable.openPath (oneFile [10]) (sstableFileName (ascii "db") 1) = .ok (some (oneTable [10])) ∧
      (oneTable [10]).table.index.length = 1 ∧ ¬Restores (oneFile [10]) [[oneTable [10]]] 2 1 := by
  refine ⟨by decide +kernel, by decide +kernel, ?_⟩
  rintro ⟨m, hm, hlevels, -, -⟩
  have hlost : (read (oneFile [10]) (print [[oneTable [10]]] 2 1)).map (·.levels.getD 0 []) = some [] := by
    decide +kernel
  rw [hm, Option.map_some, Option.some.injEq, hlevels 0] at hlost
  cases hlost

end ManifestText

end MiniLSM
