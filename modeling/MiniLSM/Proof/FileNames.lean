import MiniLSM.Spec.Manifest

/-!
# The names of the files

The names of logs and tables are printed into a buffer of 128 bytes, and what does not fit is cut
off.

* `numberedName_eq`: with room for two bytes behind the number, the number and the kind of the file
  can be read off its name.
* `fileNames_iff`: the names are told apart and lie in the directory of the database if the number
  of the greatest file and two bytes more fit in the buffer, and only then.
* `long_path_collides`: the log and the tables of a database with a path of 121 bytes are one file.
-/

namespace MiniLSM

theorem cString_eq {s : Bytes} (h : ∀ b ∈ s, b ≠ 0) : cString s = s :=
  List.takeWhile_eq_self_iff.2 fun b hb => by simpa using h b hb

theorem cString_of_notMem {s : Bytes} (h : 0 ∉ s) : cString s = s :=
  cString_eq fun _ hb h0 => h (h0 ▸ hb)

open Text in
/-- What `snprintf` would print without the limit of its buffer. -/
def wholeFileName (dbPath : Bytes) (number : ℕ) : Bytes :=
  cString dbPath ++ (ascii "/" ++ (List.replicate (6 - (decimal number).length) 48 ++ decimal number ++
    ascii ".sst"))

theorem sstableFileName_eq_take (dbPath : Bytes) (number : ℕ) :
    sstableFileName dbPath number = (wholeFileName dbPath number).take 127 := by
  simp only [sstableFileName, wholeFileName, List.append_assoc]

/-- **Different numbers have different paths**, when those are short enough. -/
theorem sstableFileName_inj {dbPath : Bytes} {m n : ℕ} (hm : (wholeFileName dbPath m).length ≤ 127)
    (hn : (wholeFileName dbPath n).length ≤ 127)
    (h : sstableFileName dbPath m = sstableFileName dbPath n) : m = n := by
  rw [sstableFileName_eq_take, sstableFileName_eq_take, List.take_of_length_le hm,
    List.take_of_length_le hn] at h
  have hdigits := List.append_cancel_left (List.append_cancel_left h)
  exact (Text.padded_inj (show Text.isDigit 46 = false by decide) hdigits).1

/-! ## Numbered names -/

/-- What `snprintf` prints for a numbered file whose extension is `ext`. -/
def numberedName (dbPath ext : Bytes) (number : ℕ) : Bytes :=
  (cString dbPath ++ 47 :: (Text.padded 6 number ++ 46 :: ext)).take 127

theorem sstableFileName_eq_numbered (dbPath : Bytes) (number : ℕ) :
    sstableFileName dbPath number = numberedName dbPath [115, 115, 116] number := by
  simp only [sstableFileName, numberedName, Text.padded, List.append_assoc]
  rfl

theorem walFileName_eq_numbered (dbPath : Bytes) (walNumber : ℕ) :
    walFileName dbPath walNumber = numberedName dbPath [108, 111, 103] walNumber := by
  simp only [walFileName, numberedName, Text.padded, List.append_assoc]
  rfl

theorem length_padded_le {m top : ℕ} (h : m ≤ top) :
    (Text.padded 6 m).length ≤ (Text.padded 6 top).length := by
  rw [Text.length_padded (by decide), Text.length_padded (by decide)]
  have := Nat.le_length_digits_le 10 m top h
  omega

/-- **A name with room for two bytes behind its number** begins with the directory, the number and the
first letter of its extension. -/
theorem numberedName_eq {dbPath ext : Bytes} {c : UInt8} {number : ℕ} (hzero : 0 ∉ dbPath)
    (hroom : dbPath.length + 3 + (Text.padded 6 number).length ≤ 127) :
    numberedName dbPath (c :: ext) number = dbPath ++ 47 :: (Text.padded 6 number ++ 46 :: c ::
      ext.take (124 - dbPath.length - (Text.padded 6 number).length)) := by
  have hsplit : dbPath ++ 47 :: (Text.padded 6 number ++ 46 :: c :: ext) =
      (dbPath ++ 47 :: (Text.padded 6 number ++ [46, c])) ++ ext := by simp
  have hlen : (dbPath ++ 47 :: (Text.padded 6 number ++ [46, c])).length =
      dbPath.length + 3 + (Text.padded 6 number).length := by simp; omega
  rw [numberedName, cString_of_notMem hzero, hsplit, List.take_append, List.take_of_length_le (by omega), hlen,
    show 127 - (dbPath.length + 3 + (Text.padded 6 number).length) =
      124 - dbPath.length - (Text.padded 6 number).length by omega]
  simp

/-! ## Usable names -/

/-- The name is the path of the database, a slash and the name of a file. -/
def InDirectory (dbPath name : Bytes) : Prop := ∃ file, name = dbPath ++ 47 :: file ∧ file ≠ [] ∧ 47 ∉ file

/-- **The names for the numbers `m` and `n`** are those of files in the directory of the database, and
are different where the files are. -/
structure Usable (dbPath : Bytes) (m n : ℕ) : Prop where
  tables : sstableFileName dbPath m = sstableFileName dbPath n → m = n
  tableLog : sstableFileName dbPath m ≠ walFileName dbPath n
  logs : walFileName dbPath m = walFileName dbPath n → m = n
  directory : ∀ name ∈ [sstableFileName dbPath m, walFileName dbPath n, manifestFileName dbPath],
    InDirectory dbPath name

theorem inDirectory_numbered {dbPath ext : Bytes} {c : UInt8} {number : ℕ} (hzero : 0 ∉ dbPath)
    (hroom : dbPath.length + 3 + (Text.padded 6 number).length ≤ 127) (hslash : 47 ∉ c :: ext) :
    InDirectory dbPath (numberedName dbPath (c :: ext) number) := by
  refine ⟨_, numberedName_eq hzero hroom, by simp, fun hmem => ?_⟩
  rcases List.mem_append.1 hmem with hmem | hmem
  · exact absurd (Text.isDigit_of_mem_padded hmem) (by decide)
  · rcases List.mem_cons.1 hmem with h | hmem
    · exact absurd h (by decide)
    · rcases List.mem_cons.1 hmem with rfl | hmem
      · exact hslash List.mem_cons_self
      · exact hslash (List.mem_cons_of_mem _ (List.mem_of_mem_take hmem))

/-- Numbered names with room for two bytes behind their numbers. -/
theorem numberedName_inj {dbPath ext ext' : Bytes} {c d : UInt8} {m n : ℕ} (hzero : 0 ∉ dbPath)
    (hm : dbPath.length + 3 + (Text.padded 6 m).length ≤ 127)
    (hn : dbPath.length + 3 + (Text.padded 6 n).length ≤ 127)
    (h : numberedName dbPath (c :: ext) m = numberedName dbPath (d :: ext') n) : m = n ∧ c = d := by
  rw [numberedName_eq hzero hm, numberedName_eq hzero hn] at h
  have hfile := (List.cons.inj (List.append_cancel_left h)).2
  obtain ⟨hmn, hext⟩ := Text.padded_inj (show Text.isDigit 46 = false by decide) hfile
  exact ⟨hmn, (List.cons.inj hext).1⟩

theorem usable_of_room {dbPath : Bytes} {m n : ℕ} (hzero : 0 ∉ dbPath)
    (hm : dbPath.length + 3 + (Text.padded 6 m).length ≤ 127)
    (hn : dbPath.length + 3 + (Text.padded 6 n).length ≤ 127) : Usable dbPath m n where
  tables h := by
    rw [sstableFileName_eq_numbered, sstableFileName_eq_numbered] at h
    exact (numberedName_inj hzero hm hn h).1
  tableLog h := by
    rw [sstableFileName_eq_numbered, walFileName_eq_numbered] at h
    exact absurd (numberedName_inj hzero hm hn h).2 (by decide)
  logs h := by
    rw [walFileName_eq_numbered, walFileName_eq_numbered] at h
    exact (numberedName_inj hzero hm hn h).1
  directory name hname := by
    simp only [List.mem_cons, List.not_mem_nil, or_false] at hname
    rcases hname with rfl | rfl | rfl
    · rw [sstableFileName_eq_numbered]
      exact inDirectory_numbered hzero hm (by decide)
    · rw [walFileName_eq_numbered]
      exact inDirectory_numbered hzero hn (by decide)
    · exact ⟨ascii "MANIFEST", rfl, by decide, by decide⟩

/-- A name does not hold the zero byte that ends it. -/
theorem zero_notMem_numberedName (dbPath : Bytes) {ext : Bytes} (hext : 0 ∉ ext) (number : ℕ) :
    0 ∉ numberedName dbPath ext number := by
  intro hmem
  rcases List.mem_append.1 (List.mem_of_mem_take hmem) with hmem | hmem
  · simpa using List.mem_takeWhile_imp hmem
  · rcases List.mem_cons.1 hmem with h | hmem
    · exact absurd h (by decide)
    · rcases List.mem_append.1 hmem with hmem | hmem
      · exact absurd (Text.isDigit_of_mem_padded hmem) (by decide)
      · rcases List.mem_cons.1 hmem with h | hmem
        · exact absurd h (by decide)
        · exact hext hmem

/-- Where the letter behind the dot is cut off, the extension does not matter. -/
theorem numberedName_cut {dbPath : Bytes} {number : ℕ} (hzero : 0 ∉ dbPath)
    (hroom : 127 < dbPath.length + 3 + (Text.padded 6 number).length) (ext ext' : Bytes) :
    numberedName dbPath ext number = numberedName dbPath ext' number := by
  have hcut : ∀ ext, numberedName dbPath ext number =
      (dbPath ++ 47 :: (Text.padded 6 number ++ [46])).take 127 := fun ext => by
    have hsplit : dbPath ++ 47 :: (Text.padded 6 number ++ 46 :: ext) =
        (dbPath ++ 47 :: (Text.padded 6 number ++ [46])) ++ ext := by simp
    rw [numberedName, cString_of_notMem hzero, hsplit, List.take_append_of_le_length (by simp; omega)]
  rw [hcut, hcut]

/-- **The names for all numbers up to `top` are usable** exactly if the path has no zero byte and leaves
room for a slash, the digits of `top` and two bytes more. -/
theorem fileNames_iff (dbPath : Bytes) (top : UInt64) :
    (∀ m n : UInt64, m ≤ top → n ≤ top → Usable dbPath m.toNat n.toNat) ↔
      0 ∉ dbPath ∧ dbPath.length + 3 + max 6 (Nat.digits 10 top.toNat).length ≤ 127 := by
  rw [← Text.length_padded (by decide)]
  constructor
  · intro h
    have htop := h top top (UInt64.le_refl top) (UInt64.le_refl top)
    have hzero : 0 ∉ dbPath := by
      intro hmem
      obtain ⟨file, hfile, -⟩ := htop.directory _ List.mem_cons_self
      rw [sstableFileName_eq_numbered] at hfile
      refine zero_notMem_numberedName dbPath (show 0 ∉ [115, 115, 116] by decide) top.toNat ?_
      rw [hfile]
      exact List.mem_append_left _ hmem
    refine ⟨hzero, not_lt.1 fun hlt => ?_⟩
    -- the log of the greatest number has the name of its table
    apply htop.tableLog
    rw [sstableFileName_eq_numbered, walFileName_eq_numbered]
    exact numberedName_cut hzero hlt _ _
  · rintro ⟨hzero, hroom⟩ m n hm hn
    have hm := length_padded_le (UInt64.le_iff_toNat_le.1 hm)
    have hn := length_padded_le (UInt64.le_iff_toNat_le.1 hn)
    exact usable_of_room hzero (by omega) (by omega)

/-- Behind a path of 121 bytes five digits are left, so all numbers below ten have one name, and so
have log and table. -/
theorem long_path_collides :
    sstableFileName (List.replicate 121 97) 1 = sstableFileName (List.replicate 121 97) 2 ∧
    sstableFileName (List.replicate 121 97) 1 = walFileName (List.replicate 121 97) 1 ∧
    ¬Usable (List.replicate 121 97) 1 2 := by
  have htables : sstableFileName (List.replicate 121 97) 1 = sstableFileName (List.replicate 121 97) 2 := by
    decide +kernel
  refine ⟨htables, by decide +kernel, fun h => ?_⟩
  exact absurd (h.tables htables) (by decide)

end MiniLSM
