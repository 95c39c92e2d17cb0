import MiniLSM.Lib.Text
import MiniLSM.Spec.SSTable

/-!
# `db.cc`: the text of the MANIFEST

The bytes that `WriteManifest` prints and what `ReadManifest` makes of them. Here a table has
the path it was opened with, since the path is what the file holds. `none` is a read that
throws, does not end, or that C++ leaves undefined.
-/

namespace MiniLSM

/-- An ASCII literal. -/
def ascii (s : String) : Bytes := s.toList.map fun c => UInt8.ofNat c.toNat

/-- What `%s` prints of `c_str()`: the bytes before the first zero. -/
def cString (s : Bytes) : Bytes := s.takeWhile (· ≠ 0)

/-- `isspace` in the C locale. -/
def isSpace (b : UInt8) : Bool := b = 32 || (9 ≤ b.toNat && b.toNat ≤ 13)

/-- `SSTableFileName`: `"%s/%06llu.sst"` in a buffer of 128 bytes. -/
def sstableFileName (dbPath : Bytes) (number : ℕ) : Bytes :=
  let digits := Text.decimal number
  (cString dbPath ++ ascii "/" ++ List.replicate (6 - digits.length) 48 ++ digits ++
    ascii ".sst").take 127

/-- `WALFileName`: `"%s/%06llu.log"` in a buffer of 128 bytes. -/
def walFileName (dbPath : Bytes) (walNumber : ℕ) : Bytes :=
  let digits := Text.decimal walNumber
  (cString dbPath ++ ascii "/" ++ List.replicate (6 - digits.length) 48 ++ digits ++
    ascii ".log").take 127

/-- `ManifestFileName`. -/
def manifestFileName (dbPath : Bytes) : Bytes := dbPath ++ ascii "/MANIFEST"

/-- An `SSTable` with its `filepath_`. -/
structure OpenTable where
  filePath : Bytes
  table : SSTable
  deriving DecidableEq, Repr

/-- `SSTable::Open` of a path: `none` when its status is not OK. -/
def OpenTable.openPath (files : Bytes → Option Bytes) (path : Bytes) :
    Checked (Option OpenTable) :=
  match files path with
  | none => .ok none
  | some data =>
    match SSTable.openFile 0 data with
    | .ok t => .ok (some ⟨path, t⟩)
    | .error (.status _) => .ok none
    | .error f => .error f

namespace ManifestText

/-! ## Writing -/

/-- The line of a table: `"%zu %s %s %s\n"`. -/
def tableLine (level : ℕ) (t : OpenTable) : Bytes :=
  Text.decimal level ++ 32 :: cString t.filePath ++ 32 :: cString t.table.firstKey ++
    32 :: cString t.table.lastKey ++ [10]

/-- The tables of `levels_` in the order of the loops, each with its level. -/
def rows (levels : List (List OpenTable)) : List (ℕ × OpenTable) :=
  levels.zipIdx.flatMap fun l => l.1.map fun t => (l.2, t)

/-- What `WriteManifest` prints. -/
def print (levels : List (List OpenTable)) (nextFileNumber walNumber : UInt64) : Bytes :=
  (rows levels).flatMap (fun r => tableLine r.1 r.2) ++
    (ascii "next_file_number: " ++ Text.decimal nextFileNumber.toNat ++ [10]) ++
    (ascii "wal_number: " ++ Text.decimal walNumber.toNat ++ [10])

/-! ## Reading -/

/-- The strings that `fgets(line_buf, 512, f)` delivers, one after the other. -/
def fgetsAll (text : Bytes) : List Bytes := Text.pieces 10 511 510 text

/-- The line without the newlines and carriage returns at its end. -/
def trim (line : Bytes) : Bytes := (line.reverse.dropWhile fun b => b = 10 || b = 13).reverse

/-- An optional sign: whether it is a minus, and the rest. -/
def sign : Bytes → Bool × Bytes
  | 43 :: s => (false, s)
  | 45 :: s => (true, s)
  | s => (false, s)

/-- `std::stoull`: `none` for an exception. -/
def stoull (s : Bytes) : Option UInt64 :=
  let (minus, s) := sign (s.dropWhile isSpace)
  let digits := s.takeWhile Text.isDigit
  if digits = [] ∨ 2 ^ 64 ≤ Text.value digits then none
  else
    let n := UInt64.ofNat (Text.value digits)
    some (if minus then -n else n)

/-- `iss >> level` for an `int`: the value and the rest of the line, or `none` when it fails. -/
def readInt (s : Bytes) : Option (ℤ × Bytes) :=
  let (minus, s) := sign (s.dropWhile isSpace)
  let digits := s.takeWhile Text.isDigit
  let n : ℤ := if minus then -(Text.value digits : ℤ) else Text.value digits
  if digits = [] ∨ n < -2 ^ 31 ∨ 2 ^ 31 ≤ n then none
  else some (n, s.dropWhile Text.isDigit)

/-- `iss >> level >> filepath >> first_key >> last_key`: level and path. -/
def readRow (line : Bytes) : Option (ℤ × Bytes) := do
  let (level, s) ← readInt line
  let (filepath, s) ← Text.nextWord isSpace s
  let (_, s) ← Text.nextWord isSpace s
  let _ ← Text.nextWord isSpace s
  return (level, filepath)

/-- What `ReadManifest` sets. -/
structure Restored where
  levels : List (List OpenTable) := List.replicate 4 []
  nextFileNumber : UInt64 := 1
  walNumber : UInt64 := 1

/-- `levels_[level].push_back(table)`, growing `levels_` first. -/
def pushBack (levels : List (List OpenTable)) (level : ℕ) (t : OpenTable) :
    List (List OpenTable) :=
  (levels ++ List.replicate (level + 1 - levels.length) []).modify level (· ++ [t])

/-- One turn of the loop of `ReadManifest`. -/
def readLine (files : Bytes → Option Bytes) (m : Restored) (buf : Bytes) : Option Restored :=
  let line := trim buf
  if line = [] then some m
  else if (ascii "next_file_number:").isPrefixOf line then
    -- `substr` throws behind the end of the line
    if line.length < 18 then none
    else (stoull (line.drop 18)).map fun n => { m with nextFileNumber := n }
  else if (ascii "wal_number:").isPrefixOf line then
    if line.length < 12 then none
    else (stoull (line.drop 12)).map fun n => { m with walNumber := n }
  else
    match readRow line with
    | none => some m
    | some (level, filepath) =>
      match OpenTable.openPath files filepath with
      | .error _ => none
      | .ok none => some m
      | .ok (some t) =>
        -- a negative level is never reached by growing, and `level + 1` must not overflow
        if level < 0 ∨ level = 2 ^ 31 - 1 then none
        else some { m with levels := pushBack m.levels level.toNat t }

/-- `ReadManifest` on a MANIFEST with this text. -/
def read (files : Bytes → Option Bytes) (text : Bytes) : Option Restored :=
  (fgetsAll text).foldlM (readLine files) {}

end ManifestText

end MiniLSM
