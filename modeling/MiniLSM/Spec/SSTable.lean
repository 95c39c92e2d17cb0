import MiniLSM.Spec.InternalKey
import MiniLSM.Spec.Bloom
import MiniLSM.Spec.SSTableBuilder

/-!
# `sstable.cc`: the table reader

`SSTable::Open` parses footer, index and Bloom filter; data blocks are read when needed.
An offset in a buffer stands for a pointer. `entriesEnd` is a `size_t` that wraps when the
restart count is too large, which puts the limit before the buffer; the truncated
subtraction puts it at its start, and a loop that runs while `p < limit` ends at once in
both cases. A string cannot be as long as `2 ^ 63`: making one throws `std::length_error`. Memory
for shorter ones is taken to be there.
-/

namespace MiniLSM

/-- `SSTable::IndexEntry`. -/
structure IndexEntry where
  lastKey : Bytes
  blockOffset : ℕ
  blockSize : ℕ
  deriving DecidableEq, Repr

/-- `SSTable`. The number of its file stands for `filepath_`, and `data` is what reads
through `file_` find. -/
structure SSTable where
  number : ℕ
  data : Bytes
  index : List IndexEntry := []
  bloomFilter : BloomFilter := BloomFilter.new 10
  hasBloom : Bool := false
  firstKey : Bytes := []
  lastKey : Bytes := []
  deriving DecidableEq, Repr

/-- The bytes `FilePRead` gets before it stops; `fseek` refuses a negative offset. -/
def fileRead (data : Bytes) (n offset : ℕ) : Option Bytes :=
  if 2 ^ 63 ≤ offset then none else some ((data.drop offset).take n)

/-- `FilePRead` of `n` bytes. -/
def filePRead (data : Bytes) (n offset : ℕ) : Option Bytes :=
  match fileRead data n offset with
  | some buf => if buf.length = n then some buf else none
  | none => none

/-- Reading a varint at `p`. -/
def varint32At (buf : Bytes) (p : ℕ) : Checked (ℕ × ℕ) :=
  Checked.ofOption (varint32Decode (buf.drop p))

/-- One turn of the entry loops of `Open` and `BinarySearchInBlock`: key, value and the
position behind them, or `none` where the loop breaks off. -/
def parseEntry (buf : Bytes) (limit p : ℕ) : Checked (Option (Bytes × Bytes × ℕ)) := do
  let (_, n) ← varint32At buf p
  let p := p + n
  if limit ≤ p then return none
  let (keyLen, n) ← varint32At buf p
  let p := p + n
  if limit < p + keyLen then return none
  let key := (buf.drop p).take keyLen
  let p := p + keyLen
  if limit ≤ p then return none
  let (valueLen, n) ← varint32At buf p
  let p := p + n
  if limit < p + valueLen then return none
  return some (key, (buf.drop p).take valueLen, p + valueLen)

/-- Where the entries of a block end: before the restarts, their number and the CRC. -/
def entriesEnd (block : Bytes) : ℕ :=
  let numRestarts := ((decodeFixed32 (block.drop (block.length - 8))).getD 0).toNat
  block.length - 8 - numRestarts * 4 % 2 ^ 32

/-- Whether the CRC at the end of a block is that of the rest. -/
def crcMatches (block : Bytes) : Bool :=
  decodeFixed32 (block.drop (block.length - 4)) = some (crc32 (block.take (block.length - 4)))

namespace SSTable

/-- The loop of `Open` over the index entries, for at most `n` of them. -/
def parseIndex (buf : Bytes) (limit : ℕ) : ℕ → ℕ → Checked (List IndexEntry)
  | 0, _ => return []
  | n + 1, p =>
    if limit ≤ p then return []
    else do
      let some (key, handle, p) ← parseEntry buf limit p | return []
      -- a `std::string` has a terminating zero behind its bytes
      let handle := handle ++ [0]
      let (blockOffset, k) ← Checked.ofOption (varint64Decode handle)
      let (blockSize, _) ← Checked.ofOption (varint64Decode (handle.drop k))
      let rest ← parseIndex buf limit n p
      return ⟨key, blockOffset, blockSize⟩ :: rest

/-- `SSTable::ReadBlock`, into an empty buffer. -/
def readBlock (t : SSTable) (offset size : ℕ) : Checked Bytes :=
  if 2 ^ 63 ≤ size then .error .lengthError
  else
    match filePRead t.data size offset with
    | some block => .ok block
    | none => .error (.status (.ioError "SSTable::ReadBlock: fread failed"))

/-- The first key that `Open` finds in the first block. -/
def readFirstKey (block : Bytes) : Checked Bytes := do
  if block.length ≤ 4 then return []
  let (_, n) ← varint32At block 0
  if block.length ≤ n then return []
  let (keyLen, k) ← varint32At block n
  if block.length < n + k + keyLen then return []
  return (block.drop (n + k)).take keyLen

/-- The filter that `Open` takes from the Bloom block. -/
def readBloom (data : Bytes) (bloomOffset bloomSize : ℕ) : Option BloomFilter :=
  match filePRead data bloomSize bloomOffset with
  | none => none
  | some bloom =>
    if bloom.length ≤ 4 then none
    else if crcMatches bloom then
      some ((BloomFilter.decode (bloom.take (bloom.length - 4))).getD (BloomFilter.new 10))
    else none

/-- `SSTable::Open` on a file that can be opened. -/
def openFile (number : ℕ) (data : Bytes) : Checked SSTable := do
  if data.length < 48 then
    throw (.status (.corruption "SSTable::Open: file too small for footer"))
  let footer := data.drop (data.length - 48)
  let field := fun i => ((decodeFixed64 (footer.drop i)).getD 0)
  if field 32 ≠ SSTableBuilder.magic then
    throw (.status (.corruption "SSTable::Open: bad magic number"))
  let indexSize := (field 8).toNat
  if 2 ^ 63 ≤ indexSize then throw .lengthError
  let some index := filePRead data indexSize (field 0).toNat
    | throw (.status (.ioError "SSTable::Open: read index block failed"))
  if indexSize < 8 then
    throw (.status (.corruption "SSTable::Open: index block too small"))
  if !crcMatches index then
    throw (.status (.corruption "SSTable::Open: index block CRC mismatch"))
  let entries ← parseIndex index (entriesEnd index) index.length 0
  let t : SSTable := { number := number, data := data, index := entries }
  let t ←
    match entries.head?, entries.getLast? with
    | some first, some last => do
      let firstKey ←
        match t.readBlock first.blockOffset first.blockSize with
        | .ok block => readFirstKey block
        -- a first block that cannot be read does not fail Open
        | .error (.status _) => pure []
        | .error f => throw f
      pure { t with firstKey := firstKey, lastKey := last.lastKey }
    | _, _ => pure t
  if 2 ^ 63 ≤ (field 24).toNat then throw .lengthError
  -- without a readable filter the table is opened without one
  match readBloom data (field 16).toNat (field 24).toNat with
  | some filter => return { t with bloomFilter := filter, hasBloom := true }
  | none => return t

/-- The loop of `BinarySearchInBlock`, for at most `n` entries. -/
def searchEntries (block lookupKey : Bytes) (limit : ℕ) : ℕ → ℕ → Checked (Option Bytes)
  | 0, _ => return none
  | n + 1, p =>
    if limit ≤ p then return none
    else do
      let some (key, value, p) ← parseEntry block limit p | return none
      if Slice.compare key lookupKey = .lt then searchEntries block lookupKey limit n p
      else
        match Slice.compare (extractUserKey key) (extractUserKey lookupKey) with
        | .eq => return some value
        | .gt => return none
        -- not below the lookup key, but of a smaller user key
        | .lt => searchEntries block lookupKey limit n p

/-- `SSTable::BinarySearchInBlock`: the status and the value it stored. -/
def binarySearchInBlock (block lookupKey : Bytes) : Checked (Status × Option Bytes) := do
  if block.length < 8 then return (.notFound "block too small", none)
  if !crcMatches block then return (.corruption "BinarySearchInBlock: CRC mismatch", none)
  match ← searchEntries block lookupKey (entriesEnd block) block.length 0 with
  | some value => return (.OK, some value)
  | none => return (.notFound "", none)

/-- The binary search of `Get` and `Seek` over the index, for at most `n` halvings. -/
def findBlock (index : List IndexEntry) (lookupKey : Bytes) : ℕ → ℕ → ℕ → ℕ
  | 0, left, _ => left
  | n + 1, left, right =>
    if right ≤ left then left
    else
      let mid := (left + right) / 2
      if Slice.compare (index.getD mid ⟨[], 0, 0⟩).lastKey lookupKey = .lt then
        findBlock index lookupKey n (mid + 1) right
      else findBlock index lookupKey n left mid

/-- `SSTable::Get`: the status and the value it stored. -/
def get (t : SSTable) (userKey : Bytes) : Checked (Status × Option Bytes) :=
  -- MayContain takes the remainder by the number of bits
  if t.hasBloom && t.bloomFilter.dividesByZero then .error .outOfBounds
  else if t.hasBloom && !t.bloomFilter.mayContain userKey then
    return (.notFound "bloom filter: not present", none)
  else if t.index = [] then return (.notFound "empty sstable", none)
  else
    let lookupKey := makeLookupKey userKey
    let left := findBlock t.index lookupKey t.index.length 0 (t.index.length - 1)
    let entry := t.index.getD left ⟨[], 0, 0⟩
    match t.readBlock entry.blockOffset entry.blockSize with
    | .ok block => binarySearchInBlock block lookupKey
    | .error (.status s) => return (s, none)
    | .error f => throw f

end SSTable

end MiniLSM
