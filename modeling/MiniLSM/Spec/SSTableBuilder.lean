import MiniLSM.Spec.InternalKey
import MiniLSM.Spec.Bloom
import MiniLSM.Spec.Status

/-!
# `sstable_builder.cc`: the table writer

A table file is its data blocks, the index block, the Bloom block and a 48-byte footer. A
data block is its entries, the restart offsets, their number and a CRC over all of that.
-/

namespace MiniLSM

/-- The file a builder writes through `fd_`, with what the coming writes will do: `none`
for a write that succeeds, `some n` for one that fails after `n` bytes. -/
structure Fd where
  file : Bytes := []
  writes : ℕ := 0
  faults : ℕ → Option ℕ := fun _ => none

/-- `FdWriteFull`. -/
def Fd.writeFull (fd : Fd) (buf : Bytes) : Bool × Fd :=
  if buf = [] then (true, fd)
  else
    match fd.faults fd.writes with
    | none => (true, { fd with file := fd.file ++ buf, writes := fd.writes + 1 })
    | some n => (false, { fd with file := fd.file ++ buf.take n, writes := fd.writes + 1 })

/-- An entry of a data block or of the index block: nothing shared, then key and value. -/
def encodeEntry (key value : Bytes) : Bytes :=
  varint32Encode 0 ++ varint32Encode (toUInt32 key.length) ++ key ++
    varint32Encode (toUInt32 value.length) ++ value

/-- The part of a block under the CRC: the entries, the restart offsets and their number. -/
def blockContents (block : Bytes) (restarts : List UInt32) : Bytes :=
  block ++ restarts.flatMap encodeFixed32 ++ encodeFixed32 (toUInt32 restarts.length)

/-- `SSTableBuilder::BlockInfo`. -/
structure BlockInfo where
  lastKey : Bytes
  offset : ℕ
  size : ℕ
  deriving DecidableEq, Repr

/-- `SSTableBuilder`. `first_key_in_block_` is never read and left out. -/
structure SSTableBuilder where
  fd : Fd
  block : Bytes := []
  lastKeyInBlock : Bytes := []
  entryCountInBlock : ℕ := 0
  restartOffsets : List UInt32 := []
  blockInfos : List BlockInfo := []
  keys : List Bytes := []
  numEntries : ℕ := 0
  fileSize : ℕ := 0
  finished : Bool := false
  builderSeq : SequenceNumber := 0

namespace SSTableBuilder

/-- `block_size_`. -/
def blockSize : ℕ := 4096

/-- `kRestartInterval`. -/
def kRestartInterval : ℕ := 16

/-- `bloom_bits_per_key_`. -/
def bloomBitsPerKey : ℕ := 10

/-- The magic number of the footer, "LSMT". -/
def magic : UInt64 := 0x4C534D54

/-- `SSTableBuilder::SSTableBuilder`: the file is truncated. -/
def new (fd : Fd) : SSTableBuilder := { fd := { fd with file := [] } }

/-- `SSTableBuilder::FlushBlock`. Only the first write is checked. -/
def flushBlock (b : SSTableBuilder) : SSTableBuilder :=
  if b.entryCountInBlock = 0 then b
  else
    let (ok, fd) := b.fd.writeFull b.block
    -- the entries stay in the block and are written again with the next one
    if !ok then { b with fd := fd }
    else
      let fd := b.restartOffsets.foldl (fun fd off => (fd.writeFull (encodeFixed32 off)).2) fd
      let fd := (fd.writeFull (encodeFixed32 (toUInt32 b.restartOffsets.length))).2
      let crc := crc32 (blockContents b.block b.restartOffsets)
      let fd := (fd.writeFull (encodeFixed32 crc)).2
      let blockTotalSize := b.block.length + b.restartOffsets.length * 4 + 4 + 4
      { b with
        fd := fd
        blockInfos := b.blockInfos ++ [⟨b.lastKeyInBlock, b.fileSize, blockTotalSize⟩]
        fileSize := b.fileSize + blockTotalSize
        block := []
        restartOffsets := []
        entryCountInBlock := 0 }

/-- Appending an entry to the current block. -/
def appendEntry (b : SSTableBuilder) (internalKey userKey value : Bytes) : SSTableBuilder :=
  { b with
    restartOffsets :=
      if b.entryCountInBlock % kRestartInterval = 0 then
        b.restartOffsets ++ [toUInt32 b.block.length]
      else b.restartOffsets
    block := b.block ++ encodeEntry internalKey value
    lastKeyInBlock := internalKey
    entryCountInBlock := b.entryCountInBlock + 1
    keys := b.keys ++ [userKey]
    numEntries := b.numEntries + 1 }

/-- `SSTableBuilder::Add`. -/
def add (b : SSTableBuilder) (userKey value : Bytes) : SSTableBuilder :=
  let b := { b with builderSeq := b.builderSeq + 1 }
  let ik := makeInternalKey userKey b.builderSeq (typeOf value)
  let entrySize := varint32Length 0 + varint32Length (toUInt32 ik.length) + ik.length +
    varint32Length (toUInt32 value.length) + value.length
  let b :=
    if blockSize < b.block.length + entrySize ∧ 0 < b.entryCountInBlock then b.flushBlock else b
  b.appendEntry ik userKey value

/-- The value of an index entry: offset and size of the block. -/
def blockHandle (info : BlockInfo) : Bytes :=
  varint64Encode (UInt64.ofNat info.offset) ++ varint64Encode (UInt64.ofNat info.size)

/-- The index block, its CRC included. -/
def indexBlock (infos : List BlockInfo) : Bytes :=
  let entries := infos.flatMap fun info => encodeEntry info.lastKey (blockHandle info)
  -- the only restart is the first entry
  let contents := blockContents entries (if infos = [] then [] else [0])
  contents ++ encodeFixed32 (crc32 contents)

/-- The Bloom block, its CRC included. -/
def bloomBlock (keys : List Bytes) : Bytes :=
  let filter := BloomFilter.createFilter keys bloomBitsPerKey
  filter ++ encodeFixed32 (crc32 filter)

/-- The footer. -/
def footer (indexOffset indexSize bloomOffset bloomSize : ℕ) : Bytes :=
  encodeFixed64 (UInt64.ofNat indexOffset) ++ encodeFixed64 (UInt64.ofNat indexSize) ++
    encodeFixed64 (UInt64.ofNat bloomOffset) ++ encodeFixed64 (UInt64.ofNat bloomSize) ++
    encodeFixed64 magic ++ encodeFixed64 0

/-- `SSTableBuilder::Finish`. -/
def finish (b : SSTableBuilder) : Status × SSTableBuilder :=
  -- OK again, also behind a call that failed
  if b.finished then (.OK, b)
  else
    let b := { b with finished := true }
    let b := if 0 < b.entryCountInBlock then b.flushBlock else b
    let index := indexBlock b.blockInfos
    let indexOffset := b.fileSize
    let (ok, fd) := b.fd.writeFull index
    if !ok then (.ioError "SSTableBuilder::Finish: write index block failed", { b with fd := fd })
    else
      let bloom := bloomBlock b.keys
      let bloomOffset := b.fileSize + index.length
      let b := { b with fileSize := bloomOffset }
      let (ok, fd) := fd.writeFull bloom
      if !ok then (.ioError "SSTableBuilder::Finish: write bloom block failed", { b with fd := fd })
      else
        let b := { b with fileSize := bloomOffset + bloom.length }
        let (ok, fd) := fd.writeFull (footer indexOffset index.length bloomOffset bloom.length)
        if !ok then (.ioError "SSTableBuilder::Finish: write footer failed", { b with fd := fd })
        else (.OK, { b with fd := fd, fileSize := b.fileSize + 48 })

/-- `Add` for each pair in turn. -/
def addAll (b : SSTableBuilder) (pairs : List (Bytes × Bytes)) : SSTableBuilder :=
  pairs.foldl (fun b p => b.add p.1 p.2) b

/-- The file that `Add` for each pair and `Finish` leave when every write succeeds. -/
def build (pairs : List (Bytes × Bytes)) : Bytes := ((new {}).addAll pairs).finish.2.fd.file

end SSTableBuilder

end MiniLSM
