import MiniLSM.Spec.Coding

/-!
# `bloom.cc`: the Bloom filter

`CreateFilter` walks `h += delta` while the reader recomputes `h + i * delta`; both are
32-bit sums reduced modulo the number of bits.
-/

namespace MiniLSM

/-- `FNVHash`, with its default seed. -/
def fnvHash (data : Bytes) : UInt32 :=
  data.foldl (fun hash b => (hash ^^^ b.toUInt32) * 0x01000193) 0x811C9DC5

/-- The rotation of the hash that both sides step by. -/
def bloomDelta (h : UInt32) : UInt32 := (h >>> 17) ||| (h <<< 15)

/-- `bits[pos / 8] |= 1 << (pos % 8)`. -/
def setBit (bits : Bytes) (pos : ℕ) : Bytes :=
  bits.modify (pos / 8) fun b => b ||| (1 <<< UInt8.ofNat (pos % 8))

/-- `(bits[pos / 8] & (1 << (pos % 8))) != 0`. -/
def testBit (bits : Bytes) (pos : ℕ) : Bool :=
  (bits.getD (pos / 8) 0 &&& (1 <<< UInt8.ofNat (pos % 8))) != 0

/-- `static_cast<int>(bits_per_key * 0.69)`, clamped to `1..30`. The product is a whole
number only where it is clamped, so the rounding of the `double` plays no role. -/
def numProbes (bitsPerKey : ℕ) : ℕ := max 1 (min 30 (bitsPerKey * 69 / 100))

/-- An `int` loaded from four bytes. -/
def toInt (v : UInt32) : ℤ := if v.toNat < 2 ^ 31 then v.toNat else v.toNat - 2 ^ 32

/-- `BloomFilter`. -/
structure BloomFilter where
  bitsPerKey : ℤ
  k : ℤ
  bits : Bytes
  deriving DecidableEq, Repr

namespace BloomFilter

/-- `BloomFilter::BloomFilter`. -/
def new (bitsPerKey : ℕ) : BloomFilter := ⟨bitsPerKey, numProbes bitsPerKey, []⟩

/-- `BloomFilter::Hash`. -/
def hash (f : BloomFilter) (i : ℕ) (key : Bytes) : ℕ :=
  let h := fnvHash key
  let totalBits := f.bits.length * 8
  if totalBits = 0 then 0
  else (h + UInt32.ofNat i * bloomDelta h).toNat % (toUInt32 totalBits).toNat

/-- `BloomFilter::Add`. -/
def add (f : BloomFilter) (key : Bytes) : BloomFilter :=
  let f := if f.bits = [] then { f with bits := List.replicate 13 0 } else f
  { f with bits := (List.range f.k.toNat).foldl (fun bits i => setBit bits (f.hash i key)) f.bits }

/-- `BloomFilter::MayContain`. -/
def mayContain (f : BloomFilter) (key : Bytes) : Bool :=
  f.bits != [] && (List.range f.k.toNat).all fun i => testBit f.bits (f.hash i key)

/-- Whether `MayContain` divides by zero: `Hash` reduces by the number of bits cut to 32 bits. -/
def dividesByZero (f : BloomFilter) : Bool :=
  f.bits != [] && decide (0 < f.k) && decide (toUInt32 (f.bits.length * 8) = 0)

/-- `BloomFilter::Encode`. -/
def encode (f : BloomFilter) : Bytes :=
  encodeFixed32 (UInt32.ofInt f.bitsPerKey) ++ encodeFixed32 (UInt32.ofInt f.k) ++ f.bits

/-- `BloomFilter::Decode`, into a filter; `none` for `false`. -/
def decode (data : Bytes) : Option BloomFilter :=
  if data.length < 8 then none
  else do
    let bitsPerKey ← decodeFixed32 data
    let k ← decodeFixed32 (data.drop 4)
    some ⟨toInt bitsPerKey, toInt k, data.drop 8⟩

/-- The inner loop of `CreateFilter`. -/
def setProbes (delta : UInt32) : ℕ → UInt32 → Bytes → Bytes
  | 0, _, filter => filter
  | n + 1, h, filter =>
    setProbes delta n (h + delta) (setBit filter (h.toNat % (filter.length * 8)))

/-- The bit array of `CreateFilter`. Its size does not wrap: below `2 ^ 33` keys the product with an
`int` fits in a `size_t`. -/
def filterBits (keys : List Bytes) (bitsPerKey : ℕ) : Bytes :=
  let bits := max 64 (keys.length * bitsPerKey)
  keys.foldl
    (fun filter key =>
      let h := fnvHash key
      setProbes (bloomDelta h) (numProbes bitsPerKey) h filter)
    (List.replicate ((bits + 7) / 8) 0)

/-- `BloomFilter::CreateFilter`. -/
def createFilter (keys : List Bytes) (bitsPerKey : ℕ) : Bytes :=
  encodeFixed32 (toUInt32 bitsPerKey) ++ encodeFixed32 (toUInt32 (numProbes bitsPerKey)) ++
    filterBits keys bitsPerKey

/-- What is done to a filter: an `Add`, or an `Encode` that a `Decode` reads back. -/
inductive Op
  | add (key : Bytes)
  | reload
  deriving DecidableEq, Repr

/-- The filter behind one of them; `none` where `Decode` gives `false`. -/
def op (f : BloomFilter) : Op → Option BloomFilter
  | .add key => some (f.add key)
  | .reload => decode f.encode

/-- The filter behind a list of them. -/
def ops (f : BloomFilter) (os : List Op) : Option BloomFilter := os.foldlM op f

end BloomFilter

end MiniLSM
