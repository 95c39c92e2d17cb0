import MiniLSM.Lib.Search
import MiniLSM.Proof.Flush

/-!
# Which version of a key comes first

A trailer starts with the type byte, and the sequence number follows from its lowest byte
on, each byte complemented. Of two versions of one key, therefore, a tombstone comes before
a value, and between two of one type the lowest byte in which their numbers differ decides.

* `trailer_lt_iff`: how two trailers compare.
* `newer_first_iff`: when of two versions of one key and type the newer one comes first.
* `mem_entries_addAll`: a memtable holds every version that was added to it.
* `get_eq_lastValue_iff`: when `Get` finds the last version of a key.
* `flush_sorted_iff`: when a flush, which numbers the entries anew, writes them in order.
-/

namespace MiniLSM

/-! ## Trailers -/

/-- The seven bytes of a sequence number that a trailer holds, the lowest one first. -/
def lowBytes (seq : SequenceNumber) : Bytes := (encodeFixed64 seq).take 7

theorem packSequenceAndType_eq (seq : SequenceNumber) (type : ValueType) :
    packSequenceAndType seq type = ((~~~seq) <<< 8) ||| type.toByte.toUInt64 := by
  have h : (kMaxSequenceNumber - seq) <<< 8 = (~~~seq) <<< 8 := by
    have hk : kMaxSequenceNumber.toNat = 2 ^ 56 - 1 := by decide
    have hs := seq.toNat_lt
    rw [← UInt64.toNat_inj]
    simp only [UInt64.toNat_shiftLeft, UInt64.toNat_sub, UInt64.toNat_not, Nat.shiftLeft_eq, hk]
    rw [show (8 : UInt64).toNat % 64 = 8 from rfl, show UInt64.size = 2 ^ 64 from rfl]
    omega
  rw [packSequenceAndType, h]

/-- **A trailer is the type byte and the complement of the low bytes of the number.** -/
theorem trailer_eq (seq : SequenceNumber) (type : ValueType) :
    trailer seq type = type.toByte :: (lowBytes seq).map (~~~·) := by
  rw [trailer, packSequenceAndType_eq]
  simp only [lowBytes, encodeFixed64, List.take_succ_cons, List.take_zero, List.map_cons,
    List.map_nil, List.cons.injEq]
  refine ⟨?_, ?_, ?_, ?_, ?_, ?_, ?_, ?_, trivial⟩
  all_goals
    rw [← UInt8.toBitVec_inj]
    ext i hi
    simp only [UInt64.toBitVec_or, UInt8.toBitVec_not, UInt64.toBitVec_toUInt8,
      UInt64.toBitVec_shiftLeft, UInt64.toBitVec_shiftRight, UInt64.toBitVec_not,
      UInt64.toBitVec_ofNat, BitVec.shiftLeft_eq', BitVec.ushiftRight_eq',
      BitVec.getElem_setWidth, BitVec.getLsbD_shiftLeft, BitVec.getLsbD_ushiftRight,
      BitVec.getLsbD_or, BitVec.getElem_not, UInt8.toBitVec_toUInt64, BitVec.getLsbD_setWidth,
      BitVec.getLsbD_not]
    grind

/-- A version of type `type` and number `seq` comes before one of `type'` and `seq'`. -/
def Ahead (seq : SequenceNumber) (type : ValueType) (seq' : SequenceNumber) (type' : ValueType) :
    Prop :=
  type.toByte < type'.toByte ∨ type = type' ∧ lowBytes seq' < lowBytes seq

instance (seq : SequenceNumber) (type : ValueType) (seq' : SequenceNumber) (type' : ValueType) :
    Decidable (Ahead seq type seq' type') := by unfold Ahead; infer_instance

theorem complement_strictAnti : StrictAnti fun b : UInt8 => ~~~b := by
  intro a b hab
  have hb := b.toNat_lt
  rw [UInt8.lt_iff_toNat_lt] at hab ⊢
  rw [UInt8.toNat_not, UInt8.toNat_not, show UInt8.size = 2 ^ 8 from rfl]
  omega

theorem ValueType.toByte_inj {type type' : ValueType} : type.toByte = type'.toByte ↔ type = type' := by
  cases type <;> cases type' <;> decide

/-- **How two trailers compare.** -/
theorem trailer_lt_iff {seq seq' : SequenceNumber} {type type' : ValueType} :
    trailer seq type < trailer seq' type' ↔ Ahead seq type seq' type' := by
  have hlen : (lowBytes seq).length = (lowBytes seq').length := rfl
  rw [trailer_eq, trailer_eq, List.cons_lt_cons_iff, ValueType.toByte_inj,
    LexOrder.map_lt_map_iff complement_strictAnti hlen, Ahead]

/-- Byte `i` of a number, the lowest one being byte 0. -/
def byteAt (seq : SequenceNumber) (i : ℕ) : ℕ := seq.toNat / 256 ^ i % 256

theorem map_lowBytes (seq : SequenceNumber) :
    (lowBytes seq).map UInt8.toNat = (List.range 7).map (byteAt seq) := by
  simp [lowBytes, encodeFixed64, byteAt, List.range_succ_eq_map, UInt64.toNat_shiftRight,
    Nat.shiftRight_eq_div_pow]

theorem lowBytes_getElem (seq : SequenceNumber) {i : ℕ} (hi : i < (lowBytes seq).length) :
    (lowBytes seq)[i].toNat = byteAt seq i := by
  have h7 : i < 7 := hi
  have h := congrArg (·[i]?) (map_lowBytes seq)
  simpa [hi, h7] using h

/-- The lowest byte in which two numbers differ decides. -/
theorem lowBytes_lt_iff {seq seq' : SequenceNumber} : lowBytes seq < lowBytes seq' ↔
    ∃ i < 7, (∀ j < i, byteAt seq j = byteAt seq' j) ∧ byteAt seq i < byteAt seq' i := by
  rw [List.lt_iff_exists]
  constructor
  · rintro (⟨-, h⟩ | ⟨i, h, h', heq, hlt⟩)
    · exact absurd h (lt_irrefl 7)
    · refine ⟨i, h, fun j hj => ?_, ?_⟩
      · rw [← lowBytes_getElem seq (hj.trans h), ← lowBytes_getElem seq' (hj.trans h'), heq j hj]
      · rw [← lowBytes_getElem seq h, ← lowBytes_getElem seq' h']
        exact UInt8.lt_iff_toNat_lt.1 hlt
  · rintro ⟨i, hi, heq, hlt⟩
    have h : i < (lowBytes seq).length := hi
    have h' : i < (lowBytes seq').length := hi
    refine .inr ⟨i, h, h', fun j hj => ?_, ?_⟩
    · rw [← UInt8.toNat_inj, lowBytes_getElem seq (hj.trans h), lowBytes_getElem seq' (hj.trans h')]
      exact heq j hj
    · rw [UInt8.lt_iff_toNat_lt, lowBytes_getElem seq h, lowBytes_getElem seq' h']
      exact hlt

/-- **The newer of two versions of one key and type comes first** exactly if its number has the
larger byte where the two first differ, from the lowest byte on. The lookup key comes before both. -/
theorem newer_first_iff (k : Bytes) (type : ValueType) (s₁ s₂ : SequenceNumber) :
    (Slice.compare (makeInternalKey k s₂ type) (makeInternalKey k s₁ type) = .lt ∧
      ∀ seq type', Slice.compare (makeLookupKey k) (makeInternalKey k seq type') ≠ .gt) ↔
    ∃ i < 7, (∀ j < i, byteAt s₁ j = byteAt s₂ j) ∧ byteAt s₁ i < byteAt s₂ i := by
  have horder : Slice.compare (makeInternalKey k s₂ type) (makeInternalKey k s₁ type) = .lt ↔
      lowBytes s₁ < lowBytes s₂ := by
    rw [Slice.compare_eq_lt, makeInternalKey_eq, makeInternalKey_eq, LexOrder.append_lt_append_iff,
      trailer_lt_iff, Ahead]
    constructor
    · rintro (h | ⟨-, h⟩)
      · exact absurd h (lt_irrefl _)
      · exact h
    · exact fun h => .inr ⟨rfl, h⟩
  have hlookup : ∀ seq type', Slice.compare (makeLookupKey k) (makeInternalKey k seq type') ≠ .gt := by
    intro seq type' h
    exact absurd (Slice.compare_eq_gt.1 h) (not_lt.2 (makeLookupKey_le k seq type'))
  rw [horder, lowBytes_lt_iff]
  exact and_iff_left hlookup

/-- Where the lowest byte overflows, the newer version comes last. -/
theorem overflow_reverses : (255 : SequenceNumber) < 256 ∧ 256 ≤ kMaxSequenceNumber ∧
    Slice.compare (makeInternalKey [97] 256 .value) (makeInternalKey [97] 255 .value) = .gt := by decide

/-- **A number comes before the next one** only where the lowest byte of the next overflows. -/
theorem ahead_succ_iff {seq : SequenceNumber} {type : ValueType} :
    Ahead seq type (seq + 1) type ↔ seq.toUInt8 = 255 := by
  have hb := seq.toUInt8.toNat_lt
  have hsucc : (seq + 1).toUInt8.toNat = (seq.toUInt8.toNat + 1) % 2 ^ 8 := by
    rw [UInt64.toUInt8_add, UInt8.toNat_add]; rfl
  have hlow : ∀ s : SequenceNumber, ∃ t, lowBytes s = s.toUInt8 :: t := fun s => ⟨_, rfl⟩
  obtain ⟨t, ht⟩ := hlow seq
  obtain ⟨t', ht'⟩ := hlow (seq + 1)
  simp only [Ahead, ht, ht', List.cons_lt_cons_iff, UInt8.lt_iff_toNat_lt, ← UInt8.toNat_inj, hsucc,
    show (255 : UInt8).toNat = 255 from rfl]
  constructor
  · rintro (h | ⟨-, h | ⟨h, -⟩⟩)
    · exact absurd h (lt_irrefl _)
    · omega
    · omega
  · intro h
    exact Or.inr ⟨trivial, Or.inl (by omega)⟩

/-! ## The versions in a memtable -/

/-- What one `Add` files: a user key, the sequence number it got and the value. -/
structure Version where
  userKey : Bytes
  seq : SequenceNumber
  value : Bytes

namespace Version

/-- The trailer of a version. -/
def trailer (x : Version) : Bytes := MiniLSM.trailer x.seq (typeOf x.value)

/-- The entry that `Add` stores. -/
def entry (x : Version) : Bytes × Bytes := (x.userKey ++ x.trailer, x.value)

theorem entry_fst (x : Version) : x.entry.1 = makeInternalKey x.userKey x.seq (typeOf x.value) := rfl

/-- `x` comes before `y` if both are of one user key. -/
def Before (x y : Version) : Prop := Ahead x.seq (typeOf x.value) y.seq (typeOf y.value)

end Version

namespace MemTable

/-- The versions that a list of adds files, the `i`-th under number `i`. -/
def versions (adds : List (Bytes × Bytes × ℕ)) : List Version :=
  adds.mapIdx fun i a => ⟨a.1, UInt64.ofNat i + 1, a.2.1⟩

/-- What the last `Add` of `k` stored. -/
def lastValue (k : Bytes) (adds : List (Bytes × Bytes × ℕ)) : Option Bytes :=
  (adds.reverse.map fun a => (a.1, a.2.1)).lookup k

/-- `x` is the version of `k` that a search finds: no other version of `k` comes before it,
and no version of a user key that continues `k`, or that `k` continues, gets in between. -/
structure Shown (k : Bytes) (xs : List Version) (x : Version) : Prop where
  key : x.userKey = k
  first : ∀ y ∈ xs, y.userKey = k → ¬y.Before x
  longer : ∀ y ∈ xs, ∀ c z, y.userKey = k ++ c :: z → x.trailer ≤ c :: z ++ y.trailer
  shorter : ∀ y ∈ xs, ∀ c z, k = y.userKey ++ c :: z →
    ¬(c :: z ++ List.replicate 8 0 ≤ y.trailer ∧ y.trailer < c :: z ++ x.trailer)

theorem versions_append (adds : List (Bytes × Bytes × ℕ)) (a : Bytes × Bytes × ℕ) :
    versions (adds ++ [a]) = versions adds ++ [⟨a.1, UInt64.ofNat adds.length + 1, a.2.1⟩] := by
  simp [versions, List.mapIdx_append]

theorem lastSeq_addAll (adds : List (Bytes × Bytes × ℕ)) :
    (new.addAll adds).lastSeq = UInt64.ofNat adds.length := by
  induction adds using List.reverseRecOn with
  | nil => rfl
  | append_singleton adds a ih =>
    rw [addAll, List.foldl_append, List.foldl_cons, List.foldl_nil, lastSeq_add, ← addAll, ih,
      List.length_append, List.length_singleton, UInt64.ofNat_add]
    rfl

theorem addAll_append (adds : List (Bytes × Bytes × ℕ)) (a : Bytes × Bytes × ℕ) :
    new.addAll (adds ++ [a]) = (new.addAll adds).add a.1 a.2.1 a.2.2 := by
  rw [addAll, List.foldl_append]; rfl

/-- An insertion under a new key drops no entry. -/
theorem mem_insertChain_of_ne {key value : Bytes} {height : ℕ} {nodes : List Node}
    {e : Bytes × Bytes} (h : e ∈ chainEntries nodes) (hne : e.1 ≠ key) :
    e ∈ chainEntries (SkipList.insertChain key value height nodes) := by
  induction nodes with
  | nil => simp [chainEntries] at h
  | cons x xs ih =>
    rw [SkipList.insertChain]
    split
    · rcases List.mem_cons.1 h with rfl | h
      · exact List.mem_cons_self
      · exact List.mem_cons_of_mem _ (ih h)
    · rename_i heq
      rw [Slice.compare_eq_eq] at heq
      rcases List.mem_cons.1 h with rfl | h
      · exact absurd heq hne
      · exact List.mem_cons_of_mem _ h
    · exact List.mem_cons_of_mem _ h

theorem mem_insertChain_self (key value : Bytes) (height : ℕ) (nodes : List Node) :
    (key, value) ∈ chainEntries (SkipList.insertChain key value height nodes) := by
  induction nodes with
  | nil => simp [SkipList.insertChain, chainEntries]
  | cons x xs ih =>
    rw [SkipList.insertChain]
    split
    · exact List.mem_cons_of_mem _ ih
    · rename_i heq
      rw [Slice.compare_eq_eq] at heq
      simp [chainEntries, heq]
    · exact List.mem_cons_self

/-- The number that a version filed by a list of adds carries. -/
theorem seq_lt {adds : List (Bytes × Bytes × ℕ)} {x : Version} (hx : x ∈ versions adds) :
    ∃ i < adds.length, x.seq = UInt64.ofNat (i + 1) := by
  obtain ⟨i, hi, rfl⟩ := List.mem_mapIdx.1 hx
  exact ⟨i, hi, (UInt64.ofNat_add i 1).symm⟩

/-- **A memtable holds every version that was added to it**, and nothing else. -/
theorem mem_entries_addAll {adds : List (Bytes × Bytes × ℕ)} (h : adds.length < 2 ^ 56)
    {e : Bytes × Bytes} : e ∈ (new.addAll adds).entries ↔ ∃ x ∈ versions adds, x.entry = e := by
  induction adds using List.reverseRecOn with
  | nil => simp [versions, addAll, entries, new, SkipList.new]
  | append_singleton adds a ih =>
    rw [List.length_append, List.length_singleton] at h
    have ih := ih (by omega)
    set x : Version := ⟨a.1, UInt64.ofNat adds.length + 1, a.2.1⟩ with hx
    have hnew : x.entry = (makeInternalKey a.1 ((new.addAll adds).lastSeq + 1) (typeOf a.2.1), a.2.1) := by
      rw [lastSeq_addAll]; rfl
    rw [addAll_append, entries_add, versions_append]
    constructor
    · intro he
      rcases mem_insertChain he with he | he
      · exact ⟨x, List.mem_append_right _ (List.mem_singleton_self _), hnew.trans he.symm⟩
      · obtain ⟨y, hy, hye⟩ := ih.1 he
        exact ⟨y, List.mem_append_left _ hy, hye⟩
    · rintro ⟨y, hy, rfl⟩
      rcases List.mem_append.1 hy with hy | hy
      · refine mem_insertChain_of_ne (ih.2 ⟨y, hy, rfl⟩) fun heq => ?_
        -- the number of the new version is greater than all before it
        obtain ⟨i, hi, hseq⟩ := seq_lt hy
        have hnum : ∀ n < 2 ^ 56, (UInt64.ofNat n).toNat = n := fun n hn => by
          rw [UInt64.toNat_ofNat', Nat.mod_eq_of_lt (by omega)]
        have hlast : (new.addAll adds).lastSeq + 1 = UInt64.ofNat (adds.length + 1) := by
          rw [lastSeq_addAll, UInt64.ofNat_add]; rfl
        have hs := congrArg extractSequence heq
        rw [hlast, Version.entry_fst, extractSequence_makeInternalKey (by rw [hseq, hnum _ (by omega)]; omega),
          extractSequence_makeInternalKey (by rw [hnum _ h]; exact h), hseq] at hs
        have := congrArg UInt64.toNat hs
        rw [hnum _ (by omega), hnum _ h] at this
        omega
      · obtain rfl := List.mem_singleton.1 hy
        rw [hnew]
        exact mem_insertChain_self _ _ _ _

/-- `Get` answers with the least entry from the lookup key on, if that is of `k`. -/
theorem get_eq_some_iff {m : MemTable} (h : m.WF) {k v : Bytes} :
    m.get k = some v ↔ ∃ e ∈ m.entries, extractUserKey e.1 = k ∧ e.2 = v ∧
      ∀ f ∈ m.entries, makeLookupKey k ≤ f.1 → e.1 ≤ f.1 := by
  have hfrom : ∀ e : Bytes × Bytes, (!decide (e.1 < makeLookupKey k)) = true ↔
      makeLookupKey k ≤ e.1 := fun e => by simp
  rw [get_eq, Option.bind_eq_some_iff]
  constructor
  · rintro ⟨e, hfind, hv⟩
    obtain ⟨he, -, hmin⟩ := (Search.find?_eq_some_iff h.sorted hfrom).1 hfind
    split at hv
    · rename_i hek
      exact ⟨e, he, hek, Option.some.inj hv, hmin⟩
    · cases hv
  · rintro ⟨e, he, hek, hv, hmin⟩
    have hle := (h.stored e he).le_of_le hek.ge
    exact ⟨e, (Search.find?_eq_some_iff h.sorted hfrom).2 ⟨he, hle, hmin⟩, by rw [if_pos hek, hv]⟩

/-- **The version that a search finds** is the least one from the lookup key on. -/
theorem shown_iff {k : Bytes} {xs : List Version} {x : Version} (hx : x.userKey = k) :
    Shown k xs x ↔ ∀ y ∈ xs, makeLookupKey k ≤ y.entry.1 → x.entry.1 ≤ y.entry.1 := by
  subst hx
  have happ : ∀ u t : Bytes, x.userKey ++ t ≤ x.userKey ++ u ↔ t ≤ u :=
    fun u t => LexOrder.append_le_append_iff _ _ _
  constructor
  · intro h y hy hle
    rcases lt_trichotomy y.userKey x.userKey with hlt | heq | hgt
    · rcases LexOrder.lt_append_cases hlt with ⟨c, z, hk⟩ | hst
      · have hbetween := h.shorter y hy c z hk
        rw [makeLookupKey_eq, Version.entry, hk, List.append_assoc,
          LexOrder.append_le_append_iff] at hle
        rw [Version.entry, Version.entry, hk, List.append_assoc, LexOrder.append_le_append_iff]
        exact not_lt.1 fun hlt' => hbetween ⟨hle, hlt'⟩
      · exact absurd hle (not_le.2 (hst _ _))
    · rw [Version.entry, Version.entry, heq, happ]
      exact not_lt.1 fun hlt => h.first y hy heq (trailer_lt_iff.1 hlt)
    · rcases LexOrder.lt_append_cases hgt with ⟨c, z, hk⟩ | hst
      · rw [Version.entry, Version.entry, hk, List.append_assoc, happ]
        exact h.longer y hy c z hk
      · exact (hst _ _).le
  · intro h
    refine ⟨rfl, fun y hy hk hlt => ?_, fun y hy c z hk => ?_, fun y hy c z hk hbetween => ?_⟩
    · have := h y hy (by rw [Version.entry_fst, hk]; exact makeLookupKey_le _ _ _)
      rw [Version.entry, Version.entry, hk, happ] at this
      exact absurd (trailer_lt_iff.2 hlt) (not_lt.2 this)
    · have hlt : x.userKey < y.userKey := by
        rw [hk]
        simpa using (LexOrder.append_lt_append_iff x.userKey [] (c :: z)).2 (List.nil_lt_cons _ _)
      have := h y hy (by rw [Version.entry_fst]; exact (makeLookupKey_lt hlt _ _).le)
      rwa [Version.entry, Version.entry, hk, List.append_assoc, happ] at this
    · have hle : makeLookupKey x.userKey ≤ y.entry.1 := by
        rw [makeLookupKey_eq, Version.entry, hk, List.append_assoc, LexOrder.append_le_append_iff]
        exact hbetween.1
      have := h y hy hle
      rw [Version.entry, Version.entry, hk, List.append_assoc, LexOrder.append_le_append_iff] at this
      exact absurd hbetween.2 (not_lt.2 this)

/-- **When `Get` finds the last version**: `k` was never added, or the version of `k` that a
search finds carries the value of the last one. -/
theorem get_eq_lastValue_iff (adds : List (Bytes × Bytes × ℕ)) (h : adds.length < 2 ^ 56)
    (k : Bytes) : (new.addAll adds).get k = lastValue k adds ↔
      ∀ v, lastValue k adds = some v → ∃ x ∈ versions adds, x.value = v ∧
        Shown k (versions adds) x := by
  have hwf := (addAll_spec adds).1
  have hget : ∀ v, (new.addAll adds).get k = some v ↔
      ∃ x ∈ versions adds, x.value = v ∧ Shown k (versions adds) x := by
    intro v
    rw [get_eq_some_iff hwf]
    constructor
    · rintro ⟨e, he, hek, hv, hmin⟩
      obtain ⟨x, hx, rfl⟩ := (mem_entries_addAll h).1 he
      rw [Version.entry_fst, extractUserKey_makeInternalKey] at hek
      exact ⟨x, hx, hv, (shown_iff hek).2 fun y hy => hmin _ ((mem_entries_addAll h).2 ⟨y, hy, rfl⟩)⟩
    · rintro ⟨x, hx, hv, hshown⟩
      refine ⟨x.entry, (mem_entries_addAll h).2 ⟨x, hx, rfl⟩, ?_, hv, fun f hf => ?_⟩
      · rw [Version.entry_fst, extractUserKey_makeInternalKey, hshown.key]
      · obtain ⟨y, hy, rfl⟩ := (mem_entries_addAll h).1 hf
        exact (shown_iff hshown.key).1 hshown y hy
  cases hlast : lastValue k adds with
  | none =>
    have hnever : (new.addAll adds).get k = none := by
      refine get_of_not_mem fun hk => ?_
      obtain ⟨p, hp, hpk⟩ := List.mem_map.1 hk
      obtain ⟨a, ha, rfl⟩ := (addAll_spec adds).2.2 p hp
      refine absurd hlast fun hnone => ?_
      rw [lastValue, List.lookup_eq_none_iff] at hnone
      have := hnone (a.1, a.2.1) (List.mem_map.2 ⟨a, List.mem_reverse.2 ha, rfl⟩)
      simp [← hpk] at this
    exact iff_of_true hnever fun v hv => absurd hv (by simp)
  | some v =>
    rw [hget]
    simp only [Option.some.injEq, forall_eq']

/-- A key that is overwritten twice, with another key between. -/
theorem get_eq_lastValue_overwritten : (new.addAll
    [([97], [49], 1), ([97], [50], 2), ([98], [55], 1), ([97], [51], 1)]).get [97] = some [51] := by
  have hlast : lastValue [97] [([97], [49], 1), ([97], [50], 2), ([98], [55], 1), ([97], [51], 1)] =
    some [51] := by decide
  rw [← hlast, get_eq_lastValue_iff _ (by decide)]
  intro v hv
  obtain rfl := Option.some.inj (hlast.symm.trans hv)
  -- the version of the last add is the least from the lookup key on
  exact ⟨⟨[97], 4, [51]⟩, by simp [versions], rfl,
    (shown_iff (x := ⟨[97], 4, [51]⟩) rfl).2 (by decide +kernel)⟩

/-- **A tombstone hides the value added behind it.** -/
theorem get_tombstone_first : ¬∀ (adds : List (Bytes × Bytes × ℕ)) (k : Bytes),
    adds.length < 2 ^ 56 → (new.addAll adds).get k = lastValue k adds := by
  intro h
  have hk := h [([97], [49], 1), ([97], [], 1), ([97], [50], 1)] [97] (by decide)
  revert hk
  decide +kernel

end MemTable

/-! ## The order of a flushed table -/

/-- The trailer without its type byte. -/
def numberBytes (seq : SequenceNumber) : Bytes := (lowBytes seq).map (~~~·)

/-- Neighbours `p`, `q` of a memtable keep their order in the table, where they get the
numbers `seq` and `seq + 1`. Only versions of one key, and a key that continues the other one
by its type byte, can change places. -/
structure Climbs (seq : SequenceNumber) (p q : Bytes × Bytes) : Prop where
  same : p.1 = q.1 → (p.2 = [] ∧ q.2 ≠ []) ∨ (typeOf p.2 = typeOf q.2 ∧ seq.toUInt8 = 255)
  longer : ∀ z, q.1 = p.1 ++ (typeOf p.2).toByte :: z →
    numberBytes seq < z ++ trailer (seq + 1) (typeOf q.2)
  shorter : ∀ z, p.1 = q.1 ++ (typeOf q.2).toByte :: z →
    z ++ trailer seq (typeOf p.2) < numberBytes (seq + 1)

/-- All neighbours keep their order, the first pair getting the number after `seq`. -/
def ClimbsFrom (seq : SequenceNumber) : List (Bytes × Bytes) → Prop
  | p :: q :: ps => Climbs (seq + 1) p q ∧ ClimbsFrom (seq + 1) (q :: ps)
  | _ => True

theorem trailer_eq_numberBytes (seq : SequenceNumber) (type : ValueType) :
    trailer seq type = type.toByte :: numberBytes seq := trailer_eq seq type

theorem typeOf_lt_iff {v w : Bytes} : (typeOf v).toByte < (typeOf w).toByte ↔ v = [] ∧ w ≠ [] := by
  unfold typeOf
  by_cases hv : v = [] <;> by_cases hw : w = [] <;> simp [hv, hw, ValueType.toByte]

/-- **Neighbours under new numbers**: two entries that are in order are so again under the
numbers `seq` and `seq + 1` if and only if `Climbs` holds. -/
theorem internalKey_lt_succ_iff {p q : Bytes × Bytes} {s t : SequenceNumber}
    (h : makeInternalKey p.1 s (typeOf p.2) < makeInternalKey q.1 t (typeOf q.2))
    (seq : SequenceNumber) : makeInternalKey p.1 seq (typeOf p.2) <
      makeInternalKey q.1 (seq + 1) (typeOf q.2) ↔ Climbs seq p q := by
  obtain ⟨u, v⟩ := p
  obtain ⟨w, x⟩ := q
  simp only [makeInternalKey_eq] at h ⊢
  have hself : ∀ (k : Bytes) (c : UInt8) (z : Bytes), k ≠ k ++ c :: z := fun k c z heq => by
    simpa using congrArg List.length heq
  have hcross : ∀ (k l : Bytes) (c d : UInt8) (z z' : Bytes), k = l ++ c :: z → l ≠ k ++ d :: z' :=
    fun k l c d z z' hk hl => by
      have h1 := congrArg List.length hk
      have h2 := congrArg List.length hl
      simp only [List.length_append, List.length_cons] at h1 h2
      omega
  by_cases hsame : u = w
  · subst hsame
    rw [LexOrder.append_lt_append_iff, trailer_lt_iff]
    constructor
    · intro hahead
      refine ⟨fun _ => ?_, fun z hz => absurd hz (hself _ _ _), fun z hz => absurd hz (hself _ _ _)⟩
      by_cases htype : typeOf v = typeOf x
      · rw [htype] at hahead
        exact Or.inr ⟨htype, ahead_succ_iff.1 hahead⟩
      · exact Or.inl (typeOf_lt_iff.1 (hahead.resolve_right fun h => htype h.1))
    · intro hclimbs
      rcases hclimbs.same rfl with hlt | ⟨htype, hbyte⟩
      · exact Or.inl (typeOf_lt_iff.2 hlt)
      · rw [htype]
        exact ahead_succ_iff.2 hbyte
  by_cases hlonger : ∃ c z, w = u ++ c :: z
  · obtain ⟨c, z, rfl⟩ := hlonger
    -- the order in the memtable leaves a byte equal to the type byte or above it
    rw [List.append_assoc, LexOrder.append_lt_append_iff, List.cons_append, trailer_eq_numberBytes,
      List.cons_lt_cons_iff] at h ⊢
    constructor
    · intro hlt
      refine ⟨fun heq => absurd heq hsame, fun z' hz => ?_, fun z' hz => absurd rfl (hcross _ _ _ _ _ _ hz)⟩
      obtain ⟨rfl, rfl⟩ := List.cons.inj (List.append_cancel_left hz)
      exact (hlt.resolve_left (lt_irrefl _)).2
    · intro hclimbs
      rcases h with hlt | ⟨heq, -⟩
      · exact Or.inl hlt
      · exact Or.inr ⟨heq, hclimbs.longer z (by rw [heq])⟩
  by_cases hshorter : ∃ c z, u = w ++ c :: z
  · obtain ⟨c, z, rfl⟩ := hshorter
    rw [List.append_assoc, LexOrder.append_lt_append_iff, List.cons_append,
      trailer_eq_numberBytes _ (typeOf x), List.cons_lt_cons_iff] at h ⊢
    constructor
    · intro hlt
      refine ⟨fun heq => absurd heq hsame, fun z' hz => absurd rfl (hcross _ _ _ _ _ _ hz), fun z' hz => ?_⟩
      obtain ⟨rfl, rfl⟩ := List.cons.inj (List.append_cancel_left hz)
      exact (hlt.resolve_left (lt_irrefl _)).2
    · intro hclimbs
      rcases h with hlt | ⟨heq, -⟩
      · exact Or.inl hlt
      · exact Or.inr ⟨heq, hclimbs.shorter z (by rw [heq])⟩
  -- keys that part inside both of them are in order whatever their trailers
  have hlt : ∀ r r', u ++ r < w ++ r' := by
    rcases lt_or_gt_of_ne hsame with hlt | hgt
    · exact (LexOrder.lt_append_cases hlt).resolve_left hlonger
    · exact absurd h (((LexOrder.lt_append_cases hgt).resolve_left hshorter) _ _).asymm
  refine iff_of_true (hlt _ _) ⟨fun heq => absurd heq hsame, fun z hz => ?_, fun z hz => ?_⟩
  · exact absurd ⟨_, z, hz⟩ hlonger
  · exact absurd ⟨_, z, hz⟩ hshorter

/-- **Entries in order stay so under new numbers** if and only if all neighbours climb. -/
theorem entriesFrom_sorted_iff {es : List (Bytes × Bytes)} (hs : ∀ e ∈ es, Stored e)
    (hsorted : es.Pairwise fun e f => e.1 < f.1) (seq : SequenceNumber) :
    ((entriesFrom seq (userPairs es)).Pairwise fun e f => e.1 < f.1) ↔
      ClimbsFrom seq (userPairs es) := by
  have : IsTrans (Bytes × Bytes) fun e f => e.1 < f.1 := ⟨fun _ _ _ => lt_trans⟩
  rw [← List.isChain_iff_pairwise]
  induction es generalizing seq with
  | nil => simp [userPairs, entriesFrom, ClimbsFrom]
  | cons e es ih =>
    have ih := ih (fun f hf => hs f (List.mem_cons_of_mem _ hf)) hsorted.of_cons (seq + 1)
    cases es with
    | nil => simp [userPairs, entriesFrom, ClimbsFrom]
    | cons f es =>
      obtain ⟨u, s, hu⟩ := hs e List.mem_cons_self
      obtain ⟨w, t, hw⟩ := hs f (List.mem_cons_of_mem _ List.mem_cons_self)
      have hlt := (List.pairwise_cons.1 hsorted).1 f List.mem_cons_self
      have hue : extractUserKey e.1 = u := by rw [hu, extractUserKey_makeInternalKey]
      have hwf : extractUserKey f.1 = w := by rw [hw, extractUserKey_makeInternalKey]
      have hstep := internalKey_lt_succ_iff (p := (u, e.2)) (q := (w, f.2)) (hw ▸ hu ▸ hlt) (seq + 1)
      simp only [userPairs, List.map_cons, entriesFrom, hue, hwf] at ih ⊢
      exact List.isChain_cons_cons.trans (and_congr hstep ih)

/-- The keys of a block list in order leave the last keys of the blocks in order. -/
theorem lastKeys_sorted {blocks : List DataBlock} (hne : ∀ b ∈ blocks, b.entries ≠ [])
    (h : (blocks.flatMap DataBlock.entries).Pairwise fun e f => e.1 < f.1) :
    (blocks.map DataBlock.lastKey).Pairwise (· < ·) := by
  have hlast : ∀ b ∈ blocks, ∃ e ∈ b.entries, b.lastKey = e.1 := by
    intro b hb
    refine ⟨_, List.getLast_mem (hne b hb), ?_⟩
    rw [DataBlock.lastKey, List.getLast?_eq_some_getLast (hne b hb)]
    rfl
  rw [List.pairwise_flatMap] at h
  rw [List.pairwise_map]
  refine h.2.imp_of_mem fun {b c} hb hc hbc => ?_
  obtain ⟨e, he, hbe⟩ := hlast b hb
  obtain ⟨f, hf, hcf⟩ := hlast c hc
  rw [hbe, hcf]
  exact hbc e he f hf

/-- **When a flush writes a table in order**: all neighbours of the memtable must keep their
order under the numbers that the builder hands out. -/
theorem flush_sorted_iff (adds : List (Bytes × Bytes × ℕ)) :
    ∃ blocks : List DataBlock,
      DB.buildTable (MemTable.new.addAll adds) (fun _ => none) =
        (.OK, fileBytes blocks ((MemTable.new.addAll adds).pairs.map Prod.fst)) ∧
      blocks.map DataBlock.entries =
        cutBlocks [] (tableEntries (MemTable.new.addAll adds).pairs) ∧
      (((blocks.flatMap DataBlock.entries).Pairwise fun e f => e.1 < f.1) ∧
          ((infosFrom 0 blocks).map BlockInfo.lastKey).Pairwise (· < ·) ↔
        ClimbsFrom 0 (MemTable.new.addAll adds).pairs) := by
  have hwf := (MemTable.addAll_spec adds).1
  generalize MemTable.new.addAll adds = m at hwf ⊢
  obtain ⟨blocks, hok, hcut, hstatus, hfile, -⟩ := SSTableBuilder.build_layout m.pairs
  have hflat : blocks.flatMap DataBlock.entries = tableEntries m.pairs := by
    rw [List.flatMap_def, hcut, cutBlocks_flatten, List.nil_append]
  have hinfos : ∀ off, (infosFrom off blocks).map BlockInfo.lastKey = blocks.map DataBlock.lastKey := by
    intro off
    clear hok hcut hfile hflat
    induction blocks generalizing off with
    | nil => rfl
    | cons b bs ih => rw [infosFrom, List.map_cons, ih, List.map_cons]
  refine ⟨blocks, by rw [buildTable_sound, hfile], hcut, ?_⟩
  rw [hinfos, hflat, tableEntries, MemTable.pairs, ← entriesFrom_sorted_iff hwf.stored hwf.sorted]
  refine ⟨fun h => h.1, fun h => ⟨h, lastKeys_sorted (fun b hb => (hok b hb).ne) ?_⟩⟩
  rwa [hflat]

/-- **Two values of one key are written in descending order.** -/
theorem flush_overwrite_descends : ¬∀ adds : List (Bytes × Bytes × ℕ),
    (tableEntries (MemTable.new.addAll adds).pairs).Pairwise fun e f => e.1 < f.1 := by
  intro h
  have hpair := h [([97], [49], 1), ([97], [50], 1)]
  revert hpair
  decide +kernel

end MiniLSM
