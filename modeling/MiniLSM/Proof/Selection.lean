import MiniLSM.Proof.Ordered
import MiniLSM.Proof.RoundTrip
import MiniLSM.Proof.Versions

/-!
# The tables that a compaction selects

The range test of a compaction compares internal keys, so at the ends of two ranges the trailers
decide, although a number means nothing outside of its table.

* `Version.entry_le_iff`: how two entries of different tables are filed.
* `not_ahead_one_iff`: the last entry of a table against the first of another one.
* `selects_iff`: when every table of L1 whose user keys meet those of L0 is selected.
* `selection_misses`: a table that is not, though L0 has a newer version of its last user key.
-/

namespace MiniLSM

open DB SSTable Transition

/-! ## Entries of different tables -/

namespace Version

variable {x y : Version}

/-- `x` is not filed behind `y`. Trailers count where the user keys are the same or one continues
the other. -/
inductive NotBehind (x y : Version) : Prop
  | same : x.userKey = y.userKey → ¬y.Before x → NotBehind x y
  | longer (c : UInt8) (z : Bytes) : y.userKey = x.userKey ++ c :: z →
      x.trailer ≤ c :: z ++ y.trailer → NotBehind x y
  | shorter (c : UInt8) (z : Bytes) : x.userKey = y.userKey ++ c :: z →
      c :: z ++ x.trailer ≤ y.trailer → NotBehind x y
  | apart : x.userKey < y.userKey → nextByte x.userKey y.userKey = none → NotBehind x y

theorem entry_pos (x : Version) : [] < x.entry.1 := by
  rw [entry_fst]
  exact lt_of_le_of_ne (not_lt.1 (List.not_lt_nil _)) fun hnil => by
    simpa using congrArg List.length hnil

/-- **How two entries are filed**, told by their user keys, types and numbers. -/
theorem entry_le_iff : x.entry.1 ≤ y.entry.1 ↔ x.NotBehind y := by
  show x.userKey ++ x.trailer ≤ y.userKey ++ y.trailer ↔ _
  constructor
  · intro hle
    by_cases hsame : x.userKey = y.userKey
    · refine .same hsame fun hbefore => ?_
      rw [hsame, LexOrder.append_le_append_iff] at hle
      exact absurd (trailer_lt_iff.2 hbefore) (not_lt.2 hle)
    rcases lt_or_gt_of_ne hsame with hlt | hgt
    · cases hnext : nextByte x.userKey y.userKey with
      | none => exact .apart hlt hnext
      | some c =>
        obtain ⟨z, hz⟩ := nextByte_eq_some.1 hnext
        rw [hz, List.append_assoc, LexOrder.append_le_append_iff] at hle
        exact .longer c z hz hle
    · rcases LexOrder.lt_append_cases hgt with ⟨c, z, hz⟩ | happend
      · rw [hz, List.append_assoc, LexOrder.append_le_append_iff] at hle
        exact .shorter c z hz hle
      · exact absurd (happend _ _) (not_lt.2 hle)
  · rintro (⟨hsame, hnot⟩ | ⟨c, z, hz, hle⟩ | ⟨c, z, hz, hle⟩ | ⟨hlt, hnext⟩)
    · rw [hsame, LexOrder.append_le_append_iff]
      exact not_lt.1 fun hlt => hnot (trailer_lt_iff.1 hlt)
    · rw [hz, List.append_assoc, LexOrder.append_le_append_iff]
      exact hle
    · rw [hz, List.append_assoc, LexOrder.append_le_append_iff]
      exact hle
    · rcases LexOrder.lt_append_cases hlt with ⟨c, z, hz⟩ | happend
      · rw [nextByte_eq_some.2 ⟨z, hz⟩] at hnext
        cases hnext
      · exact (happend _ _).le

end Version

/-- **The last of `n` entries against the first of another table**, under one user key: it is not in
front if it is a value and the other one a tombstone, or if both are of one type and `n` ends in
a zero byte or is 1. -/
theorem not_ahead_one_iff {n : ℕ} {type type' : ValueType} :
    ¬Ahead (UInt64.ofNat n) type 1 type' ↔
      type = .value ∧ type' = .deletion ∨ type = type' ∧ (n % 2 ^ 8 = 0 ∨ n % 2 ^ 56 = 1) := by
  have hone : lowBytes 1 = [1, 0, 0, 0, 0, 0, 0] := by decide
  have hlow : lowBytes 1 < lowBytes (UInt64.ofNat n) ↔ ¬(n % 2 ^ 8 = 0 ∨ n % 2 ^ 56 = 1) := by
    rw [hone]
    simp only [lowBytes, encodeFixed64, List.take_succ_cons, List.take_zero, List.cons_lt_cons_iff,
      UInt8.lt_iff_toNat_lt, ← UInt8.toNat_inj, UInt64.toNat_toUInt8, UInt64.toNat_shiftRight,
      UInt64.toNat_ofNat', Nat.shiftRight_eq_div_pow]
    simp only [show UInt8.toNat 0 = 0 from rfl, show UInt8.toNat 1 = 1 from rfl,
      show UInt64.toNat 8 % 64 = 8 from rfl, show UInt64.toNat 16 % 64 = 16 from rfl,
      show UInt64.toNat 24 % 64 = 24 from rfl, show UInt64.toNat 32 % 64 = 32 from rfl,
      show UInt64.toNat 40 % 64 = 40 from rfl, show UInt64.toNat 48 % 64 = 48 from rfl, lt_irrefl,
      and_false, or_false]
    omega
  rw [Ahead, hlow]
  cases type <;> cases type' <;> simp [ValueType.toByte, or_iff_not_imp_left]

/-! ## First and last entries -/

namespace SSTable

variable {t : SSTable}

/-- The first entry of a table. -/
def firstVersion (t : SSTable) : Option Version := t.pairs.head?.map fun p => ⟨p.1, 1, p.2⟩

/-- The last entry of a table. -/
def lastVersion (t : SSTable) : Option Version :=
  t.pairs.getLast?.map fun p => ⟨p.1, UInt64.ofNat t.pairs.length, p.2⟩

theorem Built.contents_numbered (h : t.Built) : t.contents = numbered t.pairs := by
  obtain ⟨blocks, hlaid⟩ := h
  rw [hlaid.contents_eq, tableEntries_eq_numbered]

theorem Built.firstKey_version (h : t.Built) :
    t.firstKey = (t.firstVersion.map fun x => x.entry.1).getD [] := by
  rw [h.firstKey_eq, h.contents_numbered, firstVersion, numbered]
  cases t.pairs with
  | nil => rfl
  | cons p ps => simp [Version.entry_fst]

theorem Built.lastKey_version (h : t.Built) :
    t.lastKey = (t.lastVersion.map fun x => x.entry.1).getD [] := by
  rw [h.lastKey_eq, h.contents_numbered, lastVersion, numbered]
  induction t.pairs using List.reverseRecOn with
  | nil => rfl
  | append_singleton ps p => simp [Version.entry_fst]

end SSTable

/-! ## The selection -/

variable {l0 l1 : List SSTable}

/-- The range of a table's user keys meets the one that the user keys of L0 span: its least one is not
above their greatest, and its greatest not below their least. -/
def Meets (l0 : List SSTable) (t : SSTable) : Prop :=
  (∃ p ∈ t.pairs, ∃ q ∈ allPairs l0, p.1 ≤ q.1) ∧ ∃ p ∈ t.pairs, ∃ q ∈ allPairs l0, q.1 ≤ p.1

/-- **What the selection is for**: every table of L1 whose range of user keys meets that of L0 is
selected, and so is every one with a version of a user key of L0. -/
def SelectsAll (l0 l1 : List SSTable) : Prop :=
  ∀ i t, l1[i]? = some t →
    (Meets l0 t → i ∈ l1Indices l0 l1) ∧
      ((∃ p ∈ t.pairs, p.1 ∈ (allPairs l0).map Prod.fst) → i ∈ l1Indices l0 l1)

/-- At both ends of the range of a table some table of L0 reaches it under the numbers that the
entries have in their tables. A table without entries reaches down to all. -/
structure Touched (l0 : List SSTable) (t : SSTable) : Prop where
  top : ∀ x ∈ t.firstVersion, ∃ s ∈ l0, ∃ y ∈ s.lastVersion, x.NotBehind y
  bottom : ∀ y ∈ t.lastVersion, ∃ s ∈ l0, ∀ x ∈ s.firstVersion, x.NotBehind y

theorem meets_of_common {t : SSTable} (h : ∃ p ∈ t.pairs, p.1 ∈ (allPairs l0).map Prod.fst) :
    Meets l0 t := by
  obtain ⟨p, hp, hk⟩ := h
  obtain ⟨q, hq, hqk⟩ := List.mem_map.1 hk
  exact ⟨⟨p, hp, q, hq, hqk.ge⟩, p, hp, q, hq, hqk.le⟩

theorem mem_l1Indices {i : ℕ} {t : SSTable} (hi : l1[i]? = some t) :
    i ∈ l1Indices l0 l1 ↔ t.firstKey ≤ maxKey l0 ∧ minKey l0 ≤ t.lastKey := by
  obtain ⟨hlt, rfl⟩ := List.getElem?_eq_some_iff.1 hi
  simp [l1Indices, hlt, meetsRange]

/-- A fold that keeps a key or takes that of a table ends with the first one or one of a table. -/
theorem foldl_pick (f : SSTable → Bytes) (p : Bytes → Bytes → Prop) [∀ a b, Decidable (p a b)]
    (ts : List SSTable) (k : Bytes) :
    ts.foldl (fun k t => if p (f t) k then f t else k) k = k ∨
      ∃ t ∈ ts, f t = ts.foldl (fun k t => if p (f t) k then f t else k) k := by
  induction ts generalizing k with
  | nil => exact Or.inl rfl
  | cons t ts ih =>
    rw [List.foldl_cons]
    rcases ih (if p (f t) k then f t else k) with hk | ⟨s, hs, hfs⟩
    · rw [hk]
      split
      · exact Or.inr ⟨t, List.mem_cons_self, rfl⟩
      · exact Or.inl rfl
    · exact Or.inr ⟨s, List.mem_cons_of_mem _ hs, hfs⟩

/-- `min_key` is the first key of a table. -/
theorem exists_minKey (hne : l0 ≠ []) : ∃ s ∈ l0, s.firstKey = minKey l0 := by
  obtain ⟨t, ts, rfl⟩ := List.exists_cons_of_ne_nil hne
  rcases foldl_pick SSTable.firstKey (fun a b => Slice.compare a b = .lt) ts t.firstKey with h | ⟨s, hs, h⟩
  · exact ⟨t, List.mem_cons_self, h.symm⟩
  · exact ⟨s, List.mem_cons_of_mem _ hs, h⟩

/-- `max_key` is the last key of a table. -/
theorem exists_maxKey (hne : l0 ≠ []) : ∃ s ∈ l0, s.lastKey = maxKey l0 := by
  obtain ⟨t, ts, rfl⟩ := List.exists_cons_of_ne_nil hne
  rcases foldl_pick SSTable.lastKey (fun a b => Slice.compare a b = .gt) ts t.lastKey with h | ⟨s, hs, h⟩
  · exact ⟨t, List.mem_cons_self, h.symm⟩
  · exact ⟨s, List.mem_cons_of_mem _ hs, h⟩

/-- **Which tables are selected**, told by the entries at the ends of the ranges. -/
theorem mem_l1Indices_iff_touched (h0 : ∀ s ∈ l0, s.Built) {i : ℕ} {t : SSTable} (ht : t.Built)
    (hi : l1[i]? = some t) (hmeets : Meets l0 t) : i ∈ l1Indices l0 l1 ↔ Touched l0 t := by
  obtain ⟨⟨p, hp, q, hq, -⟩, -⟩ := hmeets
  have hne : t.pairs ≠ [] := List.ne_nil_of_mem hp
  have hl0 : l0 ≠ [] := by rintro rfl; cases hq
  obtain ⟨x, hx⟩ : ∃ x, t.firstVersion = some x := ⟨_, by rw [firstVersion, List.head?_eq_some_head hne]; rfl⟩
  obtain ⟨y, hy⟩ : ∃ y, t.lastVersion = some y :=
    ⟨_, by rw [lastVersion, List.getLast?_eq_some_getLast hne]; rfl⟩
  have hfirst : t.firstKey = x.entry.1 := by rw [ht.firstKey_version, hx]; rfl
  have hlast : t.lastKey = y.entry.1 := by rw [ht.lastKey_version, hy]; rfl
  rw [mem_l1Indices hi, hfirst, hlast]
  constructor
  · rintro ⟨hmax, hmin⟩
    obtain ⟨s, hs, hsmax⟩ := exists_maxKey hl0
    obtain ⟨s', hs', hsmin⟩ := exists_minKey hl0
    refine ⟨fun x' hx' => ⟨s, hs, ?_⟩, fun y' hy' => ⟨s', hs', fun x' hx' => ?_⟩⟩
    · obtain rfl : x = x' := Option.some.inj (hx.symm.trans hx')
      rw [← hsmax, (h0 s hs).lastKey_version] at hmax
      cases hlv : s.lastVersion with
      | none =>
        -- a table without entries has the empty last key
        rw [hlv] at hmax
        exact absurd hmax (not_le.2 x.entry_pos)
      | some y' =>
        rw [hlv] at hmax
        exact ⟨y', rfl, Version.entry_le_iff.1 hmax⟩
    · obtain rfl : y = y' := Option.some.inj (hy.symm.trans hy')
      rw [← hsmin, (h0 s' hs').firstKey_version, hx'] at hmin
      exact Version.entry_le_iff.1 hmin
  · intro h
    obtain ⟨s, hs, y', hy', hle⟩ := h.top x hx
    obtain ⟨s', hs', hle'⟩ := h.bottom y hy
    refine ⟨le_trans ?_ (le_maxKey hs), (minKey_le hs').trans ?_⟩
    · rw [(h0 s hs).lastKey_version, hy']
      exact Version.entry_le_iff.2 hle
    · rw [(h0 s' hs').firstKey_version]
      cases hfv : s'.firstVersion with
      | none => exact not_lt.1 (List.not_lt_nil _)
      | some x' => exact Version.entry_le_iff.2 (hle' x' hfv)

/-- **The selection is complete** if and only if each table of L1 that meets L0 is touched by it. -/
theorem selects_iff (h0 : ∀ s ∈ l0, s.Built) (h1 : ∀ t ∈ l1, t.Built) :
    SelectsAll l0 l1 ↔ ∀ t ∈ l1, Meets l0 t → Touched l0 t := by
  constructor
  · intro h t ht hmeets
    obtain ⟨i, hi⟩ := List.getElem?_of_mem ht
    exact (mem_l1Indices_iff_touched h0 (h1 t ht) hi hmeets).1 ((h i t hi).1 hmeets)
  · intro h i t hi
    have ht : t ∈ l1 := List.mem_of_getElem? hi
    have hselect : Meets l0 t → i ∈ l1Indices l0 l1 := fun hmeets =>
      (mem_l1Indices_iff_touched h0 (h1 t ht) hi hmeets).2 (h t ht hmeets)
    exact ⟨hselect, fun hcommon => hselect (meets_of_common hcommon)⟩

/-- A table of L0 in the middle of one of L1. -/
theorem selects_iff_one : ∃ s t, SSTable.openFile 2 (SSTableBuilder.build [([108], [2])]) = .ok s ∧
    SSTable.openFile 1 (SSTableBuilder.build [([106], [1]), ([109], [1])]) = .ok t ∧
      (SelectsAll [s] [t] ↔ ∀ u ∈ [t], Meets [s] u → Touched [s] u) := by
  obtain ⟨s, blocks, hs, -, hsholds⟩ := @openFile_build [([108], [2])] (by decide) 2
  obtain ⟨t, blocks', ht, -, htholds⟩ := @openFile_build [([106], [1]), ([109], [1])] (by decide) 1
  refine ⟨s, t, hs, ht, selects_iff (fun u hu => ?_) fun u hu => ?_⟩
  · obtain rfl := List.mem_singleton.1 hu
    exact hsholds.toLaid.built
  · obtain rfl := List.mem_singleton.1 hu
    exact htholds.toLaid.built

set_option synthInstance.maxSize 1000 in
/-- **A table of L1 that is not selected**: it ends with version `[1]` of `[107]`, and L0 holds
version `[2]`. -/
theorem selection_misses : ∃ w, Reach World.step World.OneCompactor (World.fresh World.smallest) w ∧
    w.db.levels.l0.map SSTable.pairs = [[([107], [2])]] ∧
      w.db.levels.l1.map SSTable.pairs = [[([106], [1]), ([107], [1])]] ∧
      l1Indices w.db.levels.l0 w.db.levels.l1 = [] ∧ ¬SelectsAll w.db.levels.l0 w.db.levels.l1 := by
  have hrun : (run World.step World.OneCompactor (World.fresh World.smallest)
      (World.thenFlush (.put [106] [1]) ++ World.thenFlush (.put [107] [1]) ++
        World.thenFlush (.put [107] [2]) ++ World.compactOnce ++ World.thenFlush (.put [122] [1]))).map
      (fun w => (w.db.levels.l0.map SSTable.pairs, w.db.levels.l1.map SSTable.pairs,
        l1Indices w.db.levels.l0 w.db.levels.l1)) =
      some ([[([107], [2])]], [[([106], [1]), ([107], [1])]], []) := by decide +kernel
  obtain ⟨w, hw, heq⟩ := Option.map_eq_some_iff.1 hrun
  simp only [Prod.mk.injEq] at heq
  obtain ⟨hl0, hl1, hnone⟩ := heq
  refine ⟨w, reach_of_run hw, hl0, hl1, hnone, fun h => ?_⟩
  obtain ⟨s, hs0, hs⟩ := List.map_eq_singleton_iff.1 hl0
  obtain ⟨t, ht1, ht⟩ := List.map_eq_singleton_iff.1 hl1
  have hcommon : ∃ p ∈ t.pairs, p.1 ∈ (allPairs w.db.levels.l0).map Prod.fst :=
    ⟨([107], [1]), by rw [ht]; simp, by rw [hs0, allPairs, List.flatMap_singleton, hs]; simp⟩
  have hsel := (h 0 t (by rw [ht1]; rfl)).2 hcommon
  rw [hnone] at hsel
  cases hsel

end MiniLSM
