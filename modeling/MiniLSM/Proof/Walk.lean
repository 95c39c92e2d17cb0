import MiniLSM.Spec.AnyFile
import MiniLSM.Proof.Seek

/-!
# Iterators over any bytes

`SSTableIterator` looks at the limit of a block before an entry and nowhere inside it. So it keeps
to its buffer exactly as long as the entries in front of the limit do.

* `Walks`: the entries of a buffer, from a position on to its limit, lie in it.
* `Visits`: the buffers that calls lead to.
* `session_ok_iff`: where every block has a size that `std::string` takes, every sequence of calls on
  a fresh iterator keeps to its buffers if and only if what a call may load over such a buffer walks.
-/

namespace MiniLSM

/-! ## Entries -/

/-- Where the entry at `p` ends, if all of it lies in the buffer. -/
def entryEnd (buf : Bytes) (p : ℕ) : Option ℕ := do
  let (_, n) ← varint32Decode (buf.drop p)
  let (keyLen, k) ← varint32Decode (buf.drop (p + n))
  let (valueLen, m) ← varint32Decode (buf.drop (p + n + k + keyLen))
  let q := p + n + k + keyLen + m + valueLen
  if buf.length < q then none else some q

/-- The key of the entry at `p`. -/
def entryKey (buf : Bytes) (p : ℕ) : Option Bytes := do
  let (_, n) ← varint32Decode (buf.drop p)
  let (keyLen, k) ← varint32Decode (buf.drop (p + n))
  return (buf.drop (p + n + k)).take keyLen

theorem ofOption_eq_ok {α : Type} {x : Option α} {a : α} (h : Checked.ofOption x = .ok a) : x = some a := by
  cases x with
  | none => cases h
  | some b => cases h; rfl

/-- Where the entries of a loaded block end: `entries_end_`. -/
def walkLimit (buf : Bytes) : ℕ := if 8 ≤ buf.length then entriesEnd buf else 0

/-- **The entries lie in the buffer**, from `p` on up to the limit. -/
inductive Walks (buf : Bytes) : ℕ → Prop
  | done {p : ℕ} (h : walkLimit buf ≤ p) : Walks buf p
  | entry {p q : ℕ} (hp : p < walkLimit buf) (h : entryEnd buf p = some q) (rest : Walks buf q) : Walks buf p

theorem varint32_bounds {buf : Bytes} {p v n : ℕ} (h : varint32Decode (buf.drop p) = some (v, n)) :
    1 ≤ n ∧ p + n ≤ buf.length := by
  obtain ⟨hpos, hle⟩ := Leb128.decodeFrom_bounds h
  rw [List.length_drop] at hle
  omega

/-- The three numbers of an entry, and what follows from where they stand. -/
theorem entryEnd_eq_some {buf : Bytes} {p q : ℕ} (h : entryEnd buf p = some q) :
    ∃ s n keyLen k valueLen m, varint32Decode (buf.drop p) = some (s, n) ∧
      varint32Decode (buf.drop (p + n)) = some (keyLen, k) ∧
      varint32Decode (buf.drop (p + n + k + keyLen)) = some (valueLen, m) ∧
      q = p + n + k + keyLen + m + valueLen ∧ p + 3 ≤ q ∧ q ≤ buf.length := by
  simp only [entryEnd, Option.bind_eq_bind, Option.bind_eq_some_iff] at h
  obtain ⟨⟨s, n⟩, h₁, ⟨keyLen, k⟩, h₂, ⟨valueLen, m⟩, h₃, h⟩ := h
  have hn := (varint32_bounds h₁).1
  have hk := (varint32_bounds h₂).1
  have hm := (varint32_bounds h₃).1
  split at h
  · cases h
  · cases h
    exact ⟨s, n, keyLen, k, valueLen, m, h₁, h₂, h₃, rfl, by omega, by omega⟩

/-- There is no entry at `p`, or all of it lies in the buffer. -/
def Parses (buf : Bytes) (p : ℕ) : Prop := walkLimit buf ≤ p ∨ ∃ q, entryEnd buf p = some q

theorem Walks.parses {buf : Bytes} {p : ℕ} (h : Walks buf p) : Parses buf p := by
  cases h with
  | done h => exact .inl h
  | entry _ h _ => exact .inr ⟨_, h⟩

namespace SSTableIterator

/-! ## The steps of the iterator -/

/-- A size that `std::string` takes. -/
def Takes (size : ℕ) : Prop := size < 2 ^ 63

/-- Every block of the index has such a size. -/
def Loadable (t : SSTable) : Prop := ∀ e ∈ t.index, Takes e.blockSize

/-- The iterator stands at `p` in a buffer that it loaded for block `i`. -/
structure Stands (it : SSTableIterator) (t : SSTable) (i : ℕ) (buf : Bytes) (p : ℕ) : Prop where
  table : it.table = t
  idx : it.currentBlockIdx = i
  blockData : it.blockData = buf
  entriesEnd : it.entriesEnd = walkLimit buf
  pos : it.pos = p
  sizes : Loadable t

section

variable {it it' : SSTableIterator} {t : SSTable} {i p q : ℕ} {buf : Bytes}

theorem skipEntry_eq (h : entryEnd buf p = some q) : skipEntry buf p = .ok q := by
  obtain ⟨s, n, keyLen, k, valueLen, m, h₁, h₂, h₃, rfl, -, -⟩ := entryEnd_eq_some h
  simp only [skipEntry, varint32At, h₁, h₂, h₃, Checked.ofOption_some, bind, Except.bind, pure, Except.pure]

/-- **`ParseCurrentEntry` keeps to the buffer** exactly if the entry does. -/
theorem parse_iff (h : it.Stands t i buf p) :
    (∃ it', it.parseCurrentEntry = .ok it') ↔ Parses buf p := by
  constructor
  · rintro ⟨it', hparse⟩
    rw [parseCurrentEntry, h.entriesEnd, h.pos, h.blockData] at hparse
    split at hparse
    · rename_i hle
      exact .inl hle
    · right
      obtain ⟨⟨s, n⟩, h₁, hparse⟩ := Checked.bind_eq_ok hparse
      obtain ⟨⟨keyLen, k⟩, h₂, hparse⟩ := Checked.bind_eq_ok hparse
      obtain ⟨key, -, hparse⟩ := Checked.bind_eq_ok hparse
      obtain ⟨⟨valueLen, m⟩, h₃, hparse⟩ := Checked.bind_eq_ok hparse
      obtain ⟨value, hvalue, -⟩ := Checked.bind_eq_ok hparse
      -- the copy of the value is what tells that the entry ends in the buffer
      have hin : p + n + k + keyLen + m + valueLen ≤ buf.length := by
        rw [sliceAt] at hvalue
        split at hvalue
        · cases hvalue
        · rename_i hlt
          exact not_lt.1 hlt
      refine ⟨p + n + k + keyLen + m + valueLen, ?_⟩
      simp only [entryEnd, ofOption_eq_ok h₁, ofOption_eq_ok h₂, ofOption_eq_ok h₃, Option.bind_eq_bind,
        Option.bind_some, if_neg (not_lt.2 hin)]
  · rintro (hle | ⟨q, hq⟩)
    · exact ⟨_, by rw [parseCurrentEntry, h.entriesEnd, h.pos, if_pos hle]; rfl⟩
    · obtain ⟨s, n, keyLen, k, valueLen, m, h₁, h₂, h₃, rfl, -, hin⟩ := entryEnd_eq_some hq
      -- behind the key stands a varint that could be read
      have hkey : ¬buf.length < p + n + k + keyLen := by
        have := (varint32_bounds h₃).2
        omega
      rw [parseCurrentEntry, h.entriesEnd, h.pos, h.blockData]
      split
      · exact ⟨_, rfl⟩
      · simp only [varint32At, h₁, h₂, h₃, Checked.ofOption_some, sliceAt, if_neg hkey,
          if_neg (not_lt.2 hin), bind, Except.bind, pure, Except.pure]
        exact ⟨_, rfl⟩

theorem parse_stands (h : it.Stands t i buf p) (hparse : it.parseCurrentEntry = .ok it') :
    it'.Stands t i buf p := by
  rw [parseCurrentEntry] at hparse
  split at hparse
  · cases hparse
    exact ⟨h.table, h.idx, h.blockData, h.entriesEnd, h.pos, h.sizes⟩
  · obtain ⟨_, -, hparse⟩ := Checked.bind_eq_ok hparse
    obtain ⟨_, -, hparse⟩ := Checked.bind_eq_ok hparse
    obtain ⟨_, -, hparse⟩ := Checked.bind_eq_ok hparse
    obtain ⟨_, -, hparse⟩ := Checked.bind_eq_ok hparse
    obtain ⟨_, -, hparse⟩ := Checked.bind_eq_ok hparse
    cases hparse
    exact ⟨h.table, h.idx, h.blockData, h.entriesEnd, h.pos, h.sizes⟩

/-- What `LoadCurrentBlock` leaves for block `i` in a buffer that held `old`. -/
def loaded (t : SSTable) (old : Bytes) (i : ℕ) : Bytes :=
  let entry := t.index.getD i ⟨[], 0, 0⟩
  readBlockInto t old entry.blockOffset entry.blockSize

theorem load_stands (hsizes : Loadable t) (htable : it.table = t) (hi : i < t.index.length) :
    ∃ it', { it with currentBlockIdx := i }.loadCurrentBlock = .ok it' ∧
      it'.table = t ∧ { it' with pos := 0 }.Stands t i (loaded t it.blockData i) 0 := by
  have hentry : t.index[i]? = some (t.index.getD i ⟨[], 0, 0⟩) := by
    rw [List.getD_eq_getElem?_getD, List.getElem?_eq_getElem hi, Option.getD_some]
  have hsize := hsizes _ (List.mem_of_getElem? hentry)
  refine ⟨{ it with
    currentBlockIdx := i
    blockData := loaded t it.blockData i
    entriesEnd := walkLimit (loaded t it.blockData i) }, ?_, htable, htable, rfl, rfl, rfl, rfl, hsizes⟩
  simp only [loadCurrentBlock, htable, hentry, Checked.ofOption_some, bind, Except.bind, pure, Except.pure]
  rw [if_neg (not_le.2 hsize)]
  rfl

/-- Entering a block keeps to its buffer exactly if the first entry does. -/
theorem enter_iff (hsizes : Loadable t) (htable : it.table = t) (hi : i < t.index.length) :
    (∃ it', it.enterBlock i = .ok it') ↔ Parses (loaded t it.blockData i) 0 := by
  obtain ⟨it₀, hload, -, hstands⟩ := load_stands hsizes htable hi
  rw [← parse_iff hstands, enterBlock, hload]
  rfl

theorem enter_stands (hsizes : Loadable t) (htable : it.table = t) (hi : i < t.index.length)
    (h : it.enterBlock i = .ok it') : it'.Stands t i (loaded t it.blockData i) 0 := by
  obtain ⟨it₀, hload, -, hstands⟩ := load_stands hsizes htable hi
  rw [enterBlock, hload] at h
  exact parse_stands hstands h

/-- `Next` inside a block. -/
theorem next_parse (h : it.Stands t i buf p) (hp : p < walkLimit buf) (hq : entryEnd buf p = some q)
    (hlt : q < walkLimit buf) :
    ∃ it₀ : SSTableIterator, it₀.Stands t i buf q ∧ it.next = it₀.parseCurrentEntry := by
  refine ⟨{ it with pos := q }, ⟨h.table, h.idx, h.blockData, h.entriesEnd, rfl, h.sizes⟩, ?_⟩
  rw [next, h.entriesEnd, h.pos, h.blockData, if_pos hp, skipEntry_eq hq]
  simp only [bind, Except.bind, if_pos hlt]

/-- The iterator is past the last entry of its buffer, or about to be. -/
def Leaves (buf : Bytes) (p : ℕ) : Prop :=
  walkLimit buf ≤ p ∨ ∃ q, p < walkLimit buf ∧ entryEnd buf p = some q ∧ walkLimit buf ≤ q

/-- `Next` from the end of a block: into the next one, if there is one. -/
theorem next_leave (h : it.Stands t i buf p) (hleave : Leaves buf p) :
    (i + 1 < t.index.length → ∃ it₀ : SSTableIterator, it₀.table = t ∧ it₀.blockData = buf ∧
      it.next = it₀.enterBlock (i + 1)) ∧
    (t.index.length ≤ i + 1 → ∃ it' q, it.next = .ok it' ∧ it'.Stands t (i + 1) buf q ∧ walkLimit buf ≤ q) := by
  -- where `pos_` stands when the block is left
  obtain ⟨q, hskip, hq⟩ : ∃ q, (if it.pos < it.entriesEnd then skipEntry it.blockData it.pos
      else pure it.pos) = .ok q ∧ walkLimit buf ≤ q := by
    rw [h.entriesEnd, h.pos, h.blockData]
    rcases hleave with hle | ⟨q, hlt, hentry, hle⟩
    · exact ⟨p, by rw [if_neg (not_lt.2 hle)]; rfl, hle⟩
    · exact ⟨q, by rw [if_pos hlt, skipEntry_eq hentry], hle⟩
  have hnext : it.next = if t.index.length ≤ i + 1 then
      .ok { it with pos := q, currentBlockIdx := i + 1, valid := false }
      else { it with pos := q }.enterBlock (i + 1) := by
    have hend : ¬q < it.entriesEnd := by
      rw [h.entriesEnd]
      exact not_lt.2 hq
    rw [next]
    by_cases hlt : it.pos < it.entriesEnd
    · rw [if_pos hlt] at hskip ⊢
      simp only [hskip, bind, Except.bind, h.table, h.idx, if_neg hend]
      rfl
    · rw [if_neg hlt] at hskip ⊢
      obtain rfl := Except.ok.inj hskip
      simp only [bind, Except.bind, pure, Except.pure, h.table, h.idx, if_neg hend]
  refine ⟨fun hi => ⟨{ it with pos := q }, h.table, h.blockData, ?_⟩,
    fun hi => ⟨{ it with pos := q, currentBlockIdx := i + 1, valid := false }, q, ?_, ?_, hq⟩⟩
  · rw [hnext, if_neg (not_le.2 hi)]
  · rw [hnext, if_pos hi]
  · exact ⟨h.table, rfl, h.blockData, h.entriesEnd, rfl, h.sizes⟩

/-! ## `Seek` -/

/-- **The scan of `Seek` keeps to the buffer** of block `i` from `p` on, and what it ends on walks: the
entry that it finds, or the next block. -/
inductive Sought (t : SSTable) (lookupKey : Bytes) (i : ℕ) (buf : Bytes) : ℕ → Prop
  | past {p : ℕ} (h : walkLimit buf ≤ p)
      (next : i + 1 < t.index.length → Walks (loaded t buf (i + 1)) 0) : Sought t lookupKey i buf p
  | found {p : ℕ} {key : Bytes} (hp : p < walkLimit buf) (hkey : entryKey buf p = some key)
      (hcmp : Slice.compare key lookupKey ≠ .lt) (walks : Walks buf p) : Sought t lookupKey i buf p
  | lower {p q : ℕ} {key : Bytes} (hp : p < walkLimit buf) (hkey : entryKey buf p = some key)
      (hcmp : Slice.compare key lookupKey = .lt) (hskip : skipEntry buf p = .ok q)
      (rest : Sought t lookupKey i buf q) : Sought t lookupKey i buf p

theorem skipEntry_spec (h : skipEntry buf p = .ok q) :
    p < q ∧ ∃ key, entryKey buf p = some key := by
  obtain ⟨⟨s, n⟩, h₁, h⟩ := Checked.bind_eq_ok h
  obtain ⟨⟨keyLen, k⟩, h₂, h⟩ := Checked.bind_eq_ok h
  obtain ⟨⟨valueLen, m⟩, h₃, h⟩ := Checked.bind_eq_ok h
  have hn := (varint32_bounds (ofOption_eq_ok h₁)).1
  have hq := Except.ok.inj h
  refine ⟨by omega, (buf.drop (p + n + k)).take keyLen, ?_⟩
  simp only [entryKey, ofOption_eq_ok h₁, ofOption_eq_ok h₂, Option.bind_eq_bind, Option.bind_some]
  rfl

/-- One entry of the scan. -/
theorem seekInBlock_entry {key lookupKey : Bytes} (h : it.Stands t i buf p) (hp : p < walkLimit buf)
    (hkey : entryKey buf p = some key) (hskip : skipEntry buf p = .ok q) (n : ℕ) :
    seekInBlock lookupKey (n + 1) it = if Slice.compare key lookupKey ≠ .lt then it.parseCurrentEntry
      else seekInBlock lookupKey n { it with pos := q } := by
  obtain ⟨⟨s, l⟩, h₁, hskip⟩ := Checked.bind_eq_ok hskip
  obtain ⟨⟨keyLen, k⟩, h₂, hskip⟩ := Checked.bind_eq_ok hskip
  obtain ⟨⟨valueLen, m⟩, h₃, hskip⟩ := Checked.bind_eq_ok hskip
  have hq := Except.ok.inj hskip
  have hin : ¬buf.length < p + l + k + keyLen := by
    have := (varint32_bounds (ofOption_eq_ok h₃)).2
    omega
  simp only [entryKey, ofOption_eq_ok h₁, ofOption_eq_ok h₂, Option.bind_eq_bind, Option.bind_some,
    pure, Option.some.injEq] at hkey
  rw [seekInBlock, h.entriesEnd, h.pos, h.blockData, if_neg (not_le.2 hp)]
  simp only [h₁, h₂, h₃, sliceAt, if_neg hin, bind, Except.bind, hkey, hq]

/-- The scan that finds nothing hands on to `Next`. -/
theorem seekInBlock_past {lookupKey : Bytes} (h : it.Stands t i buf p) (hle : walkLimit buf ≤ p) (n : ℕ) :
    ∃ it₀ : SSTableIterator, it₀.Stands t i buf p ∧ seekInBlock lookupKey n it = it₀.next := by
  refine ⟨{ it with valid := false }, ⟨h.table, h.idx, h.blockData, h.entriesEnd, h.pos, h.sizes⟩, ?_⟩
  cases n with
  | zero => rfl
  | succ n => rw [seekInBlock, if_pos (by rw [h.entriesEnd, h.pos]; exact hle)]

/-- A scan that reads past nothing skips or ends at every entry. -/
theorem skipEntry_of_seekInBlock {lookupKey : Bytes} {n : ℕ} (h : it.Stands t i buf p)
    (hp : p < walkLimit buf) (hseek : seekInBlock lookupKey (n + 1) it = .ok it') :
    ∃ q, skipEntry buf p = .ok q := by
  rw [seekInBlock, h.entriesEnd, h.pos, h.blockData, if_neg (not_le.2 hp)] at hseek
  obtain ⟨⟨s, l⟩, h₁, hseek⟩ := Checked.bind_eq_ok hseek
  obtain ⟨⟨keyLen, k⟩, h₂, hseek⟩ := Checked.bind_eq_ok hseek
  obtain ⟨key, -, hseek⟩ := Checked.bind_eq_ok hseek
  obtain ⟨⟨valueLen, m⟩, h₃, -⟩ := Checked.bind_eq_ok hseek
  refine ⟨p + l + k + keyLen + m + valueLen, ?_⟩
  simp only [skipEntry, h₁, h₂, h₃, bind, Except.bind, pure, Except.pure]

/-! ## Where the calls lead -/

/-- The buffer behind block `i`: the next block over it, if there is one. -/
def following (t : SSTable) (buf : Bytes) (i : ℕ) : Bytes :=
  if i + 1 < t.index.length then loaded t buf (i + 1) else buf

/-- The scan of `Seek` passes every entry from `p` on. -/
inductive Passes (lookupKey buf : Bytes) : ℕ → Prop
  | past {p : ℕ} (h : walkLimit buf ≤ p) : Passes lookupKey buf p
  | lower {p q : ℕ} {key : Bytes} (hp : p < walkLimit buf) (hkey : entryKey buf p = some key)
      (hcmp : Slice.compare key lookupKey = .lt) (hskip : skipEntry buf p = .ok q)
      (rest : Passes lookupKey buf q) : Passes lookupKey buf p

/-- **The buffers that an iterator comes to**, each with the number of its block. A buffer is what a
read leaves of the one before. -/
inductive Visits (t : SSTable) : ℕ → Bytes → Prop
  | fresh : Visits t 0 (loaded t [] 0)
  | seekToFirst {i : ℕ} {buf : Bytes} (h : Visits t i buf) : Visits t 0 (loaded t buf 0)
  | next {i : ℕ} {buf : Bytes} (h : Visits t i buf) : Visits t (i + 1) (following t buf i)
  | seekFound {i : ℕ} {buf : Bytes} (target : Bytes) (h : Visits t i buf)
      (hfound : ¬Passes (makeLookupKey target) (loaded t buf (Laid.target t target)) 0) :
      Visits t (Laid.target t target) (loaded t buf (Laid.target t target))
  | seekPast {i : ℕ} {buf : Bytes} (target : Bytes) (h : Visits t i buf)
      (hpast : Passes (makeLookupKey target) (loaded t buf (Laid.target t target)) 0) :
      Visits t (Laid.target t target + 1)
        (following t (loaded t buf (Laid.target t target)) (Laid.target t target))

/-- **What a call may load walks**: the first block, the next one, and what `Seek` looks for. -/
structure LoadsWalk (t : SSTable) (i : ℕ) (buf : Bytes) : Prop where
  first : Walks (loaded t buf 0) 0
  next : i + 1 < t.index.length → Walks (loaded t buf (i + 1)) 0
  seek : ∀ target, Sought t (makeLookupKey target) (Laid.target t target)
    (loaded t buf (Laid.target t target)) 0

theorem not_passes_of_found {lookupKey key : Bytes} (hp : p < walkLimit buf) (hkey : entryKey buf p = some key)
    (hcmp : Slice.compare key lookupKey ≠ .lt) : ¬Passes lookupKey buf p := by
  intro h
  cases h with
  | past hle => omega
  | lower _ hkey' hcmp' =>
    obtain rfl := Option.some.inj (hkey.symm.trans hkey')
    exact hcmp hcmp'

theorem Passes.rest {lookupKey : Bytes} (h : Passes lookupKey buf p) (hp : p < walkLimit buf)
    (hskip : skipEntry buf p = .ok q) : Passes lookupKey buf q := by
  cases h with
  | past hle => omega
  | lower _ _ _ hskip' rest =>
    obtain rfl := Except.ok.inj (hskip.symm.trans hskip')
    exact rest

theorem walkLimit_le (buf : Bytes) : walkLimit buf ≤ buf.length := by
  unfold walkLimit
  split
  · exact (Nat.sub_le _ _).trans (Nat.sub_le _ _)
  · exact Nat.zero_le _

theorem target_lt_length (hne : t.index ≠ []) (target : Bytes) : Laid.target t target < t.index.length := by
  have hpos := List.length_pos_iff.2 hne
  have hle : Laid.target t target ≤ t.index.length - 1 := by
    rw [Laid.target, SSTable.findBlock_eq]
    exact (Search.lowerBound_mem (Nat.zero_le _)).2
  omega

/-- `Seek` is a load and a scan from the start. -/
theorem seek_eq (hsizes : Loadable t) (htable : it.table = t) (hne : t.index ≠ []) (target : Bytes) :
    ∃ it₀ : SSTableIterator, it₀.Stands t (Laid.target t target) (loaded t it.blockData (Laid.target t target)) 0 ∧
      it.seek target = seekInBlock (makeLookupKey target)
        (loaded t it.blockData (Laid.target t target)).length it₀ := by
  subst htable
  obtain ⟨it₀, hload, -, hstands⟩ := load_stands hsizes rfl (target_lt_length hne target)
  refine ⟨{ it₀ with pos := 0 }, hstands, ?_⟩
  have hdata : it₀.blockData = loaded it.table it.blockData (Laid.target it.table target) := hstands.blockData
  rw [← hdata, seek, ← Laid.target, hload]
  rfl

/-! ## What a call keeps -/

/-- The iterator stands where the rest of its buffer walks. -/
def OnWalk (t : SSTable) (i : ℕ) (buf : Bytes) (it : SSTableIterator) : Prop :=
  ∃ p, it.Stands t i buf p ∧ Walks buf p

theorem enter_onWalk (hsizes : Loadable t) (htable : it.table = t) (hi : i < t.index.length)
    (hwalks : Walks (loaded t it.blockData i) 0) :
    ∃ it', it.enterBlock i = .ok it' ∧ OnWalk t i (loaded t it.blockData i) it' := by
  obtain ⟨it', henter⟩ := (enter_iff hsizes htable hi).2 hwalks.parses
  exact ⟨it', henter, 0, enter_stands hsizes htable hi henter, hwalks⟩

theorem parse_onWalk (h : it.Stands t i buf p) (hwalks : Walks buf p) :
    ∃ it', it.parseCurrentEntry = .ok it' ∧ OnWalk t i buf it' := by
  obtain ⟨it', hparse⟩ := (parse_iff h).2 hwalks.parses
  exact ⟨it', hparse, p, parse_stands h hparse, hwalks⟩

theorem leave_onWalk (h : it.Stands t i buf p) (hleave : Leaves buf p)
    (hnext : i + 1 < t.index.length → Walks (loaded t buf (i + 1)) 0) :
    ∃ it', it.next = .ok it' ∧ OnWalk t (i + 1) (following t buf i) it' := by
  obtain ⟨henter, hend⟩ := next_leave h hleave
  rw [following]
  by_cases hi : i + 1 < t.index.length
  · obtain ⟨it₀, htable, hdata, heq⟩ := henter hi
    rw [if_pos hi, heq, ← hdata]
    exact enter_onWalk h.sizes htable hi (by rw [hdata]; exact hnext hi)
  · obtain ⟨it', q, heq, hstands, hq⟩ := hend (not_lt.1 hi)
    rw [if_neg hi]
    exact ⟨it', heq, q, hstands, .done hq⟩

/-- The iterator has come to a buffer, and stands where the rest of it walks. -/
def Good (t : SSTable) (it : SSTableIterator) : Prop := ∃ i buf, OnWalk t i buf it ∧ Visits t i buf

theorem next_good (h : it.Stands t i buf p) (hwalks : Walks buf p) (hvisits : Visits t i buf)
    (hnext : i + 1 < t.index.length → Walks (loaded t buf (i + 1)) 0) :
    ∃ it', it.next = .ok it' ∧ Good t it' := by
  have hleft : Leaves buf p → ∃ it', it.next = .ok it' ∧ Good t it' := fun hleave => by
    obtain ⟨it', heq, hon⟩ := leave_onWalk h hleave hnext
    exact ⟨it', heq, _, _, hon, hvisits.next⟩
  cases hwalks with
  | done hle => exact hleft (.inl hle)
  | @entry _ q hp hq rest =>
    by_cases hlt : q < walkLimit buf
    · obtain ⟨it₀, hstands, heq⟩ := next_parse h hp hq hlt
      obtain ⟨it', hparse, hon⟩ := parse_onWalk hstands rest
      exact ⟨it', heq.trans hparse, _, _, hon, hvisits⟩
    · exact hleft (.inr ⟨q, hp, hq, not_lt.1 hlt⟩)

theorem seekInBlock_good {lookupKey : Bytes} {n : ℕ} (h : it.Stands t i buf p)
    (hn : walkLimit buf ≤ p + n) (hsought : Sought t lookupKey i buf p)
    (hfound : ¬Passes lookupKey buf p → Visits t i buf)
    (hpast : Passes lookupKey buf p → Visits t (i + 1) (following t buf i)) :
    ∃ it', seekInBlock lookupKey n it = .ok it' ∧ Good t it' := by
  induction hsought generalizing it n with
  -- nothing from the target on is in the block, so the scan ends in the next one
  | @past p hle hnext =>
    obtain ⟨it₀, hstands, hseek⟩ := @seekInBlock_past _ _ _ _ _ lookupKey h hle n
    obtain ⟨it', heq, hon⟩ := leave_onWalk hstands (.inl hle) hnext
    exact ⟨it', hseek.trans heq, _, _, hon, hpast (.past hle)⟩
  | @found p key hp hkey hcmp hwalks =>
    obtain ⟨q, hq⟩ := hwalks.parses.resolve_left (not_le.2 hp)
    obtain ⟨n, rfl⟩ : ∃ m, n = m + 1 := ⟨n - 1, by omega⟩
    rw [seekInBlock_entry h hp hkey (skipEntry_eq hq), if_pos hcmp]
    obtain ⟨it', hparse, hon⟩ := parse_onWalk h hwalks
    exact ⟨it', hparse, _, _, hon, hfound (not_passes_of_found hp hkey hcmp)⟩
  | @lower p q key hp hkey hcmp hskip _ ih =>
    have hlt := (skipEntry_spec hskip).1
    obtain ⟨n, rfl⟩ : ∃ m, n = m + 1 := ⟨n - 1, by omega⟩
    rw [seekInBlock_entry h hp hkey hskip, if_neg (not_not.2 hcmp)]
    exact ih ⟨h.table, h.idx, h.blockData, h.entriesEnd, rfl, h.sizes⟩ (by omega)
      (fun hno => hfound fun hpass => hno (hpass.rest hp hskip))
      (fun hpass => hpast (.lower hp hkey hcmp hskip hpass))

/-- **A call keeps to its buffers** when what it may load walks. -/
theorem call_good (h : Good t it) (hne : t.index ≠ [])
    (hloads : ∀ i buf, Visits t i buf → LoadsWalk t i buf) (c : Call) :
    ∃ it', it.call c = .ok it' ∧ Good t it' := by
  obtain ⟨i, buf, ⟨p, hstands, hwalks⟩, hvisits⟩ := h
  have hloads := hloads i buf hvisits
  cases c with
  | seekToFirst =>
    rw [call, seekToFirst, hstands.table, if_neg hne]
    obtain ⟨it', henter, hon⟩ := enter_onWalk hstands.sizes hstands.table (List.length_pos_iff.2 hne)
      (by rw [hstands.blockData]; exact hloads.first)
    rw [hstands.blockData] at hon
    exact ⟨it', henter, _, _, hon, hvisits.seekToFirst⟩
  | next => exact next_good hstands hwalks hvisits hloads.next
  | seek target =>
    obtain ⟨it₀, hstands₀, hseek⟩ := seek_eq hstands.sizes hstands.table hne target
    rw [hstands.blockData] at hstands₀ hseek
    rw [call, hseek]
    exact seekInBlock_good hstands₀ (by rw [Nat.zero_add]; exact walkLimit_le _) (hloads.seek target)
      (hvisits.seekFound target) (hvisits.seekPast target)

/-! ## What calls that keep to their buffers show -/

/-- Every sequence of calls keeps to its buffers. -/
def Runs (it : SSTableIterator) : Prop := ∀ cs, ∃ it', it.calls cs = .ok it'

theorem Runs.call (h : Runs it) (c : Call) : ∃ it', it.call c = .ok it' ∧ Runs it' := by
  obtain ⟨it₁, h₁⟩ := h [c]
  rw [calls, List.foldlM_cons] at h₁
  obtain ⟨it', hcall, -⟩ := Checked.bind_eq_ok h₁
  refine ⟨it', hcall, fun cs => ?_⟩
  obtain ⟨it₂, h₂⟩ := h (c :: cs)
  rw [calls, List.foldlM_cons, hcall] at h₂
  exact ⟨it₂, h₂⟩

/-- Calling `Next` again and again goes over every entry of the buffer. -/
theorem walks_of_runs (h : it.Stands t i buf p) (hparses : Parses buf p) (hruns : Runs it) : Walks buf p := by
  -- the entries end further and further behind
  induction hn : walkLimit buf - p using Nat.strong_induction_on generalizing it p with
  | _ n ih =>
    rcases hparses with hle | ⟨q, hq⟩
    · exact .done hle
    by_cases hp : p < walkLimit buf
    · by_cases hlt : q < walkLimit buf
      · obtain ⟨it₀, hstands, heq⟩ := next_parse h hp hq hlt
        obtain ⟨it', hcall, hruns'⟩ := hruns.call .next
        have hparse : it₀.parseCurrentEntry = .ok it' := heq.symm.trans hcall
        have hpq := (skipEntry_spec (skipEntry_eq hq)).1
        exact .entry hp hq (ih _ (by omega) (parse_stands hstands hparse)
          ((parse_iff hstands).1 ⟨it', hparse⟩) hruns' rfl)
      · exact .entry hp hq (.done (not_lt.1 hlt))
    · exact .done (not_lt.1 hp)

/-- An entry into a block that walks from there on. -/
theorem enter_walks {it₀ : SSTableIterator} (hsizes : Loadable t) (htable : it₀.table = t) (hi : i < t.index.length)
    (henter : it₀.enterBlock i = .ok it) (hruns : Runs it) :
    it.Stands t i (loaded t it₀.blockData i) 0 ∧ Walks (loaded t it₀.blockData i) 0 := by
  have hstands := enter_stands hsizes htable hi henter
  exact ⟨hstands, walks_of_runs hstands ((enter_iff hsizes htable hi).1 ⟨it, henter⟩) hruns⟩

/-- The block behind the one that `Next` leaves. -/
theorem leave_walks (h : it.Stands t i buf p) (hleave : Leaves buf p) (hnext : it.next = .ok it')
    (hruns : Runs it') : (i + 1 < t.index.length → Walks (loaded t buf (i + 1)) 0) ∧
      OnWalk t (i + 1) (following t buf i) it' := by
  have hwalks : i + 1 < t.index.length → Walks (loaded t buf (i + 1)) 0 := fun hi => by
    obtain ⟨it₀, htable, hdata, heq⟩ := (next_leave h hleave).1 hi
    rw [← hdata]
    exact (enter_walks h.sizes htable hi (heq.symm.trans hnext) hruns).2
  obtain ⟨it'', hnext', hon⟩ := leave_onWalk h hleave hwalks
  obtain rfl := Except.ok.inj (hnext'.symm.trans hnext)
  exact ⟨hwalks, hon⟩

/-- `Next` again and again comes to the end of the buffer, and behind it. -/
theorem next_of_runs (h : it.Stands t i buf p) (hwalks : Walks buf p) (hruns : Runs it) :
    (i + 1 < t.index.length → Walks (loaded t buf (i + 1)) 0) ∧
      ∃ it', OnWalk t (i + 1) (following t buf i) it' ∧ Runs it' := by
  have hleft : ∀ {it : SSTableIterator} {p : ℕ}, it.Stands t i buf p → Runs it → Leaves buf p →
      (i + 1 < t.index.length → Walks (loaded t buf (i + 1)) 0) ∧
        ∃ it', OnWalk t (i + 1) (following t buf i) it' ∧ Runs it' := by
    intro it p h hruns hleave
    obtain ⟨it', hcall, hruns'⟩ := hruns.call .next
    obtain ⟨hwalks, hon⟩ := leave_walks h hleave hcall hruns'
    exact ⟨hwalks, it', hon, hruns'⟩
  induction hwalks generalizing it with
  | done hle => exact hleft h hruns (.inl hle)
  | @entry p q hp hq rest ih =>
    by_cases hlt : q < walkLimit buf
    · obtain ⟨it₀, hstands, heq⟩ := next_parse h hp hq hlt
      obtain ⟨it', hcall, hruns'⟩ := hruns.call .next
      exact ih (parse_stands hstands (heq.symm.trans hcall)) hruns'
    · exact hleft h hruns (.inr ⟨q, hp, hq, not_lt.1 hlt⟩)

/-- What a scan has gone over, and where it ends. -/
theorem seekInBlock_of_runs {lookupKey : Bytes} {n : ℕ} (h : it.Stands t i buf p)
    (hn : walkLimit buf ≤ p + n) (hseek : seekInBlock lookupKey n it = .ok it') (hruns : Runs it') :
    Sought t lookupKey i buf p ∧ (¬Passes lookupKey buf p → OnWalk t i buf it') ∧
      (Passes lookupKey buf p → OnWalk t (i + 1) (following t buf i) it') := by
  have hend : ∀ {it : SSTableIterator} {p n : ℕ}, it.Stands t i buf p → walkLimit buf ≤ p →
      seekInBlock lookupKey n it = .ok it' → Sought t lookupKey i buf p ∧
        (¬Passes lookupKey buf p → OnWalk t i buf it') ∧
        (Passes lookupKey buf p → OnWalk t (i + 1) (following t buf i) it') := by
    intro it p n h hle hseek
    obtain ⟨it₁, hstands, hnext⟩ := @seekInBlock_past _ _ _ _ _ lookupKey h hle n
    obtain ⟨hwalks, hon⟩ := leave_walks hstands (.inl hle) (hnext.symm.trans hseek) hruns
    exact ⟨.past hle hwalks, fun hno => absurd (.past hle) hno, fun _ => hon⟩
  induction n generalizing it p with
  | zero => exact hend h hn hseek
  | succ n ih =>
    by_cases hp : p < walkLimit buf
    · obtain ⟨q, hskip⟩ := skipEntry_of_seekInBlock h hp hseek
      obtain ⟨hlt, key, hkey⟩ := skipEntry_spec hskip
      rw [seekInBlock_entry h hp hkey hskip] at hseek
      split at hseek
      · rename_i hcmp
        have hstands := parse_stands h hseek
        have hwalks := walks_of_runs hstands ((parse_iff h).1 ⟨it', hseek⟩) hruns
        exact ⟨.found hp hkey hcmp hwalks, fun _ => ⟨p, hstands, hwalks⟩,
          fun hpass => absurd hpass (not_passes_of_found hp hkey hcmp)⟩
      · rename_i hcmp
        have hstands : { it with pos := q }.Stands t i buf q :=
          ⟨h.table, h.idx, h.blockData, h.entriesEnd, rfl, h.sizes⟩
        obtain ⟨hsought, hfound, hpast⟩ := ih hstands (by omega) hseek
        have hlower := not_not.1 hcmp
        exact ⟨.lower hp hkey hlower hskip hsought,
          fun hno => hfound fun hpass => hno (.lower hp hkey hlower hskip hpass),
          fun hpass => hpast (hpass.rest hp hskip)⟩
    · exact hend h (not_lt.1 hp) hseek

/-- What a call may load, where every sequence of calls keeps to its buffers. -/
theorem loadsWalk_of_runs (h : OnWalk t i buf it) (hne : t.index ≠ []) (hruns : Runs it) : LoadsWalk t i buf := by
  obtain ⟨p, hstands, hwalks⟩ := h
  refine ⟨?_, (next_of_runs hstands hwalks hruns).1, fun target => ?_⟩
  · obtain ⟨it', hcall, hruns'⟩ := hruns.call .seekToFirst
    rw [call, seekToFirst, hstands.table, if_neg hne] at hcall
    rw [← hstands.blockData]
    exact (enter_walks hstands.sizes hstands.table (List.length_pos_iff.2 hne) hcall hruns').2
  · obtain ⟨it', hcall, hruns'⟩ := hruns.call (.seek target)
    obtain ⟨it₀, hstands₀, hseek⟩ := seek_eq hstands.sizes hstands.table hne target
    rw [hstands.blockData] at hstands₀ hseek
    exact (seekInBlock_of_runs hstands₀ (by rw [Nat.zero_add]; exact walkLimit_le _)
      (hseek.symm.trans hcall) hruns').1

/-- **Calls lead to every buffer that is visited.** -/
theorem onWalk_of_visits {it₀ : SSTableIterator} (h₀ : OnWalk t 0 (loaded t [] 0) it₀) (hne : t.index ≠ [])
    (hruns₀ : Runs it₀) (hvisits : Visits t i buf) : ∃ it, OnWalk t i buf it ∧ Runs it := by
  have hseek : ∀ {i buf it}, OnWalk t i buf it → Runs it → ∀ target, ∃ it', Runs it' ∧
      (¬Passes (makeLookupKey target) (loaded t buf (Laid.target t target)) 0 →
        OnWalk t (Laid.target t target) (loaded t buf (Laid.target t target)) it') ∧
      (Passes (makeLookupKey target) (loaded t buf (Laid.target t target)) 0 → OnWalk t (Laid.target t target + 1)
        (following t (loaded t buf (Laid.target t target)) (Laid.target t target)) it') := by
    rintro i buf it ⟨p, hstands, -⟩ hruns target
    obtain ⟨it', hcall, hruns'⟩ := hruns.call (.seek target)
    obtain ⟨it₁, hstands₁, hseek⟩ := seek_eq hstands.sizes hstands.table hne target
    rw [hstands.blockData] at hstands₁ hseek
    exact ⟨it', hruns', (seekInBlock_of_runs hstands₁ (by rw [Nat.zero_add]; exact walkLimit_le _)
      (hseek.symm.trans hcall) hruns').2⟩
  induction hvisits with
  | fresh => exact ⟨it₀, h₀, hruns₀⟩
  | seekToFirst _ ih =>
    obtain ⟨it, ⟨p, hstands, -⟩, hruns⟩ := ih
    obtain ⟨it', hcall, hruns'⟩ := hruns.call .seekToFirst
    rw [call, seekToFirst, hstands.table, if_neg hne] at hcall
    rw [← hstands.blockData]
    exact ⟨it', ⟨0, enter_walks hstands.sizes hstands.table (List.length_pos_iff.2 hne) hcall hruns'⟩, hruns'⟩
  | next _ ih =>
    obtain ⟨it, ⟨p, hstands, hwalks⟩, hruns⟩ := ih
    exact (next_of_runs hstands hwalks hruns).2
  | seekFound target _ hfound ih =>
    obtain ⟨it, hon, hruns⟩ := ih
    obtain ⟨it', hruns', hon', -⟩ := hseek hon hruns target
    exact ⟨it', hon' hfound, hruns'⟩
  | seekPast target _ hpast ih =>
    obtain ⟨it, hon, hruns⟩ := ih
    obtain ⟨it', hruns', -, hon'⟩ := hseek hon hruns target
    exact ⟨it', hon' hpast, hruns'⟩

/-! ## Sessions -/

theorem session_eq (hne : t.index ≠ []) (cs : List Call) :
    session t cs = { table := t : SSTableIterator }.enterBlock 0 >>= fun it => it.calls cs := by
  rw [session, SSTableIterator.new, seekToFirst, if_neg hne]

theorem runs_of_loadsWalk (h : Good t it) (hne : t.index ≠ [])
    (hloads : ∀ i buf, Visits t i buf → LoadsWalk t i buf) : Runs it := by
  intro cs
  induction cs generalizing it with
  | nil => exact ⟨it, rfl⟩
  | cons c cs ih =>
    obtain ⟨it₁, hcall, hgood⟩ := call_good h hne hloads c
    obtain ⟨it', hcalls⟩ := ih hgood
    exact ⟨it', by rw [calls, List.foldlM_cons, hcall]; exact hcalls⟩

/-- **When every sequence of calls keeps to its buffers**: there is a block, the first one walks, and
so does whatever a call may load over a buffer that calls lead to. -/
theorem session_ok_iff (hsizes : Loadable t) : (∀ cs, ∃ it, session t cs = .ok it) ↔ t.index ≠ [] ∧
    Walks (loaded t [] 0) 0 ∧ ∀ i buf, Visits t i buf → LoadsWalk t i buf := by
  constructor
  · intro h
    -- `Seek` on a table without blocks loads block 0
    have hne : t.index ≠ [] := by
      intro hnil
      obtain ⟨it, hit⟩ := h [.seek []]
      obtain ⟨it₀, hnew, hcalls⟩ := Checked.bind_eq_ok hit
      rw [SSTableIterator.new, seekToFirst, if_pos hnil] at hnew
      cases hnew
      rw [calls, List.foldlM_cons, call, seek_of_empty hnil] at hcalls
      cases hcalls
    obtain ⟨it, hit⟩ := h []
    rw [session_eq hne] at hit
    obtain ⟨it₀, henter, -⟩ := Checked.bind_eq_ok hit
    have hruns : Runs it₀ := fun cs => by
      obtain ⟨it', hit'⟩ := h cs
      rw [session_eq hne, henter] at hit'
      exact ⟨it', hit'⟩
    obtain ⟨hstands, hwalks⟩ := enter_walks hsizes rfl (List.length_pos_iff.2 hne) henter hruns
    refine ⟨hne, hwalks, fun i buf hvisits => ?_⟩
    obtain ⟨it', hon, hruns'⟩ := onWalk_of_visits ⟨0, hstands, hwalks⟩ hne hruns hvisits
    exact loadsWalk_of_runs hon hne hruns'
  · rintro ⟨hne, hwalks, hloads⟩ cs
    obtain ⟨it₀, henter, hon⟩ := enter_onWalk hsizes (show { table := t : SSTableIterator }.table = t from rfl)
      (List.length_pos_iff.2 hne) hwalks
    rw [session_eq hne, henter]
    exact runs_of_loadsWalk ⟨0, _, hon, .fresh⟩ hne hloads cs

/-- Then every block walks over some buffer. -/
theorem walks_of_loadsWalk (hwalks : Walks (loaded t [] 0) 0)
    (hloads : ∀ i buf, Visits t i buf → LoadsWalk t i buf) (hi : i < t.index.length) :
    ∃ old, Walks (loaded t old i) 0 := by
  have hreach : ∀ i < t.index.length, ∃ old, Walks (loaded t old i) 0 ∧ Visits t i (loaded t old i) := by
    intro i
    induction i with
    | zero => exact fun _ => ⟨[], hwalks, .fresh⟩
    | succ i ih =>
      intro hi
      obtain ⟨old, -, hvisits⟩ := ih (by omega)
      have hnext := hvisits.next
      rw [following, if_pos hi] at hnext
      exact ⟨_, (hloads i _ hvisits).next hi, hnext⟩
  obtain ⟨old, hold, -⟩ := hreach i hi
  exact ⟨old, hold⟩

/-! ## Blocks that are read whole -/

/-- A scan of a block that walks. -/
theorem sought_of_walks (hwalks : Walks buf p)
    (hnext : i + 1 < t.index.length → Walks (loaded t buf (i + 1)) 0) (lookupKey : Bytes) :
    Sought t lookupKey i buf p := by
  induction hwalks with
  | done hle => exact .past hle hnext
  | @entry p q hp hq rest ih =>
    have hskip := skipEntry_eq hq
    obtain ⟨-, key, hkey⟩ := skipEntry_spec hskip
    by_cases hcmp : Slice.compare key lookupKey = .lt
    · exact .lower hp hkey hcmp hskip ih
    · exact .found hp hkey hcmp (.entry hp hq rest)

/-- **Where no block is cut off by the end of the file**, every sequence of calls keeps to its buffers
if and only if there is a block and all of them walk. -/
theorem session_ok_iff_of_whole (hsizes : Loadable t)
    (hwhole : ∀ i < t.index.length, ∀ old, loaded t old i = loaded t [] i) :
    (∀ cs, ∃ it, session t cs = .ok it) ↔
      t.index ≠ [] ∧ ∀ i < t.index.length, Walks (loaded t [] i) 0 := by
  constructor
  · intro h
    obtain ⟨hne, hwalks, hloads⟩ := (session_ok_iff hsizes).1 h
    refine ⟨hne, fun i hi => ?_⟩
    obtain ⟨old, hwalks⟩ := walks_of_loadsWalk hwalks hloads hi
    rwa [hwhole i hi old] at hwalks
  · rintro ⟨hne, hwalks⟩
    have hload : ∀ i < t.index.length, ∀ old, Walks (loaded t old i) 0 := fun i hi old => by
      rw [hwhole i hi old]
      exact hwalks i hi
    have hpos := List.length_pos_iff.2 hne
    refine (session_ok_iff hsizes).2 ⟨hne, hwalks 0 hpos, fun i buf _ => ?_⟩
    exact {
      first := hload 0 hpos _
      next := fun hi => hload _ hi _
      seek := fun target => sought_of_walks (hload _ (target_lt_length hne target) _)
        (fun hi => hload _ hi _) _ }

end

end SSTableIterator

end MiniLSM
