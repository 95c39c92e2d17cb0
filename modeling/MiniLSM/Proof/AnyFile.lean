import MiniLSM.Proof.Walk
import MiniLSM.Proof.Files
import MiniLSM.Proof.RoundTrip

/-!
# Any bytes as a table file

* `openFile_iff`: when `SSTable::Open` returns.
* `contained_iff`: which files `Open`, `Get` and the iterators read without leaving a buffer and
  without asking for one larger than the file.
* `long_key_escapes`: one byte of a file that the builder wrote is changed, `Open` takes it, and a
  fresh iterator reads behind its block.
-/

namespace MiniLSM

open SSTable SSTableIterator

/-! ## The index -/

/-- The two numbers of a block handle are varints of at most ten bytes, and end in its bytes or in the
zero behind them. -/
def HandleEnds (handle : Bytes) : Prop := ∃ v n w m,
  varint64Decode (handle ++ [0]) = some (v, n) ∧ varint64Decode ((handle ++ [0]).drop n) = some (w, m)

/-- **The entries of an index lie in its buffer**, from `p` on, as far as the loop of `Open` goes. -/
inductive IndexWalks (buf : Bytes) (limit : ℕ) : ℕ → Prop
  | done {p : ℕ} (h : limit ≤ p) : IndexWalks buf limit p
  | cut {p : ℕ} (hp : p < limit) (h : parseEntry buf limit p = .ok none) : IndexWalks buf limit p
  | entry {p q : ℕ} {key handle : Bytes} (hp : p < limit)
      (h : parseEntry buf limit p = .ok (some (key, handle, q))) (ends : HandleEnds handle)
      (rest : IndexWalks buf limit q) : IndexWalks buf limit p

theorem parseEntry_lt {buf key value : Bytes} {limit p q : ℕ}
    (h : parseEntry buf limit p = .ok (some (key, value, q))) : p < q := by
  obtain ⟨⟨s, n⟩, h₁, h⟩ := Checked.bind_eq_ok h
  have hn := (varint32_bounds (ofOption_eq_ok h₁)).1
  dsimp only at h
  split at h
  · cases h
  obtain ⟨⟨keyLen, k⟩, -, h⟩ := Checked.bind_eq_ok h
  dsimp only at h
  split at h
  · cases h
  split at h
  · cases h
  obtain ⟨⟨valueLen, m⟩, -, h⟩ := Checked.bind_eq_ok h
  dsimp only at h
  split at h
  · cases h
  · cases h
    omega

/-- **The loop of `Open` over the index keeps to the buffer** exactly if the index walks. -/
theorem parseIndex_iff {buf : Bytes} {limit n p : ℕ} (hn : limit ≤ p + n) :
    (∃ es, parseIndex buf limit n p = .ok es) ↔ IndexWalks buf limit p := by
  induction n generalizing p with
  | zero => exact iff_of_true ⟨[], rfl⟩ (.done hn)
  | succ n ih =>
    rw [parseIndex]
    by_cases hp : p < limit
    · rw [if_neg (not_le.2 hp)]
      constructor
      · rintro ⟨es, h⟩
        obtain ⟨r, hr, h⟩ := Checked.bind_eq_ok h
        rcases r with - | ⟨key, handle, q⟩
        · exact .cut hp hr
        · dsimp only at h
          obtain ⟨⟨v, k⟩, hv, h⟩ := Checked.bind_eq_ok h
          obtain ⟨⟨w, m⟩, hw, h⟩ := Checked.bind_eq_ok h
          obtain ⟨rest, hrest, -⟩ := Checked.bind_eq_ok h
          have hlt := parseEntry_lt hr
          exact .entry hp hr ⟨v, k, w, m, ofOption_eq_ok hv, ofOption_eq_ok hw⟩
            ((ih (by omega)).1 ⟨rest, hrest⟩)
      · intro h
        cases h with
        | done h => omega
        | cut _ h => exact ⟨[], by rw [h]; rfl⟩
        | @entry _ q key handle _ h ends rest =>
          obtain ⟨v, k, w, m, hv, hw⟩ := ends
          have hlt := parseEntry_lt h
          obtain ⟨es, hes⟩ := (ih (by omega)).2 rest
          exact ⟨⟨key, v, w⟩ :: es, by
            simp only [h, hv, hw, hes, Checked.ofOption_some, bind, Except.bind, pure, Except.pure]⟩
    · rw [if_pos (not_lt.1 hp)]
      exact iff_of_true ⟨[], rfl⟩ (.done (not_lt.1 hp))

/-! ## `Get` -/

/-- An entry that lies in the buffer is parsed, or cut off by the limit. -/
theorem parseEntry_of_entryEnd {buf : Bytes} {p q : ℕ} (limit : ℕ) (h : entryEnd buf p = some q) :
    parseEntry buf limit p = .ok none ∨ ∃ key value, parseEntry buf limit p = .ok (some (key, value, q)) := by
  obtain ⟨s, n, keyLen, k, valueLen, m, h₁, h₂, h₃, rfl, -, -⟩ := entryEnd_eq_some h
  simp only [parseEntry, varint32At, h₁, h₂, h₃, Checked.ofOption_some, bind, Except.bind, pure, Except.pure]
  split
  · exact .inl rfl
  split
  · exact .inl rfl
  split
  · exact .inl rfl
  split
  · exact .inl rfl
  · exact .inr ⟨_, _, rfl⟩

/-- **The scan of `Get` keeps to a block that walks.** -/
theorem searchEntries_ok {block : Bytes} {p : ℕ} (hwalks : Walks block p) (h8 : 8 ≤ block.length)
    (lookupKey : Bytes) (n : ℕ) :
    ∃ r, searchEntries block lookupKey (MiniLSM.entriesEnd block) n p = .ok r := by
  have hlimit : walkLimit block = MiniLSM.entriesEnd block := if_pos h8
  induction hwalks generalizing n with
  | done h =>
    rw [hlimit] at h
    cases n with
    | zero => exact ⟨none, rfl⟩
    | succ n => exact ⟨none, by rw [searchEntries, if_pos h]; rfl⟩
  | @entry p q hp hq _ ih =>
    cases n with
    | zero => exact ⟨none, rfl⟩
    | succ n =>
      rw [hlimit] at hp
      rw [searchEntries, if_neg (not_le.2 hp)]
      rcases parseEntry_of_entryEnd (MiniLSM.entriesEnd block) hq with hnone | ⟨key, value, hsome⟩
      · exact ⟨none, by rw [hnone]; rfl⟩
      · rw [hsome]
        simp only [bind, Except.bind]
        split
        · exact ih n
        · split
          · exact ⟨some value, rfl⟩
          · exact ⟨none, rfl⟩
          · exact ih n

/-- **`Get` keeps to its buffer** when every block that can be read walks, and the filter has bits. -/
theorem get_ok {t : SSTable} (hsizes : Loadable t)
    (hfilter : (t.hasBloom && t.bloomFilter.dividesByZero) = false)
    (hwalks : ∀ e ∈ t.index, ∀ block, t.readBlock e.blockOffset e.blockSize = .ok block → Walks block 0)
    (k : Bytes) : ∃ r, t.get k = .ok r := by
  unfold SSTable.get
  rw [hfilter, if_neg Bool.false_ne_true]
  split
  · exact ⟨_, rfl⟩
  by_cases hne : t.index = []
  · exact ⟨_, by rw [if_pos hne]; rfl⟩
  have hlt : Laid.target t k < t.index.length := target_lt_length hne k
  have hmem : t.index.getD (Laid.target t k) ⟨[], 0, 0⟩ ∈ t.index := by
    rw [List.getD_eq_getElem?_getD, List.getElem?_eq_getElem hlt, Option.getD_some]
    exact List.getElem_mem hlt
  rw [if_neg hne]
  have hread := hwalks _ hmem
  rw [Laid.target] at hread
  simp only
  split
  · rename_i block hblock
    unfold binarySearchInBlock
    split
    · exact ⟨_, rfl⟩
    · rename_i h8
      split
      · exact ⟨_, rfl⟩
      · obtain ⟨r, hr⟩ := searchEntries_ok (hread block hblock) (not_lt.1 h8) (makeLookupKey k) block.length
        rw [hr]
        cases r with
        | none => exact ⟨_, rfl⟩
        | some value => exact ⟨_, rfl⟩
  · exact ⟨_, rfl⟩
  · -- a block that the string takes is read or gives a status
    rename_i f hf herr
    have hsize := hsizes _ hmem
    rw [Laid.target] at hsize
    rw [SSTable.readBlock, if_neg (not_le.2 hsize)] at herr
    split at herr
    · cases herr
    · cases herr
      exact absurd rfl (hf _)

/-! ## `Open` -/

/-- A file with a footer that `Open` goes on from. -/
def Footed (data : Bytes) : Prop := 48 ≤ data.length ∧ footerWord data 32 = SSTableBuilder.magic

/-- The first two numbers of a block end in it. -/
def FirstKeyEnds (block : Bytes) : Prop :=
  4 < block.length → ∃ s n, varint32Decode block = some (s, n) ∧
    (n < block.length → ∃ v k, varint32Decode (block.drop n) = some (v, k))

/-- **What `Open` reads lies in its buffers**: the entries of an index it takes, and the first key of
the block that the first of them names. And it can make the buffers. -/
def OpenReads (data : Bytes) : Prop :=
  Footed data → Takes (footerWord data 8).toNat ∧
    ∀ index, filePRead data (footerWord data 8).toNat (footerWord data 0).toNat = some index →
      8 ≤ index.length → crcMatches index = true →
        IndexWalks index (MiniLSM.entriesEnd index) 0 ∧ Takes (footerWord data 24).toNat ∧
        ∀ entries, parseIndex index (MiniLSM.entriesEnd index) index.length 0 = .ok entries →
          ∀ e ∈ entries.head?, Takes e.blockSize ∧
            ∀ block, filePRead data e.blockSize e.blockOffset = some block → FirstKeyEnds block

/-- The call returns: a value or a status. -/
def Checked.Returns {α : Type} (x : Checked α) : Prop := ∀ f, x = .error f → ∃ s, f = .status s

theorem Checked.returns_ok {α : Type} (a : α) : Checked.Returns (.ok a : Checked α) := by
  rintro f ⟨⟩

theorem Checked.returns_status {α : Type} (s : Status) : Checked.Returns (.error (.status s) : Checked α) := by
  rintro f ⟨⟩
  exact ⟨s, rfl⟩

theorem Checked.not_returns_lengthError {α : Type} : ¬Checked.Returns (.error .lengthError : Checked α) := by
  intro h
  obtain ⟨s, hs⟩ := h _ rfl
  cases hs

/-- A silent read in front has to succeed. -/
theorem Checked.Silent.returns_bind_iff {α β : Type} {x : Checked α} (hx : x.Silent) (f : α → Checked β) :
    (x >>= f).Returns ↔ ∃ a, x = .ok a ∧ (f a).Returns := by
  cases x with
  | ok a => exact ⟨fun h => ⟨a, rfl, h⟩, by rintro ⟨_, ⟨⟩, h⟩; exact h⟩
  | error e =>
    obtain rfl := hx e rfl
    refine iff_of_false (fun h => ?_) (by rintro ⟨_, ⟨⟩, -⟩)
    obtain ⟨s, hs⟩ := h _ rfl
    cases hs

/-- A throw in front is none. -/
theorem Checked.returns_ite_iff {α : Type} {size : ℕ} {x : Checked α} :
    Checked.Returns (if 2 ^ 63 ≤ size then throw .lengthError else x) ↔ Takes size ∧ x.Returns := by
  by_cases hsize : 2 ^ 63 ≤ size
  · rw [if_pos hsize]
    exact iff_of_false Checked.not_returns_lengthError fun h => absurd hsize (not_le.2 h.1)
  · rw [if_neg hsize, and_iff_right (show Takes size from not_le.1 hsize)]

theorem readFirstKey_iff (block : Bytes) : (∃ key, readFirstKey block = .ok key) ↔ FirstKeyEnds block := by
  rw [readFirstKey]
  constructor
  · rintro ⟨key, h⟩ h4
    rw [if_neg (not_le.2 h4)] at h
    obtain ⟨⟨s, n⟩, h₁, h⟩ := Checked.bind_eq_ok h
    refine ⟨s, n, by rw [← ofOption_eq_ok h₁, List.drop_zero], fun hn => ?_⟩
    dsimp only at h
    rw [if_neg (not_le.2 hn)] at h
    obtain ⟨⟨v, k⟩, h₂, -⟩ := Checked.bind_eq_ok h
    exact ⟨v, k, ofOption_eq_ok h₂⟩
  · intro h
    by_cases h4 : block.length ≤ 4
    · exact ⟨[], by rw [if_pos h4]; rfl⟩
    obtain ⟨s, n, h₁, hrest⟩ := h (not_le.1 h4)
    rw [if_neg h4, varint32At, List.drop_zero, h₁]
    simp only [Checked.ofOption_some, bind, Except.bind]
    by_cases hn : block.length ≤ n
    · exact ⟨[], by rw [if_pos hn]; rfl⟩
    obtain ⟨v, k, h₂⟩ := hrest (not_le.1 hn)
    rw [if_neg hn, varint32At, h₂]
    simp only [Checked.ofOption_some]
    split <;> exact ⟨_, rfl⟩

/-- The last part of `Open`. -/
theorem openBloom_returns_iff {size : ℕ} {filter : Option BloomFilter} {filtered : BloomFilter → SSTable}
    {bare : SSTable} : Checked.Returns (if 2 ^ 63 ≤ size then throw .lengthError
      else match filter with
        | some filter => pure (filtered filter)
        | none => pure bare) ↔ Takes size := by
  rw [Checked.returns_ite_iff]
  refine and_iff_left ?_
  cases filter <;> exact Checked.returns_ok _

/-- **`Open` returns** exactly if it can make its buffers and what it reads lies in them. -/
theorem openFile_iff (number : ℕ) (data : Bytes) : (openFile number data).Returns ↔ OpenReads data := by
  simp only [openFile, pure_bind, Checked.throw_bind]
  by_cases hfooted : Footed data
  case neg =>
    refine iff_of_true ?_ fun h => absurd h hfooted
    split
    · exact Checked.returns_status _
    · rename_i h48
      split
      · exact Checked.returns_status _
      · rename_i hmagic
        exact absurd ⟨not_lt.1 h48, not_not.1 hmagic⟩ hfooted
  have hmagic := hfooted.2
  unfold footerWord at hmagic
  rw [OpenReads, forall_prop_of_true hfooted, if_neg (not_lt.2 hfooted.1), if_neg (not_not.2 hmagic),
    Checked.returns_ite_iff]
  refine and_congr Iff.rfl ?_
  unfold footerWord
  cases hindex : filePRead data ((decodeFixed64 ((data.drop (data.length - 48)).drop 8)).getD 0).toNat
      ((decodeFixed64 ((data.drop (data.length - 48)).drop 0)).getD 0).toNat with
  | none => exact iff_of_true (Checked.returns_status _) fun index h => by cases h
  | some index =>
    simp only [Option.some.injEq, forall_eq']
    have hlen := (filePRead_eq_some hindex).2
    split
    · exact iff_of_true (Checked.returns_status _) fun h8 => by omega
    rename_i h8
    rw [forall_prop_of_true (by omega)]
    cases hcrc : crcMatches index with
    | false => exact iff_of_true (Checked.returns_status _) (by rintro ⟨⟩)
    | true =>
      simp only [Bool.not_true, Bool.false_eq_true, if_false, forall_const]
      have hlimit : MiniLSM.entriesEnd index ≤ 0 + index.length := by
        rw [Nat.zero_add]
        exact (Nat.sub_le _ _).trans (Nat.sub_le _ _)
      rw [(parseIndex_silent _ _ _ _).returns_bind_iff, ← parseIndex_iff hlimit]
      cases parseIndex index (MiniLSM.entriesEnd index) index.length 0 with
      | error f => exact iff_of_false (by rintro ⟨_, ⟨⟩, -⟩) (by rintro ⟨⟨_, ⟨⟩⟩, -⟩)
      | ok entries =>
        simp only [Except.ok.injEq, exists_eq_left', exists_eq', true_and, forall_eq']
        -- behind the index only the first key is read unchecked
        cases entries with
        | nil => exact openBloom_returns_iff.trans (iff_of_eq (by simp))
        | cons e es =>
          obtain ⟨last, hlast⟩ : ∃ last, (e :: es).getLast? = some last :=
            Option.isSome_iff_exists.1 (by rw [List.getLast?_isSome]; exact List.cons_ne_nil _ _)
          simp only [List.head?_cons, hlast, Option.mem_def, Option.some.injEq, forall_eq', SSTable.readBlock]
          by_cases hsize : 2 ^ 63 ≤ e.blockSize
          · rw [if_pos hsize]
            exact iff_of_false Checked.not_returns_lengthError fun h => absurd hsize (not_le.2 h.2.1)
          rw [if_neg hsize, and_iff_right (show Takes e.blockSize from not_le.1 hsize)]
          cases filePRead data e.blockSize e.blockOffset with
          | none => exact openBloom_returns_iff.trans (iff_of_eq (by simp))
          | some block =>
            simp only [Option.some.injEq, forall_eq', ← readFirstKey_iff]
            rw [(readFirstKey_silent block).returns_bind_iff]
            constructor
            · rintro ⟨key, hkey, hreturns⟩
              exact ⟨openBloom_returns_iff.1 hreturns, key, hkey⟩
            · rintro ⟨htakes, key, hkey⟩
              exact ⟨key, hkey, openBloom_returns_iff.2 htakes⟩

theorem footed_of_openFile {number : ℕ} {data : Bytes} {t : SSTable} (h : openFile number data = .ok t) :
    Footed data := by
  simp only [openFile, pure_bind, Checked.throw_bind] at h
  split at h
  · cases h
  rename_i h48
  split at h
  · cases h
  rename_i hmagic
  exact ⟨not_lt.1 h48, not_not.1 hmagic⟩

/-! ## The whole file -/

/-- **The file is read inside its buffers and none of them is larger than it**: `Open` gives a status
or a table, and on the table `Get` and every sequence of calls on an iterator keep to the blocks
they loaded. A filter that divides by zero stops `Get` before it reads. -/
structure Contained (number : ℕ) (data : Bytes) : Prop where
  opens : (openFile number data).Returns
  requests : ∀ n ∈ openRequests number data, n ≤ data.length
  loads : ∀ t, openFile number data = .ok t → ∀ e ∈ t.index, Takes e.blockSize ∧ e.blockSize ≤ data.length
  get : ∀ t, openFile number data = .ok t → (t.hasBloom && t.bloomFilter.dividesByZero) = false →
    ∀ k, ∃ r, t.get k = .ok r
  iterate : ∀ t, openFile number data = .ok t → ∀ cs, ∃ it, session t cs = .ok it

/-- **The file is laid out like a table**, as far as it is read: no size in it is larger than the file or
than `std::string` takes, what `Open` reads lies in the buffers, there is a block, and the blocks that an
iterator may load next walk. -/
structure Walkable (number : ℕ) (data : Bytes) : Prop where
  indexSize : Footed data → (footerWord data 8).toNat ≤ data.length
  opens : OpenReads data
  bloomSize : ∀ t, openFile number data = .ok t → (footerWord data 24).toNat ≤ data.length
  blockSize : ∀ t, openFile number data = .ok t → ∀ e ∈ t.index, Takes e.blockSize ∧ e.blockSize ≤ data.length
  blocks : ∀ t, openFile number data = .ok t → t.index ≠ [] ∧ Walks (loaded t [] 0) 0 ∧
    ∀ i buf, Visits t i buf → LoadsWalk t i buf

theorem requests_iff {number : ℕ} {data : Bytes}
    (hblocks : ∀ t, openFile number data = .ok t → ∀ e ∈ t.index, Takes e.blockSize ∧ e.blockSize ≤ data.length) :
    (∀ n ∈ openRequests number data, n ≤ data.length) ↔
      (Footed data → (footerWord data 8).toNat ≤ data.length) ∧
        ∀ t, openFile number data = .ok t → (footerWord data 24).toNat ≤ data.length := by
  by_cases hfooted : Footed data
  · have hfoot : ¬(data.length < 48 ∨ footerWord data 32 ≠ SSTableBuilder.magic) := by
      rintro (h | h)
      · exact absurd hfooted.1 (not_le.2 h)
      · exact h hfooted.2
    rw [openRequests, if_neg hfoot, List.forall_mem_cons]
    refine and_congr ⟨fun h _ => h, fun h => h hfooted⟩ ?_
    cases hopen : openFile number data with
    | error e => simp
    | ok t =>
      simp only [List.forall_mem_append, List.forall_mem_singleton, Except.ok.injEq]
      constructor
      · rintro ⟨-, h⟩ _ rfl
        exact h
      · refine fun h => ⟨fun n hn => ?_, h t rfl⟩
        obtain ⟨e, he, rfl⟩ := Option.map_eq_some_iff.1 (Option.mem_toList.1 hn)
        exact (hblocks t hopen e (List.mem_of_head? he)).2
  · have hfoot : data.length < 48 ∨ footerWord data 32 ≠ SSTableBuilder.magic := by
      by_contra h
      rw [not_or, not_lt, not_not] at h
      exact hfooted h
    rw [openRequests, if_pos hfoot]
    refine iff_of_true (fun n hn => absurd hn List.not_mem_nil) ⟨fun h => absurd h hfooted, fun t h => ?_⟩
    exact absurd (footed_of_openFile h) hfooted

theorem Contained.walkable {number : ℕ} {data : Bytes} (h : Contained number data) : Walkable number data := by
  obtain ⟨hindex, hbloom⟩ := (requests_iff h.loads).1 h.requests
  exact {
    indexSize := hindex
    opens := (openFile_iff number data).1 h.opens
    bloomSize := hbloom
    blockSize := h.loads
    blocks := fun t ht => (session_ok_iff fun e he => (h.loads t ht e he).1).1 (h.iterate t ht) }

theorem Walkable.contained {number : ℕ} {data : Bytes} (h : Walkable number data) : Contained number data := by
  have hsizes : ∀ t, openFile number data = .ok t → Loadable t := fun t ht e he => (h.blockSize t ht e he).1
  exact {
    opens := (openFile_iff number data).2 h.opens
    requests := (requests_iff h.blockSize).2 ⟨h.indexSize, h.bloomSize⟩
    loads := h.blockSize
    get := fun t ht hfilter => get_ok (hsizes t ht) hfilter fun e he block hblock => by
      -- an iterator comes to every block, and one that Get can read it reads the same
      obtain ⟨i, hi, rfl⟩ := List.mem_iff_getElem.1 he
      obtain ⟨old, hwalks⟩ := walks_of_loadsWalk (h.blocks t ht).2.1 (h.blocks t ht).2.2 hi
      rwa [loaded, List.getD_eq_getElem?_getD, List.getElem?_eq_getElem hi, Option.getD_some,
        readBlockInto_eq hblock] at hwalks
    iterate := fun t ht => (session_ok_iff (hsizes t ht)).2 (h.blocks t ht) }

/-- **A file is read inside its buffers** exactly if it is laid out like a table. -/
theorem contained_iff (number : ℕ) (data : Bytes) : Contained number data ↔ Walkable number data :=
  ⟨Contained.walkable, Walkable.contained⟩

/-- A file that the builder wrote, with one byte of its block changed: the key is said to be 127 bytes
long. `Open` takes it and a fresh iterator reads the key. -/
theorem long_key_escapes : ∃ t, openFile 1 ((SSTableBuilder.build [([97], [1])]).set 1 0x7f) = .ok t ∧
    session t [] = .error .outOfBounds ∧
    ¬Contained 1 ((SSTableBuilder.build [([97], [1])]).set 1 0x7f) := by
  have hrun : ((openFile 1 ((SSTableBuilder.build [([97], [1])]).set 1 0x7f)).map fun t =>
      (session t []).map fun _ => ()) = .ok (.error .outOfBounds) := by decide +kernel
  cases hopen : openFile 1 ((SSTableBuilder.build [([97], [1])]).set 1 0x7f) with
  | error e =>
    rw [hopen] at hrun
    cases hrun
  | ok t =>
    rw [hopen, Except.map, Except.ok.injEq] at hrun
    have hsession : session t [] = .error .outOfBounds := by
      cases hs : session t [] with
      | ok it =>
        rw [hs] at hrun
        cases hrun
      | error e =>
        rw [hs, Except.map, Except.error.injEq] at hrun
        rw [hrun]
    refine ⟨t, rfl, hsession, fun h => ?_⟩
    obtain ⟨it, hit⟩ := h.iterate t hopen []
    cases hsession.symm.trans hit

/-! ## What the builder writes -/

/-- An entry where the builder put it. -/
theorem entryEnd_of_entryAt {buf key value : Bytes} {p s a b : ℕ} (h : EntryAt buf p key value s a b) :
    entryEnd buf p = some (p + (encodeEntry key value).length) := by
  have hin := h.inside
  have hsize := h.size
  simp only [entryEnd, ofOption_eq_ok h.shared, ofOption_eq_ok h.keyLen, ofOption_eq_ok h.valueLen,
    Option.bind_eq_bind, Option.bind_some]
  rw [if_neg (by omega), Option.some.injEq]
  omega

/-- **A block that the builder wrote walks.** -/
theorem DataBlock.Bounded.walks {b : DataBlock} (hb : b.Bounded) : Walks b.bytes 0 := by
  have hlimit : walkLimit b.bytes = (entriesBytes b.entries).length := by
    have hlen := b.bytes_length
    rw [walkLimit, if_pos (by omega)]
    exact entriesEnd_blockContents (by have := hb.restarts; omega) _
  -- from behind the entries `xs` on, by induction on those that are left
  have hfrom : ∀ ys xs, b.entries = xs ++ ys → Walks b.bytes (entriesBytes xs).length := by
    intro ys
    induction ys with
    | nil =>
      intro xs hes
      rw [List.append_nil] at hes
      exact .done (by rw [hlimit, hes])
    | cons e ys ih =>
      intro xs hes
      obtain ⟨s, a, c, hentry⟩ := SSTableIterator.entryAt_block hb hes
      have hcons := SSTableIterator.entriesBytes_cons_length xs ys e
      rw [← hes, ← hlimit] at hcons
      have hsize := hentry.size
      have hpos := hentry.keyLen_pos
      have hnext : (entriesBytes xs).length + (encodeEntry e.1 e.2).length =
          (entriesBytes (xs ++ [e])).length := by
        simp only [entriesBytes, List.flatMap_append, List.flatMap_cons, List.flatMap_nil, List.append_nil,
          List.length_append]
      refine .entry (by omega) (entryEnd_of_entryAt hentry) ?_
      rw [hnext]
      exact ih (xs ++ [e]) (by rw [hes, List.append_assoc]; rfl)
  exact hfrom b.entries [] rfl

/-- What an iterator loads from a table over blocks. -/
theorem Spread.loaded {t : SSTable} {keys : List Bytes} {blocks : List DataBlock} (ht : Spread t keys blocks)
    {i : ℕ} (hi : i < t.index.length) :
    ∃ b ∈ blocks, (Takes b.bytes.length ∧ b.bytes.length ≤ t.data.length) ∧
      (t.index.getD i ⟨[], 0, 0⟩).blockSize = b.bytes.length ∧
      ∀ old, SSTableIterator.loaded t old i = b.bytes := by
  have hlt : i < blocks.length := by rwa [ht.index_eq, List.length_map, infosFrom_length] at hi
  obtain ⟨pre, b, post, hsplit, rfl⟩ : ∃ pre b post, blocks = pre ++ b :: post ∧ pre.length = i :=
    ⟨blocks.take i, blocks[i], blocks.drop (i + 1), by rw [List.cons_getElem_drop_succ, List.take_append_drop],
      List.length_take_of_le hlt.le⟩
  obtain ⟨hentry, hread, -⟩ := ht.block_at hsplit
  simp only [SSTableIterator.loaded, List.getD_eq_getElem?_getD, hentry, Option.getD_some]
  obtain ⟨htakes, hpread⟩ := readBlock_iff.1 hread
  have hle : b.bytes.length ≤ t.data.length := by
    have hlen := congrArg List.length (filePRead_eq_some hpread).1
    rw [List.length_take, List.length_drop] at hlen
    omega
  exact ⟨b, by rw [hsplit]; simp, ⟨htakes, hle⟩, rfl, readBlockInto_eq hread⟩

/-- The sizes in the footer of a file of blocks. -/
theorem footerWord_fileBytes {blocks : List DataBlock} {keys : List Bytes}
    (hsize : (fileBytes blocks keys).length < 2 ^ 63) :
    (footerWord (fileBytes blocks keys) 8).toNat ≤ (fileBytes blocks keys).length ∧
      (footerWord (fileBytes blocks keys) 24).toNat ≤ (fileBytes blocks keys).length := by
  set I := SSTableBuilder.indexBlock (infosFrom 0 blocks)
  set L := SSTableBuilder.bloomBlock keys
  have hfile : fileBytes blocks keys = partsBytes (blocksBytes blocks) I L := rfl
  have hlen : (partsBytes (blocksBytes blocks) I L).length =
      (blocksBytes blocks).length + (I.length + (L.length + 48)) := by
    simp only [partsBytes, List.length_append]
    rw [(footer_drop _ _ _ _).1]
  rw [hfile] at hsize ⊢
  obtain ⟨-, -, h8, -, h24, -⟩ := partsBytes_field (B := blocksBytes blocks) (I := I) (L := L) (by omega)
  rw [footerWord, footerWord, h8, h24]
  omega

/-- **What the builder writes of at least one entry** is laid out like a table. -/
theorem walkable_of_written {pairs : List (Bytes × Bytes)} (h : Written pairs)
    (hne : pairs ≠ []) (number : ℕ) : Walkable number (SSTableBuilder.build pairs) := by
  obtain ⟨blocks, -, hread, hcut, -, hbuild, -, hsize⟩ := h.layout
  obtain ⟨hopen, ht⟩ := openFile_spread (fun b hb => hread.bounded b hb) hsize number
  rw [hbuild]
  obtain ⟨hindex, hbloom⟩ := footerWord_fileBytes hsize
  set t := tableOf number blocks (pairs.map Prod.fst)
  have honly : ∀ t', openFile number (fileBytes blocks (pairs.map Prod.fst)) = .ok t' → t' = t :=
    fun t' ht' => Except.ok.inj (ht'.symm.trans hopen)
  have hindexne : t.index ≠ [] := by
    intro hnil
    have hlen := congrArg List.length hnil
    rw [ht.index_eq, List.length_map, infosFrom_length, List.length_nil, List.length_eq_zero_iff] at hlen
    have hcount := congrArg List.length (flatMap_entries_of_cut hcut)
    rw [hlen, tableEntries, entriesFrom_length, List.flatMap_nil, List.length_nil] at hcount
    exact hne (List.length_eq_zero_iff.1 hcount.symm)
  -- what is loaded for a block is the block, whatever the buffer held
  have hwalks : ∀ i < t.index.length, Walks (SSTableIterator.loaded t [] i) 0 := by
    intro i hi
    obtain ⟨b, hb, -, -, hload⟩ := ht.loaded hi
    rw [hload]
    exact (hread.bounded b hb).walks
  have hwhole : ∀ i < t.index.length, ∀ old, SSTableIterator.loaded t old i = SSTableIterator.loaded t [] i := by
    intro i hi old
    obtain ⟨b, -, -, -, hload⟩ := ht.loaded hi
    rw [hload, hload]
  have hsizes : ∀ e ∈ t.index, Takes e.blockSize ∧ e.blockSize ≤ t.data.length := by
    intro e he
    obtain ⟨i, hi, rfl⟩ := List.mem_iff_getElem.1 he
    obtain ⟨b, -, hle, hsize, -⟩ := ht.loaded hi
    rw [List.getD_eq_getElem?_getD, List.getElem?_eq_getElem hi, Option.getD_some] at hsize
    rw [hsize]
    exact hle
  have hloadable : Loadable t := fun e he => (hsizes e he).1
  exact {
    indexSize := fun _ => hindex
    opens := (openFile_iff number _).1 (by rw [hopen]; exact Checked.returns_ok t)
    bloomSize := fun _ _ => hbloom
    blockSize := fun t' ht' => by
      obtain rfl := honly t' ht'
      exact hsizes
    blocks := fun t' ht' => by
      obtain rfl := honly t' ht'
      exact (session_ok_iff hloadable).1 ((session_ok_iff_of_whole hloadable hwhole).2 ⟨hindexne, hwalks⟩) }

/-- **What the builder writes of at least one entry** is read inside its buffers. -/
theorem contained_of_written {pairs : List (Bytes × Bytes)} (h : Written pairs) (hne : pairs ≠ [])
    (number : ℕ) : Contained number (SSTableBuilder.build pairs) :=
  (walkable_of_written h hne number).contained

end MiniLSM
