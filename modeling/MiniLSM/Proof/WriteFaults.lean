import MiniLSM.Proof.RoundTrip

/-!
# Writes that fail

`FlushBlock` returns nothing: it looks at its first write alone and keeps the block when that one
fails, with whatever of it is in the file already. Offsets are counted as if every byte were there.

* `finish_reliable`: the OK of `Finish` means that all entries can be read, as long as each
  `FlushBlock` of `Add` puts its block whole or not at all and that of `Finish` puts it whole.
* `finish_loses`: a table that opens and has lost its only entry behind an OK.
-/

namespace MiniLSM

open SSTableBuilder

namespace SSTableBuilder

/-! ## What the steps of a run need -/

/-- `FlushBlock` puts the whole block, in a first write that is short enough to succeed:
`FdWriteFull` fails on `2 ^ 32` bytes or more. -/
structure Flushes (b : SSTableBuilder) : Prop extends b.Puts where
  short : b.block.length < 2 ^ 32

/-- `FlushBlock` fails before a byte is in the file, and keeps the block. -/
def Keeps (b : SSTableBuilder) : Prop := b.fd.faults b.fd.writes = some 0

/-- The test of `Add`: the entry would take the block over its size. -/
def Overflows (b : SSTableBuilder) (userKey value : Bytes) : Prop :=
  let ik := makeInternalKey userKey (b.builderSeq + 1) (typeOf value)
  blockSize < b.block.length + (encodeEntry ik value).length ∧ 0 < b.entryCountInBlock

/-- Whenever an `Add` flushes, the block is put whole or kept. -/
def AddsHarmless (b : SSTableBuilder) : List (Bytes × Bytes) → Prop
  | [] => True
  | (userKey, value) :: ps =>
    (b.Overflows userKey value → b.Flushes ∨ b.Keeps) ∧ (b.add userKey value).AddsHarmless ps

/-- The builder behind the flush of `Finish`. -/
def flushRest (b : SSTableBuilder) : SSTableBuilder :=
  if 0 < b.entryCountInBlock then b.flushBlock else b

/-- One of the writes of index, Bloom block and footer fails. -/
def LastFails (b : SSTableBuilder) : Prop :=
  ∃ j < 3, b.flushRest.fd.faults (b.flushRest.fd.writes + j) ≠ none

/-- The writes of a run do no harm: those of `Add` put whole blocks or keep them, that of `Finish`
puts the rest, and index and Bloom block are short enough to be written. -/
structure Harmless (pairs : List (Bytes × Bytes)) (faults : ℕ → Option ℕ) : Prop where
  adds : (new { faults := faults }).AddsHarmless pairs
  rest : 0 < ((new { faults := faults }).addAll pairs).entryCountInBlock →
    ((new { faults := faults }).addAll pairs).Flushes
  index : (indexBlock ((new { faults := faults }).addAll pairs).flushRest.blockInfos).length < 2 ^ 32
  bloom : (bloomBlock (pairs.map Prod.fst)).length < 2 ^ 32

/-- **What an OK of `Finish` is to mean**: the file opens and its iterator yields every added pair,
in order. -/
def Reliable (pairs : List (Bytes × Bytes)) (faults : ℕ → Option ℕ) (number : ℕ) : Prop :=
  let r := ((new { faults := faults }).addAll pairs).finish
  r.1.isOk → ∃ t, SSTable.openFile number r.2.fd.file = .ok t ∧
    ∃ it, SSTableIterator.new t = .ok it ∧ Yields it (numbered pairs)

/-! ## The steps -/

/-- The builder has lost nothing, and its blocks fit in one write each. -/
structure Kept (b : SSTableBuilder) (done : List DataBlock) (cur : List (Bytes × Bytes)) : Prop
    extends b.Whole done cur where
  sized : ∀ d ∈ done, Sized d

section

variable {b : SSTableBuilder} {done : List DataBlock} {cur : List (Bytes × Bytes)}

/-- A block that is put whole goes behind the others. -/
theorem Kept.flush (h : b.Kept done cur) (hcur : cur ≠ []) (hf : b.Flushes) :
    b.flushBlock.Kept (done ++ [⟨cur, b.restartOffsets⟩]) [] ∧
      b.flushBlock.keys = b.keys ∧ b.flushBlock.builderSeq = b.builderSeq ∧
      b.flushBlock.finished = b.finished ∧ b.flushBlock.fd.faults = b.fd.faults := by
  obtain ⟨hw, hrest⟩ := h.toWhole.flush hcur hf.toPuts
  refine ⟨⟨hw, fun d hd => ?_⟩, hrest⟩
  rcases List.mem_append.1 hd with hd | hd
  · exact h.sized d hd
  · obtain rfl := List.mem_singleton.1 hd
    exact ⟨hcur, h.restarts, by rw [← h.block]; exact hf.short⟩

/-- A block that is kept stays the current one. -/
theorem Kept.keep (h : b.Kept done cur) (hcur : cur ≠ []) (hk : b.Keeps) :
    b.flushBlock.Kept done cur ∧
      b.flushBlock.keys = b.keys ∧ b.flushBlock.builderSeq = b.builderSeq ∧
      b.flushBlock.finished = b.finished ∧ b.flushBlock.fd.faults = b.fd.faults := by
  have hwrite : b.fd.writeFull b.block = (false, { b.fd with writes := b.fd.writes + 1 }) := by
    rw [Fd.writeFull, if_neg (h.block_ne hcur), hk]
    simp
  have hflush : b.flushBlock = { b with fd := { b.fd with writes := b.fd.writes + 1 } } := by
    simp only [flushBlock, h.count_ne hcur, hwrite, if_false, Bool.not_false, if_true]
  rw [hflush]
  exact ⟨⟨⟨h.file, h.size, h.infos, h.block, h.count, h.last, h.restarts⟩, h.sized⟩, rfl, rfl, rfl, rfl⟩

/-- **`Add` loses nothing** when its flush puts the block or keeps it. -/
theorem Kept.add (h : b.Kept done cur) (u v : Bytes)
    (hsafe : b.Overflows u v → b.Flushes ∨ b.Keeps) :
    (∃ done' cur', (b.add u v).Kept done' cur' ∧ done'.flatMap DataBlock.entries ++ cur' =
      done.flatMap DataBlock.entries ++ cur ++ [(makeInternalKey u (b.builderSeq + 1) (typeOf v), v)]) ∧
      (b.add u v).keys = b.keys ++ [u] ∧ (b.add u v).builderSeq = b.builderSeq + 1 ∧
      (b.add u v).finished = b.finished ∧ (b.add u v).fd.faults = b.fd.faults := by
  set ik := makeInternalKey u (b.builderSeq + 1) (typeOf v) with hik
  have hb : { b with builderSeq := b.builderSeq + 1 }.Kept done cur :=
    ⟨⟨h.file, h.size, h.infos, h.block, h.count, h.last, h.restarts⟩, h.sized⟩
  have happend : ∀ {c : SSTableBuilder} {done' : List DataBlock} {cur' : List (Bytes × Bytes)},
      c.Kept done' cur' → (c.appendEntry ik u v).Kept done' (cur' ++ [(ik, v)]) :=
    fun hc => ⟨hc.toWhole.append ik u v, hc.sized⟩
  unfold SSTableBuilder.add
  simp only [← hik]
  split
  · rename_i hfull
    have hcur : cur ≠ [] := by
      rintro rfl
      rw [h.count] at hfull
      exact absurd hfull.2 (by simp)
    have hover : b.Overflows u v := by
      refine ⟨?_, hfull.2⟩
      rw [← hik, encodeEntry_length]
      exact hfull.1
    rcases hsafe hover with hf | hk
    · obtain ⟨hst, hkeys, hseq, hfin, hfaults⟩ := hb.flush hcur ⟨⟨hf.entries, hf.rest⟩, hf.short⟩
      refine ⟨⟨_, _, happend hst, by simp⟩, ?_, ?_, hfin, hfaults⟩
      · simp only [appendEntry, hkeys]
      · simp only [appendEntry, hseq]
    · obtain ⟨hst, hkeys, hseq, hfin, hfaults⟩ := hb.keep hcur hk
      refine ⟨⟨_, _, happend hst, by simp⟩, ?_, ?_, hfin, hfaults⟩
      · simp only [appendEntry, hkeys]
      · simp only [appendEntry, hseq]
  · exact ⟨⟨_, _, happend hb, by simp⟩, rfl, rfl, rfl, rfl⟩

/-- **A run of `Add`s loses nothing.** -/
theorem Kept.addAll (h : b.Kept done cur) {pairs : List (Bytes × Bytes)} (hsafe : b.AddsHarmless pairs) :
    (∃ done' cur', (b.addAll pairs).Kept done' cur' ∧ done'.flatMap DataBlock.entries ++ cur' =
      done.flatMap DataBlock.entries ++ cur ++ entriesFrom b.builderSeq pairs) ∧
      (b.addAll pairs).keys = b.keys ++ pairs.map Prod.fst ∧
      (b.addAll pairs).finished = b.finished ∧ (b.addAll pairs).fd.faults = b.fd.faults := by
  induction pairs generalizing b done cur with
  | nil => exact ⟨⟨done, cur, h, by simp [entriesFrom]⟩, by simp [SSTableBuilder.addAll], rfl, rfl⟩
  | cons p ps ih =>
    obtain ⟨u, v⟩ := p
    obtain ⟨⟨done₁, cur₁, h₁, hes₁⟩, hkeys₁, hseq₁, hfin₁, hfaults₁⟩ := h.add u v hsafe.1
    obtain ⟨⟨done₂, cur₂, h₂, hes₂⟩, hkeys₂, hfin₂, hfaults₂⟩ := ih h₁ hsafe.2
    refine ⟨⟨done₂, cur₂, h₂, ?_⟩, ?_, hfin₂.trans hfin₁, hfaults₂.trans hfaults₁⟩
    · rw [hes₂, hes₁, hseq₁, entriesFrom, List.append_assoc, List.singleton_append]
    · rw [SSTableBuilder.addAll, List.foldl_cons]
      rw [SSTableBuilder.addAll] at hkeys₂
      rw [hkeys₂, hkeys₁, List.map_cons, List.append_assoc, List.singleton_append]

/-- The flush of `Finish` puts the rest. -/
theorem Kept.flushRest (h : b.Kept done cur) (hrest : 0 < b.entryCountInBlock → b.Flushes) :
    ∃ blocks, b.flushRest.Kept blocks [] ∧
      blocks.flatMap DataBlock.entries = done.flatMap DataBlock.entries ++ cur ∧
      b.flushRest.keys = b.keys ∧ b.flushRest.fd.faults = b.fd.faults := by
  unfold SSTableBuilder.flushRest
  split
  · rename_i hpos
    have hcur : cur ≠ [] := by
      rintro rfl
      rw [h.count] at hpos
      exact absurd hpos (by simp)
    obtain ⟨hf, hkeys, -, -, hfaults⟩ := h.flush hcur (hrest hpos)
    exact ⟨_, hf, by simp, hkeys, hfaults⟩
  · rename_i hpos
    have hcur : cur = [] := by
      rw [h.count] at hpos
      exact List.length_eq_zero_iff.1 (by omega)
    subst hcur
    exact ⟨done, h, by simp, rfl, rfl⟩

/-! ## `Finish` -/

theorem flushRest_finished (b : SSTableBuilder) :
    { b with finished := true }.flushRest = { b.flushRest with finished := true } := by
  unfold SSTableBuilder.flushRest
  split
  · simp only [flushBlock]
    split
    · rfl
    · cases (b.fd.writeFull b.block).1 <;> rfl
  · rfl

theorem flushBlock_finished (b : SSTableBuilder) : b.flushBlock.finished = b.finished := by
  simp only [flushBlock]
  split
  · rfl
  · cases (b.fd.writeFull b.block).1 <;> rfl

theorem addAll_finished (b : SSTableBuilder) (pairs : List (Bytes × Bytes)) :
    (b.addAll pairs).finished = b.finished := by
  induction pairs generalizing b with
  | nil => rfl
  | cons p ps ih =>
    rw [SSTableBuilder.addAll, List.foldl_cons]
    refine (ih _).trans ?_
    simp only [SSTableBuilder.add]
    split
    · exact flushBlock_finished _
    · rfl

/-- A write that returns true has put its bytes. -/
theorem Fd.writeFull_true {fd : Fd} {buf : Bytes} (hne : buf ≠ []) (h : (fd.writeFull buf).1 = true) :
    fd.faults fd.writes = none ∧
      (fd.writeFull buf).2 = { fd with file := fd.file ++ buf, writes := fd.writes + 1 } := by
  rw [Fd.writeFull, if_neg hne] at h ⊢
  cases hf : fd.faults fd.writes with
  | none => exact ⟨rfl, rfl⟩
  | some n => simp [hf] at h

/-- **Behind an OK** index, Bloom block and footer are in the file, whatever stands before them. -/
theorem finish_ok (hfin : b.finished = false) (hok : b.finish.1.isOk = true) :
    ¬b.LastFails ∧ b.finish.2.fd.file = b.flushRest.fd.file ++
      (indexBlock b.flushRest.blockInfos ++ (bloomBlock b.flushRest.keys ++
        footer b.flushRest.fileSize (indexBlock b.flushRest.blockInfos).length
          (b.flushRest.fileSize + (indexBlock b.flushRest.blockInfos).length)
          (bloomBlock b.flushRest.keys).length)) := by
  have hrest : (if 0 < b.entryCountInBlock then { b with finished := true }.flushBlock
      else { b with finished := true }) = { b.flushRest with finished := true } :=
    flushRest_finished b
  have hindex : indexBlock b.flushRest.blockInfos ≠ [] :=
    List.ne_nil_of_length_pos (by have := indexBlock_length b.flushRest.blockInfos; omega)
  have hbloom : bloomBlock b.flushRest.keys ≠ [] :=
    List.ne_nil_of_length_pos (by rw [bloomBlock, List.length_append, encodeFixed32_length]; omega)
  have hfooter : ∀ i j k l, footer i j k l ≠ [] := fun i j k l =>
    List.ne_nil_of_length_pos (by rw [show (footer i j k l).length = 48 from rfl]; omega)
  unfold finish at hok ⊢
  simp only [hfin, Bool.false_eq_true, if_false, hrest] at hok ⊢
  unfold LastFails
  generalize b.flushRest = c at *
  -- the three writes, each of which the status depends on
  cases h₁ : (c.fd.writeFull (indexBlock c.blockInfos)).1 with
  | false => simp [h₁, Status.ioError, Status.isOk] at hok
  | true =>
    obtain ⟨hf₁, hw₁⟩ := Fd.writeFull_true hindex h₁
    simp only [h₁, hw₁, Bool.not_true, Bool.false_eq_true, if_false] at hok ⊢
    set fd₁ : Fd := { c.fd with file := c.fd.file ++ indexBlock c.blockInfos, writes := c.fd.writes + 1 }
    cases h₂ : (fd₁.writeFull (bloomBlock c.keys)).1 with
    | false => simp [h₂, Status.ioError, Status.isOk] at hok
    | true =>
      obtain ⟨hf₂, hw₂⟩ := Fd.writeFull_true hbloom h₂
      simp only [h₂, hw₂, Bool.not_true, Bool.false_eq_true, if_false] at hok ⊢
      set fd₂ : Fd := { fd₁ with file := fd₁.file ++ bloomBlock c.keys, writes := fd₁.writes + 1 }
      set F := footer c.fileSize (indexBlock c.blockInfos).length
        (c.fileSize + (indexBlock c.blockInfos).length) (bloomBlock c.keys).length with hF
      cases h₃ : (fd₂.writeFull F).1 with
      | false => simp [h₃, Status.ioError, Status.isOk] at hok
      | true =>
        obtain ⟨hf₃, hw₃⟩ := Fd.writeFull_true (hfooter _ _ _ _) h₃
        simp only [Bool.not_true, Bool.false_eq_true, if_false]
        refine ⟨?_, by rw [hw₃]; simp [fd₂, fd₁, hF]⟩
        rintro ⟨j, hj, hbad⟩
        obtain rfl | rfl | rfl : j = 0 ∨ j = 1 ∨ j = 2 := by omega
        · exact hbad hf₁
        · exact hbad hf₂
        · exact hbad hf₃

end

/-! ## Runs -/

theorem new_kept (faults : ℕ → Option ℕ) : (new { faults := faults }).Kept [] [] :=
  ⟨⟨rfl, rfl, rfl, rfl, rfl, fun h => absurd rfl h, rfl⟩, by simp⟩

/-- **When the OK of `Finish` can be relied on**: in every run whose writes do no harm, and in every
run where `Finish` is told of a failure. -/
theorem finish_reliable (pairs : List (Bytes × Bytes)) (faults : ℕ → Option ℕ) (number : ℕ)
    (h : Harmless pairs faults ∨ ((new { faults := faults }).addAll pairs).LastFails) :
    Reliable pairs faults number := by
  intro hok
  set b := (new { faults := faults }).addAll pairs with hb
  obtain ⟨hlast, hfile⟩ := finish_ok (addAll_finished _ pairs) hok
  have hsafe := h.resolve_right hlast
  obtain ⟨⟨done, cur, hkept, hes⟩, hkeys, -, -⟩ := (new_kept faults).addAll hsafe.adds
  obtain ⟨blocks, hrest, hblocks, hkeys', -⟩ := hkept.flushRest hsafe.rest
  have hkeys'' : b.flushRest.keys = pairs.map Prod.fst := by
    rw [hkeys', hkeys]
    rfl
  have hbytes : b.finish.2.fd.file = fileBytes blocks (pairs.map Prod.fst) := by
    rw [hfile, hrest.file, hrest.infos, hrest.size, hkeys'']
    rfl
  have hindex := hsafe.index
  rw [hrest.infos] at hindex
  obtain ⟨hopen, hspread⟩ := openFile_spread (fun d hd => (hrest.sized d hd).bounded)
    (length_fileBytes_lt hrest.sized hindex hsafe.bloom) number
  have hentries : blocks.flatMap DataBlock.entries = numbered pairs := by
    rw [hblocks, hes, ← tableEntries_eq_numbered]
    rfl
  obtain ⟨it, hnew, -, hy⟩ := SSTableIterator.seekToFirst_spread hspread
    (show ({ table := tableOf number blocks (pairs.map Prod.fst) } : SSTableIterator).table = _ from rfl)
  rw [hentries] at hy
  exact ⟨_, by rw [hbytes]; exact hopen, it, hnew, hy⟩

/-- Fails at write `i` with nothing in the file, and at no other. -/
def failsAt (i : ℕ) : ℕ → Option ℕ := fun j => if j = i then some 0 else none

/-- The first block is kept when its write fails, and is written with the next one. -/
theorem finish_reliable_kept : Reliable [([97], List.replicate 4090 0), ([98], [1])] (failsAt 0) 1 := by
  have hadds : (new { faults := failsAt 0 }).AddsHarmless [([97], List.replicate 4090 0), ([98], [1])] := by
    refine ⟨fun h => absurd h.2 (by decide), fun _ => .inr (by unfold Keeps; decide +kernel), trivial⟩
  obtain ⟨-, -, -, hfaults⟩ := (new_kept (failsAt 0)).addAll hadds
  have hwrites : ((new { faults := failsAt 0 }).addAll
      [([97], List.replicate 4090 0), ([98], [1])]).fd.writes = 1 := by decide +kernel
  refine finish_reliable _ _ 1 (.inl ⟨hadds, fun _ => ⟨⟨?_, ?_⟩, by decide +kernel⟩, by decide +kernel,
    by decide +kernel⟩)
  · rw [hfaults, hwrites]
    rfl
  · intro j _ n hn
    rw [hfaults, hwrites, show (new { faults := failsAt 0 }).fd.faults (1 + 1 + j) = none by
      simp [new, failsAt]] at hn
    cases hn

/-- The only block is not written: the table opens, and it is empty. Or the CRC of the block is not
written: the index is not found where the footer says. -/
theorem finish_loses :
    (((new { faults := failsAt 0 }).addAll [([97], [1])]).finish.1 = .OK ∧
      (SSTable.openFile 1 ((new { faults := failsAt 0 }).addAll [([97], [1])]).finish.2.fd.file).map
        SSTable.index = .ok [] ∧ ¬Reliable [([97], [1])] (failsAt 0) 1) ∧
    ((new { faults := failsAt 3 }).addAll [([97], [1])]).finish.1 = .OK ∧
      SSTable.openFile 1 ((new { faults := failsAt 3 }).addAll [([97], [1])]).finish.2.fd.file =
        .error (.status (.corruption "SSTable::Open: index block CRC mismatch")) ∧
      ¬Reliable [([97], [1])] (failsAt 3) 1 := by
  have hstatus : ((new { faults := failsAt 0 }).addAll [([97], [1])]).finish.1 = .OK := by decide +kernel
  have hstatus' : ((new { faults := failsAt 3 }).addAll [([97], [1])]).finish.1 = .OK := by decide +kernel
  have hindex : (SSTable.openFile 1 ((new { faults := failsAt 0 }).addAll [([97], [1])]).finish.2.fd.file).map
      SSTable.index = .ok [] := by decide +kernel
  have hopen : SSTable.openFile 1 ((new { faults := failsAt 3 }).addAll [([97], [1])]).finish.2.fd.file =
      .error (.status (.corruption "SSTable::Open: index block CRC mismatch")) := by decide +kernel
  refine ⟨⟨hstatus, hindex, fun h => ?_⟩, hstatus', hopen, fun h => ?_⟩
  · obtain ⟨t, ht, it, hnew, hy⟩ := h (by rw [hstatus]; rfl)
    rw [ht] at hindex
    have hempty : t.index = [] := Except.ok.inj hindex
    rw [SSTableIterator.new, SSTableIterator.seekToFirst, if_pos hempty] at hnew
    cases hnew
    exact Bool.noConfusion hy.1
  · obtain ⟨t, ht, -⟩ := h (by rw [hstatus']; rfl)
    rw [hopen] at ht
    cases ht

end SSTableBuilder

end MiniLSM
