import MiniLSM.Proof.Iterator
import MiniLSM.Spec.DB

/-!
# The files that a compaction writes

* `fillOutput_spec`: an output takes the next entries with a value, until the blocks written
  reach `maxOutputSize`.
* `fileSize_le`, `length_le_of_fileSize`: what the size of the blocks written says of the
  entries, and the other way round.
* `output_table`: the table that `Open` makes of an output holds what the output took.
-/

namespace MiniLSM

open DB

/-! ## Tables that can be read -/

/-- `t` is a table over its own entries. -/
def SSTable.Sound (t : SSTable) : Prop := ∃ blocks, Holds t t.pairs blocks

theorem Holds.sound {t : SSTable} {ps : List (Bytes × Bytes)} {blocks : List DataBlock}
    (h : Holds t ps blocks) : t.Sound := ⟨blocks, by rwa [h.pairs_eq]⟩

/-- `t` is a table that was built of some pairs, however many they are. -/
def SSTable.Built (t : SSTable) : Prop := ∃ blocks, Laid t t.pairs blocks

theorem SSTable.Sound.built {t : SSTable} (h : t.Sound) : t.Built := by
  obtain ⟨blocks, hholds⟩ := h
  exact ⟨blocks, hholds.toLaid⟩

theorem Laid.built {t : SSTable} {ps : List (Bytes × Bytes)} {blocks : List DataBlock}
    (h : Laid t ps blocks) : t.Built := ⟨blocks, by rwa [h.pairs_eq]⟩

/-- The table that `Open` makes of a sound file. -/
theorem sound_of_openFile {ps : List (Bytes × Bytes)} (hfits : Fits ps) {number : ℕ} {t : SSTable}
    (h : SSTable.openFile number (SSTableBuilder.build ps) = .ok t) : t.Sound ∧ t.pairs = ps := by
  obtain ⟨t', blocks, hopen, -, hholds⟩ := openFile_build hfits number
  obtain rfl : t' = t := Except.ok.inj (hopen.symm.trans h)
  exact ⟨hholds.sound, hholds.pairs_eq⟩

/-! ## Filling an output -/

/-- The entries with a value, under their user keys. -/
def live (es : List (Bytes × Bytes)) : List (Bytes × Bytes) := (userPairs es).filter fun p => p.2 ≠ []

@[simp] theorem live_nil : live [] = [] := rfl

theorem live_append (es fs : List (Bytes × Bytes)) : live (es ++ fs) = live es ++ live fs := by
  simp [live, userPairs]

theorem live_cons_nil (k : Bytes) (es : List (Bytes × Bytes)) : live ((k, []) :: es) = live es := by
  simp [live, userPairs]

theorem live_cons {k v : Bytes} (hv : v ≠ []) (es : List (Bytes × Bytes)) :
    live ((k, v) :: es) = (extractUserKey k, v) :: live es := by
  simp [live, userPairs, hv]

/-- **Filling one output** takes entries from the front, and stops at an entry with a value once
the blocks written have the size. -/
theorem fillOutput_spec (b : SSTableBuilder) (es : List (Bytes × Bytes)) :
    ∃ taken, es = taken ++ (fillOutput b es).2 ∧ (fillOutput b es).1 = b.addAll (live taken) ∧
      ((fillOutput b es).2 ≠ [] → maxOutputSize ≤ (b.addAll (live taken)).fileSize) ∧
      ∀ ps p, live taken = ps ++ [p] → (b.addAll ps).fileSize < maxOutputSize := by
  induction es generalizing b with
  | nil => exact ⟨[], rfl, rfl, fun h => absurd rfl h, fun ps p h => absurd h (by simp)⟩
  | cons e es ih =>
    obtain ⟨k, v⟩ := e
    rw [fillOutput]
    split
    · rename_i hv
      subst hv
      obtain ⟨taken, hes, hb, hfull, hsize⟩ := ih b
      refine ⟨(k, []) :: taken, by rw [List.cons_append, ← hes], ?_, ?_, ?_⟩
      · rw [live_cons_nil]; exact hb
      · rw [live_cons_nil]; exact hfull
      · rw [live_cons_nil]; exact hsize
    rename_i hv
    split
    · rename_i hfull
      exact ⟨[], rfl, rfl, fun _ => hfull, fun ps p h => absurd h (by simp)⟩
    · rename_i hroom
      obtain ⟨taken, hes, hb, hfull, hsize⟩ := ih (b.add (extractUserKey k) v)
      have hcons : live ((k, v) :: taken) = (extractUserKey k, v) :: live taken := live_cons hv taken
      refine ⟨(k, v) :: taken, by rw [List.cons_append, ← hes], ?_, ?_, fun ps p h => ?_⟩
      · rw [hcons]; exact hb
      · rw [hcons]; exact hfull
      · rw [hcons] at h
        cases ps with
        | nil => exact not_le.1 hroom
        | cons q ps =>
          obtain ⟨rfl, htail⟩ := List.cons.inj h
          exact hsize ps p htail

/-- An output takes an entry if there is one with a value. -/
theorem live_taken_ne {es : List (Bytes × Bytes)} {fd : Fd} {taken : List (Bytes × Bytes)}
    (hes : es = taken ++ (fillOutput (SSTableBuilder.new fd) es).2)
    (hfull : (fillOutput (SSTableBuilder.new fd) es).2 ≠ [] →
      maxOutputSize ≤ ((SSTableBuilder.new fd).addAll (live taken)).fileSize)
    (hlive : live es ≠ []) : live taken ≠ [] := by
  intro hnil
  have hrest : (fillOutput (SSTableBuilder.new fd) es).2 ≠ [] := by
    intro hrest
    rw [hrest, List.append_nil] at hes
    exact hlive (hes ▸ hnil)
  have hsize := hfull hrest
  rw [hnil] at hsize
  exact absurd hsize (Nat.not_le.2 (show 0 < maxOutputSize by decide))

/-! ## Sizes -/

/-- A bound for the bytes that a pair takes in a file. -/
def entrySpace (p : Bytes × Bytes) : ℕ := p.1.length + p.2.length + 31

/-- A bound for the bytes that pairs take in a file. -/
def totalSpace (ps : List (Bytes × Bytes)) : ℕ := (ps.map entrySpace).sum

theorem totalSpace_append (ps qs : List (Bytes × Bytes)) :
    totalSpace (ps ++ qs) = totalSpace ps + totalSpace qs := by simp [totalSpace]

theorem entriesBytes_le {es : List (Bytes × Bytes)} (h : ∀ e ∈ es, Stored e) :
    (entriesBytes es).length + 12 * es.length ≤ totalSpace (userPairs es) := by
  induction es with
  | nil => simp [entriesBytes, userPairs, totalSpace]
  | cons e es ih =>
    have hes := ih fun f hf => h f (List.mem_cons_of_mem _ hf)
    obtain ⟨u, s, hu⟩ := h e List.mem_cons_self
    have hk : e.1.length = u.length + 8 := by rw [hu, makeInternalKey_length]
    have hlk := (varint32Length_bounds (toUInt32 e.1.length)).2
    have hlv := (varint32Length_bounds (toUInt32 e.2.length)).2
    have h0 : varint32Length 0 = 1 := rfl
    have huk : extractUserKey e.1 = u := by rw [hu, extractUserKey_makeInternalKey]
    simp only [entriesBytes, userPairs, totalSpace, List.flatMap_cons, List.length_append,
      List.map_cons, List.sum_cons, entrySpace, encodeEntry_length, List.length_cons, huk,
      h0] at hes ⊢
    omega

/-- The blocks written are not larger than what their entries take. -/
theorem blocksBytes_le {bs : List DataBlock} (hok : ∀ b ∈ bs, b.OK)
    (h : ∀ e ∈ bs.flatMap DataBlock.entries, Stored e) :
    (blocksBytes bs).length ≤ totalSpace (userPairs (bs.flatMap DataBlock.entries)) := by
  induction bs with
  | nil => simp [blocksBytes]
  | cons b bs ih =>
    have hb := hok b List.mem_cons_self
    have hlen := b.bytes_length
    have hbs := ih (fun c hc => hok c (List.mem_cons_of_mem _ hc)) fun e he =>
      h e (by rw [List.flatMap_cons]; exact List.mem_append_right _ he)
    have hes := @entriesBytes_le b.entries fun e he =>
      h e (by rw [List.flatMap_cons]; exact List.mem_append_left _ he)
    have hpos := List.length_pos_iff.2 hb.ne
    have hre := hb.restarts
    rw [List.flatMap_cons, userPairs_append, totalSpace_append, blocksBytes, List.flatMap_cons,
      List.length_append, hlen]
    rw [blocksBytes] at hbs
    omega

theorem addAll_entries {ps : List (Bytes × Bytes)} {done : List DataBlock}
    {cur : List (Bytes × Bytes)} (hes : ∀ es, done.map DataBlock.entries ++ cutBlocks cur es =
      cutBlocks [] (tableEntries ps ++ es)) : done.flatMap DataBlock.entries ++ cur = tableEntries ps := by
  have h := congrArg List.flatten (hes [])
  rw [List.flatten_append, cutBlocks_flatten, cutBlocks_flatten, List.append_nil, List.append_nil,
    List.nil_append, ← List.flatMap_def] at h
  exact h

/-- **Small inputs fill less than they take.** -/
theorem fileSize_le (ps : List (Bytes × Bytes)) :
    ((SSTableBuilder.new {}).addAll ps).fileSize ≤ totalSpace ps := by
  obtain ⟨done, cur, hst, hes, -, -, -⟩ := SSTableBuilder.addAll_state ps
  have hall := addAll_entries hes
  have hle := blocksBytes_le hst.ok fun e he => @stored_tableEntries ps _ (by
    rw [← hall]; exact List.mem_append_left _ he)
  have htotal := congrArg (fun es => totalSpace (userPairs es)) hall
  simp only [userPairs_append, totalSpace_append, userPairs_tableEntries] at htotal
  rw [hst.size]
  omega

/-- An output has at most as many entries as its blocks have bytes, and one block more. -/
theorem length_le_of_fileSize (ps : List (Bytes × Bytes)) :
    ps.length ≤ ((SSTableBuilder.new {}).addAll ps).fileSize + SSTableBuilder.blockSize := by
  obtain ⟨done, cur, hst, hes, -, -, -⟩ := SSTableBuilder.addAll_state ps
  have hall := congrArg List.length (addAll_entries hes)
  have hcur : cur.length ≤ SSTableBuilder.blockSize := by
    rcases hst.small with h | h
    · exact h.trans (by decide)
    · exact (length_le_entriesBytes cur).trans h
  have := length_entries_le done
  rw [hst.size]
  rw [List.length_append, tableEntries, entriesFrom_length] at hall
  omega

/-! ## The table of an output -/

/-- What an output leaves: status, file and the entries for the next one. -/
def outputResult (faults : ℕ → Option ℕ) (es : List (Bytes × Bytes)) :
    Status × Bytes × List (Bytes × Bytes) :=
  let r := fillOutput (SSTableBuilder.new { faults := faults }) es
  (r.1.finish.1, r.1.finish.2.fd.file, r.2)

/-- Lengths that the integers of the format hold. -/
def Short (ps : List (Bytes × Bytes)) : Prop := ∀ p ∈ ps, p.1.length + 8 + p.2.length < 2 ^ 31

theorem mem_of_mem_live {es : List (Bytes × Bytes)} {p : Bytes × Bytes} (h : p ∈ live es) :
    p ∈ userPairs es ∧ p.2 ≠ [] := by simpa [live] using h

/-- **The table of an output** holds the entries with a value that the output took; with little
left to write, it takes all of them. -/
theorem output_table {es : List (Bytes × Bytes)} (hshort : Short (live es)) (hlive : live es ≠ [])
    {faults : ℕ → Option ℕ} (hio : outputResult faults es = outputResult (fun _ => none) es)
    {number : ℕ} {t : SSTable} (hopen : SSTable.openFile number
      (fillOutput (SSTableBuilder.new { faults := faults }) es).1.finish.2.fd.file = .ok t) :
    t.Sound ∧ t.pairs ≠ [] ∧
      live es = t.pairs ++ live (fillOutput (SSTableBuilder.new { faults := faults }) es).2 ∧
      (∃ taken, es = taken ++ (fillOutput (SSTableBuilder.new { faults := faults }) es).2) ∧
      (totalSpace (live es) < maxOutputSize →
        live (fillOutput (SSTableBuilder.new { faults := faults }) es).2 = []) := by
  have hfile := congrArg (fun r => r.2.1) hio
  have hrest := congrArg (fun r => r.2.2) hio
  simp only [outputResult] at hfile hrest
  rw [hfile] at hopen
  rw [hrest]
  obtain ⟨taken, hes, hb, hfull, hsize⟩ := fillOutput_spec (SSTableBuilder.new {}) es
  have hsplit : live es = live taken ++ live (fillOutput (SSTableBuilder.new {}) es).2 := by
    rw [← live_append, ← hes]
  have hne := live_taken_ne hes hfull hlive
  have hfits : Fits (live taken) := by
    refine ⟨fun p hp => hshort p (hsplit ▸ List.mem_append_left _ hp), ?_⟩
    obtain ⟨ps, p, hps⟩ := (List.eq_nil_or_concat' (live taken)).resolve_left hne
    have hlt := hsize ps p hps
    have hlen := length_le_of_fileSize ps
    rw [hps, List.length_append, List.length_singleton]
    simp only [maxOutputSize, SSTableBuilder.blockSize] at hlt hlen
    omega
  rw [show (fun _ : ℕ => (none : Option ℕ)) = (({} : Fd).faults) from rfl] at hopen
  have hopen' : SSTable.openFile number (SSTableBuilder.build (live taken)) = .ok t := by
    rw [SSTableBuilder.build, ← hb]
    exact hopen
  obtain ⟨hsound, hpairs⟩ := sound_of_openFile hfits hopen'
  rw [hpairs]
  refine ⟨hsound, hne, hsplit, ⟨taken, hes⟩, fun hsmall => ?_⟩
  have hnil : (fillOutput (SSTableBuilder.new {}) es).2 = [] := by
    by_contra hrest
    have hmax := hfull hrest
    have hle := fileSize_le (live taken)
    rw [hsplit, totalSpace_append] at hsmall
    omega
  exact (congrArg live hnil).trans live_nil

end MiniLSM
