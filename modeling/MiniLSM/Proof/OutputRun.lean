import MiniLSM.Proof.Replacement

/-!
# How a compaction writes its outputs

* `output_next`: while there is something to write, the next output takes some of it.
* `outputs_spec`: so the merge phase ends, its outputs hold its entries in order, and all but the last are
  full.
-/

namespace MiniLSM

open DB Transition

/-! ## Full files -/

/-- The bytes of a data block are as many as its entries say. -/
theorem blocksBytes_length {bs : List DataBlock} (h : ∀ b ∈ bs, b.OK) : (blocksBytes bs).length =
    ((bs.map DataBlock.entries).map fun es => (entriesBytes es).length + (es.length + 15) / 16 * 4 + 8).sum := by
  induction bs with
  | nil => rfl
  | cons b bs ih =>
    have hb := h b List.mem_cons_self
    rw [blocksBytes, List.flatMap_cons, List.length_append, List.map_cons, List.map_cons, List.sum_cons,
      ← ih fun c hc => h c (List.mem_cons_of_mem _ hc), b.bytes_length, hb.restarts]
    rfl

/-- The blocks written before `Finish` are in the file. -/
theorem fileSize_le_file (ps : List (Bytes × Bytes)) :
    ((SSTableBuilder.new {}).addAll ps).fileSize ≤ (SSTableBuilder.build ps).length := by
  obtain ⟨done, cur, hst, -, -, -, hfin⟩ := SSTableBuilder.addAll_state ps
  obtain ⟨blocks, hok, hes, -, hfile, -⟩ := SSTableBuilder.finish_file hst hfin
  rw [SSTableBuilder.build, hfile, hst.size, fileBytes, List.length_append, blocksBytes_length hok,
    blocksBytes_length hst.ok, hes, List.map_append, List.sum_append]
  omega

namespace World

variable {w : World} {i : ℕ} {job : CompactionJob}

/-- **The next output.** -/
theorem output_next (hi : w.compactions[i]? = some job) (hbusy : job.busy = true)
    (hshort : Short (live job.rest)) : ∃ t rest, w.step (.compactOutput i (fun _ => none) true) =
      some (w.outputWritten i { job with rest := rest, newLevel1 := job.newLevel1 ++ [t] }
        [.writeSst w.db.nextFileNumber t.data]) ∧
      t.number = w.db.nextFileNumber ∧ t.Sound ∧ t.pairs ≠ [] ∧ live job.rest = t.pairs ++ live rest ∧
      (live rest ≠ [] → maxOutputSize ≤ t.data.length ∧ maxOutputSize ≤ totalSpace t.pairs) := by
  obtain ⟨taken, hes, hb, hfull, hsize⟩ := fillOutput_spec (SSTableBuilder.new {}) job.rest
  set rest := (fillOutput (SSTableBuilder.new {}) job.rest).2 with hrest
  have hlive := live_taken_ne hes hfull (live_of_busy hbusy)
  have hsplit : live job.rest = live taken ++ live rest := by rw [← live_append, ← hes]
  have hfits : Fits (live taken) := by
    refine ⟨fun p hp => hshort p (hsplit ▸ List.mem_append_left _ hp), ?_⟩
    obtain ⟨ps, p, hps⟩ := (List.eq_nil_or_concat' (live taken)).resolve_left hlive
    have hlt := hsize ps p hps
    have hlen := length_le_of_fileSize ps
    rw [hps, List.length_append, List.length_singleton]
    simp only [maxOutputSize, SSTableBuilder.blockSize] at hlt hlen
    omega
  obtain ⟨t, blocks, hopen, hnumber, hholds⟩ := openFile_build hfits w.db.nextFileNumber
  have hdata := (SSTable.openFile_ok hopen).2
  have hpairs := hholds.pairs_eq
  refine ⟨t, rest, ?_, hnumber, hholds.sound, hpairs ▸ hlive, by rw [hpairs, hsplit], fun hne => ?_⟩
  · obtain ⟨-, -, -, hstatus, -⟩ := SSTableBuilder.build_layout (live taken)
    have hopened : openBuilt w.db.nextFileNumber (SSTableBuilder.build (live taken)) true = some (some t) := by
      rw [openBuilt, if_pos rfl, hopen]
    rw [World.step, writeOutput, hi]
    simp only [Option.bind_eq_bind, Option.bind_some, hbusy, Bool.not_true, Bool.false_eq_true, if_false]
    rw [show SSTableBuilder.new { faults := fun _ => none } = SSTableBuilder.new {} from rfl, hb, hstatus, hdata]
    rw [SSTableBuilder.build] at hopened ⊢
    simp only [hopened]
    rfl
  · have hmax := hfull fun hnil => hne (by rw [hnil, live_nil])
    rw [hpairs, hdata]
    exact ⟨hmax.trans (fileSize_le_file _), hmax.trans (fileSize_le _)⟩

/-- **What the outputs of a merge are**: its live entries in order, under the next file numbers, each of them
with an entry and each but the last full, and all of them on disk. -/
structure Written (w w' : World) (es : List (Bytes × Bytes)) (ts : List SSTable) : Prop where
  entries : allPairs ts = live es
  sound : ∀ t ∈ ts, t.Sound ∧ t.pairs ≠ []
  full : ∀ t ∈ ts.dropLast, maxOutputSize ≤ t.data.length
  few : (ts.length - 1) * maxOutputSize ≤ totalSpace (live es)
  numbers : ts.map (·.number) = List.range' w.db.nextFileNumber ts.length
  onDisk : ∀ t ∈ ts, w'.disk.ssts t.number = some t.data
  others : ∀ n < w.db.nextFileNumber, w'.disk.ssts n = w.disk.ssts n
  db : w'.db = { w.db with nextFileNumber := w.db.nextFileNumber + ts.length }

theorem written_nil (w : World) {es : List (Bytes × Bytes)} (h : live es = []) : Written w w es [] where
  entries := h.symm
  sound := by simp
  full := by simp
  few := Nat.zero_le _
  numbers := rfl
  onDisk := by simp
  others _ _ := rfl
  db := rfl

/-- An output in front of the others. -/
theorem Written.cons {w w₁ w' : World} {es rest : List (Bytes × Bytes)} {t : SSTable} {ts : List SSTable}
    (h : Written w₁ w' rest ts) (hdb : w₁.db = { w.db with nextFileNumber := w.db.nextFileNumber + 1 })
    (hdisk : w₁.disk = w.disk.run [.writeSst w.db.nextFileNumber t.data]) (hnumber : t.number = w.db.nextFileNumber)
    (hsound : t.Sound) (hne : t.pairs ≠ []) (hsplit : live es = t.pairs ++ live rest)
    (hfull : live rest ≠ [] → maxOutputSize ≤ t.data.length ∧ maxOutputSize ≤ totalSpace t.pairs) :
    Written w w' es (t :: ts) := by
  have hnext : w₁.db.nextFileNumber = w.db.nextFileNumber + 1 := by rw [hdb]
  have hrest : ts ≠ [] → live rest ≠ [] := by
    intro hts hnil
    obtain ⟨u, us, rfl⟩ := List.exists_cons_of_ne_nil hts
    have hall := h.entries
    rw [hnil, allPairs_cons] at hall
    exact (h.sound u List.mem_cons_self).2 (List.append_eq_nil_iff.1 hall).1
  refine ⟨?_, ?_, ?_, ?_, ?_, ?_, ?_, ?_⟩
  · rw [allPairs_cons, h.entries, hsplit]
  · exact List.forall_mem_cons.2 ⟨⟨hsound, hne⟩, h.sound⟩
  · intro u hu
    cases ts with
    | nil => cases hu
    | cons v vs =>
      rw [List.dropLast_cons_cons] at hu
      rcases List.mem_cons.1 hu with rfl | hu
      · exact (hfull (hrest (List.cons_ne_nil _ _))).1
      · exact h.full u hu
  · rw [hsplit, totalSpace_append]
    have hfew := h.few
    by_cases hts : ts = []
    · subst hts
      simp
    · have hmax := (hfull (hrest hts)).2
      have hpos := List.length_pos_iff.2 hts
      rw [List.length_cons, Nat.add_sub_cancel]
      calc ts.length * maxOutputSize = (ts.length - 1) * maxOutputSize + maxOutputSize := by
            rw [← Nat.succ_mul, Nat.succ_eq_add_one, Nat.sub_add_cancel hpos]
        _ ≤ totalSpace t.pairs + totalSpace (live rest) := by omega
  · rw [List.map_cons, h.numbers, List.length_cons, List.range'_succ, hnumber, hnext]
  · intro u hu
    rcases List.mem_cons.1 hu with rfl | hu
    · rw [h.others u.number (by omega), hdisk, hnumber]
      exact Function.update_self _ _ _
    · exact h.onDisk u hu
  · intro n hn
    rw [h.others n (by omega), hdisk]
    exact Function.update_of_ne (by omega) _ _
  · rw [h.db, hdb, List.length_cons]
    dsimp only
    congr 1
    omega

/-- **A compaction ends**, and writes what it has merged. From any state, one whose entries are short can write
its outputs, each of which takes some of the entries that are left; then they are the live entries of the merge
in order, no output is without entries, each but the last has `maxOutputSize` bytes, and the last section can be
taken. -/
theorem outputs_spec (hi : w.compactions[i]? = some job) (hf : job.failed = false) (hshort : Short (live job.rest)) :
    ∃ ts w' rest, run World.step (fun _ _ => True) w
        (List.replicate ts.length (.compactOutput i (fun _ => none) true)) = some w' ∧
      Written w w' job.rest ts ∧ ts.length ≤ (live job.rest).length ∧
      w'.compactions[i]? = some { job with rest := rest, newLevel1 := job.newLevel1 ++ ts } ∧
      (w'.step (.compactEnd i)).isSome := by
  induction hn : (live job.rest).length using Nat.strong_induction_on generalizing w job with
  | _ n ih =>
    subst hn
    cases hbusy : job.busy with
    | false =>
      refine ⟨[], w, job.rest, rfl, written_nil w (live_of_not_busy hf hbusy), Nat.zero_le _, ?_, ?_⟩
      · rw [List.append_nil]
        exact hi
      · rw [step_compactEnd hi hf hbusy]
        rfl
    | true =>
      obtain ⟨t, rest, hstep, hnumber, hsound, hne, hsplit, hfull⟩ := output_next hi hbusy hshort
      have hlt : i < w.compactions.length := (List.getElem?_eq_some_iff.1 hi).1
      have hlen := congrArg List.length hsplit
      rw [List.length_append] at hlen
      have hpos := List.length_pos_iff.2 hne
      have hi' : (w.outputWritten i { job with rest := rest, newLevel1 := job.newLevel1 ++ [t] }
          [.writeSst w.db.nextFileNumber t.data]).compactions[i]? =
          some { job with rest := rest, newLevel1 := job.newLevel1 ++ [t] } := List.getElem?_set_self hlt
      obtain ⟨ts, w', rest', hrun, hwritten, hle, hjob, hend⟩ := ih (live rest).length (by omega) hi' hf
        (fun p hp => hshort p (hsplit ▸ List.mem_append_right _ hp)) rfl
      refine ⟨t :: ts, w', rest', run_cons.2 ⟨_, trivial, hstep, hrun⟩,
        hwritten.cons rfl rfl hnumber hsound hne hsplit hfull, ?_, ?_, hend⟩
      · rw [List.length_cons]
        omega
      · rw [hjob, List.append_assoc]
        rfl

instance decidableShortEntries (ps : List (Bytes × Bytes)) : Decidable (Short ps) := by unfold Short; infer_instance

/-- A compaction of two flushes, with a tombstone. -/
theorem outputs_spec_twoFlushes : ∃ w w' job ts rest,
    run World.step Orderly (fresh smallest)
      (thenFlush (.put [107] [1]) ++ thenFlush (.delete [106]) ++ [.compactBegin]) =
      some w ∧
    w.compactions[0]? = some job ∧
    run World.step (fun _ _ => True) w
      (List.replicate ts.length (.compactOutput 0 (fun _ => none) true)) = some w' ∧
    w'.compactions[0]? = some { job with rest := rest, newLevel1 := job.newLevel1 ++ ts } ∧
    allPairs ts = [([107], [1])] := by
  have hrun : ((run World.step Orderly (fresh smallest)
      (thenFlush (.put [107] [1]) ++ thenFlush (.delete [106]) ++ [.compactBegin])).bind fun w =>
        w.compactions[0]?.map fun job => (job.failed, decide (Short (live job.rest)), live job.rest)) =
      some (false, true, [([107], [1])]) := by decide +kernel
  obtain ⟨w, hw, hjob⟩ := Option.bind_eq_some_iff.1 hrun
  obtain ⟨job, hi, heq⟩ := Option.map_eq_some_iff.1 hjob
  simp only [Prod.mk.injEq, decide_eq_true_eq] at heq
  obtain ⟨hf, hshort, hlive⟩ := heq
  obtain ⟨ts, w', rest, hrest, hwritten, -, hjob', -⟩ := outputs_spec hi hf hshort
  exact ⟨w, w', job, ts, rest, hw, hi, hrest, hjob', hwritten.entries.trans hlive⟩

end World

end MiniLSM
