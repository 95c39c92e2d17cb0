import MiniLSM.Proof.Faults
import MiniLSM.Proof.Ordered

/-!
# Runs without faults

A database whose reads find what was written, whose files open and which is never cut off is one
of those under faults: an output is built as soon as its number is taken.

* `mergeReads_data`: reads that find what was written merge the same entries.
* `reach_step`: a step of the database is one or two of those under faults.
* `reach_of_orderly`: the runs of the database are runs under faults.
-/

namespace MiniLSM

open DB Transition

/-! ## Reads that find what was written -/

theorem length_allContents_le_blocks {ts : List SSTable} (h : ∀ t ∈ ts, t.Sound) :
    (allContents ts).length ≤ (ts.map fun t => (t.index.map (·.blockSize)).sum).sum := by
  induction ts with
  | nil => exact le_refl _
  | cons t ts ih =>
    have hts := ih fun s hs => h s (List.mem_cons_of_mem _ hs)
    obtain ⟨blocks, hholds⟩ := h t List.mem_cons_self
    have ht : t.contents.length ≤ (t.index.map (·.blockSize)).sum := by
      rw [hholds.contents_eq, ← hholds.entries, hholds.sum_blockSize]
      exact length_entries_le blocks
    rw [allContents, List.flatMap_cons, List.length_append, List.map_cons, List.sum_cons]
    exact Nat.add_le_add ht hts

/-- **Reads that find what was written** merge the same entries. -/
theorem mergeReads_data {ts : List SSTable} (h : ∀ t ∈ ts, t.Sound) :
    mergeReads SSTable.data ts = mergeInputs ts := by
  obtain ⟨merged, its, it, hits, hnew, hy, hm⟩ := exists_merge h
  have hlen : merged.length = (allContents ts).length := by
    rw [hm.perm.length_eq, allContents, List.flatMap_def]
  have hdata := drain_of_yields hy (hlen.trans_le (length_allContents_le h))
  have hblocks := drain_of_yields hy (hlen.trans_le (length_allContents_le_blocks h))
  have hreads : ts.mapM (fun t => ChildIterator.sst <$> SSTableIterator.new (t.reading SSTable.data)) =
      .ok its := hits
  rw [mergeReads, mergeInputs, hits, hreads]
  simp only [bind, Except.bind, hnew, hdata, hblocks]

namespace Faulty

variable {w w' : World}

/-- A state of the database, its compactions with the bytes that were written. -/
def faultless (w : World) : Faulty where
  world := w
  merging := w.compactions.map fun _ => { reads := SSTable.data }

/-! ## Steps -/

/-- A section with its `WriteManifest`. -/
theorem step_base {l : MiniLSM.Label} (h : w.step l = some w')
    (hend : ∀ i, l ≠ .compactEnd i) (hout : ∀ i faults opens, l ≠ .compactOutput i faults opens)
    (hbegin : l ≠ .compactBegin) (hreopen : ∀ options heights, l ≠ .reopen options heights)
    (hc : w'.compactions = w.compactions) :
    (faultless w).step (.base l true) = some (faultless w') := by
  have hstep : (faultless w).step (.base l true) =
      (w.step l).bind fun w' => some { faultless w with world := keepManifest w w' true } := by
    cases l with
    | compactEnd i => exact absurd rfl (hend i)
    | compactOutput i faults opens => exact absurd rfl (hout i faults opens)
    | compactBegin => exact absurd rfl hbegin
    | reopen options heights => exact absurd rfl (hreopen options heights)
    | _ => rfl
  rw [hstep, h, Option.bind_some, keepManifest, if_pos rfl, faultless, faultless, hc]

/-- The snapshot section of a compaction. -/
theorem step_compactBegin (h : w.Ranged) (hstep : w.step .compactBegin = some w') :
    (faultless w).step (.compactBegin SSTable.data) = some (faultless w') := by
  cases World.step_event hstep with
  | rotated hl => rcases hl with ⟨hl, -⟩ | ⟨i, hl, -⟩ <;> cases hl
  | rotateFailed hl => rcases hl with ⟨hl, -⟩ | ⟨i, hl, -⟩ <;> cases hl
  | @compactionBegun rest hneed hl0 hrest =>
    have hsound : ∀ t ∈ w.db.levels.l0 ++
        World.l1Inputs w.db.levels.l1 (l1Indices w.db.levels.l0 w.db.levels.l1), t.Sound := by
      intro t ht
      rcases List.mem_append.1 ht with ht | ht
      · exact (h.l0 t ht).sound
      · exact h.l1.sound t (World.l1Inputs_subset _ _ ht)
    rw [← mergeReads_data hsound] at hrest
    unfold World.l1Inputs at hrest
    show beginCompaction _ _ = _
    simp only [beginCompaction, faultless, hneed, Bool.not_true, Bool.false_eq_true, if_false, hl0, hrest,
      List.map_append]
    rfl

/-- The end of a compaction. -/
theorem step_compactEnd {i : ℕ} (hstep : w.step (.compactEnd i) = some w') :
    (faultless w).step (.base (.compactEnd i) true) = some (faultless w') := by
  have hc : w'.compactions = w.compactions.eraseIdx i := by
    obtain ⟨job, -, ⟨-, rfl⟩ | ⟨-, rfl⟩⟩ := World.compactEnd_cases hstep <;> rfl
  have hend : w.endCompaction i = some w' := hstep
  show (w.endCompaction i).bind _ = _
  rw [hend, Option.bind_some, faultless, faultless, hc, List.eraseIdx_map]
  rfl

/-- The state in which a compaction has taken the number of its output. -/
def afterTake (w : World) (i : ℕ) : Faulty where
  world := { w with db := { w.db with nextFileNumber := w.db.nextFileNumber + 1 } }
  merging := (faultless w).merging.set i { reads := SSTable.data, number := some w.db.nextFileNumber }

/-- One output of a compaction: its number, then its file. -/
theorem reach_compactOutput {i : ℕ} {faults : ℕ → Option ℕ} {opens : Bool}
    (hstep : w.step (.compactOutput i faults opens) = some w') :
    Reach step (fun _ _ => True) (faultless w) (faultless w') := by
  obtain ⟨job, job', ops, hi, hbusy, heq⟩ : ∃ job job' ops, w.compactions[i]? = some job ∧
      job.busy = true ∧ w' = w.outputWritten i job' ops := by
    cases World.step_event hstep with
    | rotated hl => rcases hl with ⟨hl, -⟩ | ⟨i, hl, -⟩ <;> cases hl
    | rotateFailed hl => rcases hl with ⟨hl, -⟩ | ⟨i, hl, -⟩ <;> cases hl
    | outputWritten hi hbusy => exact ⟨_, _, _, hi, hbusy, rfl⟩
    | outputFailed hi hbusy => exact ⟨_, _, _, hi, hbusy, rfl⟩
  have hmerging : (faultless w).merging[i]? = some { reads := SSTable.data } := by
    rw [faultless, List.getElem?_map, hi]
    rfl
  have htake : (faultless w).step (.takeNumber i) = some (afterTake w i) := by
    show takeNumber _ i = _
    simp only [takeNumber, Option.bind_eq_bind, show (faultless w).world.compactions[i]? = some job from hi,
      hmerging, Option.bind_some, hbusy]
    rfl
  have hwrite : (afterTake w i).step (.compactOutput i faults opens) = some (faultless w') := by
    have hnumber : (afterTake w i).merging[i]? =
        some { reads := SSTable.data, number := some w.db.nextFileNumber } :=
      List.getElem?_set_self (List.getElem?_eq_some_iff.1 hmerging).1
    have hsame : w.writeOutput i faults opens = some w' := hstep
    show writeOutput _ i faults opens = _
    rw [writeOutput, hnumber]
    show (w.writeOutput i faults opens).bind _ = _
    rw [hsame, Option.bind_some, heq, faultless, World.outputWritten, List.map_set]
    simp only [afterTake, faultless, List.set_set]
    rfl
  exact .next (.next .start trivial htake) trivial hwrite

/-! ## Runs -/

/-- **A step of the database** is one step under faults, or the two of an output. -/
theorem reach_step (h : w.Ranged) {l : MiniLSM.Label} (hstep : w.step l = some w') :
    Reach step (fun _ _ => True) (faultless w) (faultless w') := by
  cases l with
  | compactBegin => exact .next .start trivial (step_compactBegin h hstep)
  | compactEnd i => exact .next .start trivial (step_compactEnd hstep)
  | compactOutput i faults opens => exact reach_compactOutput hstep
  | reopen options heights =>
    refine @Reach.next _ _ _ _ _ _ _ (.base (.reopen options heights) true) .start trivial ?_
    obtain ⟨-, hc, db, ops, -, rfl⟩ := World.reopen_cases hstep
    show (w.step (.reopen options heights)).bind _ = _
    rw [hstep, Option.bind_some, faultless, hc]
    rfl
  | _ =>
    refine .next .start trivial (step_base hstep (by simp) (by simp) (by simp) (by simp) ?_)
    cases World.step_event hstep <;> rfl

/-- **The runs of the database are runs under faults.** -/
theorem reach_of_orderly {options : Options} (h : Reach World.step World.Orderly (World.fresh options) w) :
    Reach step (fun _ _ => True) (fresh options) (faultless w) := by
  induction h with
  | start => exact .start
  | next hr _ hs ih => exact ih.trans (reach_step (World.ranged_of_reach hr) hs)

end Faulty

end MiniLSM
