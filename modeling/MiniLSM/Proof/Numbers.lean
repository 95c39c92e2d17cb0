import MiniLSM.Proof.Log
import MiniLSM.Proof.Recover

/-!
# The sequence numbers in the log

`last_sequence_` lives in memory only. It survives a clean reopening because the log of
`wal_number_` always holds the record that got the greatest number, and `Recover` reads that
log; it does not survive a record in it that the reader refuses.

* `replayAll_lastSequence`: what replaying makes of `last_sequence_`.
* `Numbered.step`: a step keeps the greatest number in the current log.
* `increasing_of_reach`: the numbers of all records ever written go up.
* `number_repeats`: with a long value in the log, the next write gets its number again.
-/

namespace MiniLSM

open Transition WALWriter

/-- The sequence number in the key of a record. -/
def Record.sequence (r : Record) : ℕ := (extractSequence r.key).toNat

theorem sequence_record (op : DB.WriteOp) {seq : SequenceNumber} (h : seq.toNat < 2 ^ 56) :
    (op.record seq).sequence = seq.toNat := by
  cases op with
  | put key value => exact congrArg UInt64.toNat (extractSequence_makeInternalKey h key .value)
  | delete key => exact congrArg UInt64.toNat (extractSequence_makeInternalKey h key .deletion)

theorem eight_le_record (op : DB.WriteOp) (seq : SequenceNumber) : 8 ≤ (op.record seq).key.length := by
  cases op <;> simp [DB.WriteOp.record]

theorem toNat_max (a b : UInt64) : (max a b).toNat = max a.toNat b.toNat := by
  show (if a ≤ b then b else a).toNat = _
  split
  case isTrue h =>
    rw [UInt64.le_iff_toNat_le] at h
    omega
  case isFalse h =>
    rw [UInt64.le_iff_toNat_le] at h
    omega

theorem replay_lastSequence (db : DB) {r : Record} (hr : 8 ≤ r.key.length) (height : ℕ) :
    (db.replay r height).lastSequence.toNat = max db.lastSequence.toNat r.sequence := by
  rw [DB.replay, if_pos hr]
  exact toNat_max _ _

/-- **Replaying raises `last_sequence_` to the greatest number in the log.** -/
theorem replayAll_lastSequence {rs : List Record} (hrs : ∀ r ∈ rs, 8 ≤ r.key.length) (db : DB)
    (heights : ℕ → ℕ) : (db.replayAll rs heights).lastSequence.toNat =
      (rs.map Record.sequence).foldl max db.lastSequence.toNat := by
  have hfold : ∀ (rs : List Record) (n : ℕ) (db : DB), (∀ r ∈ rs, 8 ≤ r.key.length) →
      ((rs.zipIdx n).foldl (fun db r => db.replay r.1 (heights r.2)) db).lastSequence.toNat =
        (rs.map Record.sequence).foldl max db.lastSequence.toNat := by
    intro rs
    induction rs with
    | nil =>
      intro n db _
      rfl
    | cons r rs ih =>
      intro n db hrs
      rw [List.zipIdx_cons, List.foldl_cons, List.map_cons, List.foldl_cons]
      rw [ih _ _ fun r' hr' => hrs r' (List.mem_cons_of_mem _ hr')]
      rw [replay_lastSequence db (hrs r List.mem_cons_self)]
  exact hfold rs 0 db hrs

/-- The greatest of some numbers, where one that bounds them all is among them. -/
theorem foldl_max_eq {xs : List ℕ} {last : ℕ} (hle : ∀ x ∈ xs, x ≤ last)
    (hmem : last = 0 ∨ last ∈ xs) : xs.foldl max 0 = last := by
  have hmax : (0 :: xs).max? = some last := by
    refine List.max?_eq_some_iff.2 ⟨List.mem_cons.2 hmem, ?_⟩
    intro x hx
    rcases List.mem_cons.1 hx with rfl | hx
    · exact Nat.zero_le last
    · exact hle x hx
  rw [List.max?_cons'] at hmax
  exact Option.some.inj hmax

/-! ## The records of a directory -/

/-- The record that a step hands to `AddRecord`, if it does. -/
def World.logged (w : World) : Label → List Record
  | .write op _ walOpens =>
    if w.db.hasRoom || w.db.imm.isNone && walOpens then [op.record (w.db.lastSequence + 1)] else []
  | .wake i _ walOpens =>
    if walOpens then (w.waiting[i]?.map fun op => op.record (w.db.lastSequence + 1)).toList else []
  | _ => []

/-- A database with the records written to its logs since the directory was created: those of
earlier logs, and those of the log of `wal_number_`. -/
structure Sequenced where
  world : World
  older : List Record := []
  current : List Record := []

namespace Sequenced

/-- All records, in the order they were written. -/
def records (s : Sequenced) : List Record := s.older ++ s.current

/-- A step of the database. A step that moves to another log writes its record there. -/
def step (s : Sequenced) (l : Label) : Option Sequenced := do
  let w ← s.world.step l
  if w.db.walNumber = s.world.db.walNumber then
    return { s with world := w, current := s.current ++ s.world.logged l }
  else return { world := w, older := s.records, current := s.world.logged l }

/-- The condition: logs open, numbers stay below 2^56, and a log that is read again holds no
record that the reader refuses. -/
def Plain (s : Sequenced) : Label → Prop
  | .write _ _ walOpens => walOpens = true ∧ s.world.db.lastSequence.toNat + 1 < 2 ^ 56
  | .wake _ _ walOpens => walOpens = true ∧ s.world.db.lastSequence.toNat + 1 < 2 ^ 56
  | .reopen _ _ => ∀ r ∈ s.current, r.Short
  | _ => True

instance (s : Sequenced) (l : Label) : Decidable (Plain s l) := by
  rcases l with _ | _ <;> unfold Plain <;> infer_instance

/-- `DB::Open` on an empty directory. -/
def fresh (options : Options) : Sequenced := { world := World.fresh options }

/-! ## The invariant -/

/-- The log of `wal_number_` holds the records of `current`, and the numbers of all records go
up and do not pass `last_sequence_`. -/
structure Counted (s : Sequenced) : Prop where
  wal : s.world.db.wal = some s.world.db.walNumber
  log : s.world.disk.logs s.world.db.walNumber = some (logBytes s.current)
  above : ∀ n, s.world.db.walNumber < n → s.world.disk.logs n = none
  recorded : s.world.db.imm = none → ∃ next, s.world.Recorded next s.world.db.walNumber
  sized : ∀ r ∈ s.records, 8 ≤ r.key.length
  le : ∀ r ∈ s.records, r.sequence ≤ s.world.db.lastSequence.toNat
  increasing : s.records.Pairwise fun r r' => r.sequence < r'.sequence

/-- **`last_sequence_` is the number of a record in the current log**, unless nothing has been
written yet. -/
structure Numbered (s : Sequenced) : Prop extends s.Counted where
  last : s.world.db.lastSequence.toNat = 0 ∨ ∃ r ∈ s.current, r.sequence = s.world.db.lastSequence.toNat

variable {s s' : Sequenced} {w w' : World} {older current : List Record}

theorem fresh_numbered (options : Options) : (fresh options).Numbered := by
  refine ⟨⟨rfl, rfl, ?_, ?_, by simp [fresh, records], by simp [fresh, records], List.Pairwise.nil⟩,
    Or.inl rfl⟩
  · intro n hn
    exact Function.update_of_ne (by simpa [fresh, World.fresh] using hn.ne') _ _
  · intro _
    exact ⟨1, Or.inr ⟨rfl, rfl, rfl, rfl⟩⟩

/-- Steps that leave the log, the numbers and `imm_` alone. -/
theorem Numbered.keep (h : Numbered ⟨w, older, current⟩) (hwal : w'.db.wal = w.db.wal)
    (hnum : w'.db.walNumber = w.db.walNumber) (hseq : w'.db.lastSequence = w.db.lastSequence)
    (hlogs : w'.disk.logs = w.disk.logs)
    (hrec : w'.db.imm = none → ∃ next, w'.Recorded next w.db.walNumber) :
    Numbered ⟨w', older, current⟩ := by
  refine ⟨⟨?_, ?_, ?_, ?_, h.sized, ?_, h.increasing⟩, ?_⟩
  · rw [hwal, hnum]
    exact h.wal
  · rw [hnum, hlogs]
    exact h.log
  · rw [hnum, hlogs]
    exact h.above
  · rw [hnum]
    exact hrec
  · rw [hseq]
    exact h.le
  · rw [hseq]
    exact h.last

/-- **A write numbers its record one above all others.** -/
theorem Counted.wrote (h : Counted ⟨w, older, current⟩) (hlt : w.db.lastSequence.toNat + 1 < 2 ^ 56)
    (op : DB.WriteOp) (height : ℕ) :
    Numbered ⟨w.wrote op height w.db.walNumber, older,
      current ++ [op.record (w.db.lastSequence + 1)]⟩ := by
  have hnext : (w.db.lastSequence + 1).toNat = w.db.lastSequence.toNat + 1 := by
    rw [UInt64.toNat_add, show (1 : UInt64).toNat = 1 from rfl]
    omega
  have hseq : (op.record (w.db.lastSequence + 1)).sequence = w.db.lastSequence.toNat + 1 := by
    rw [sequence_record op (hnext ▸ hlt), hnext]
  have hmem : ∀ r ∈ older ++ (current ++ [op.record (w.db.lastSequence + 1)]),
      r ∈ older ++ current ∨ r = op.record (w.db.lastSequence + 1) := by
    intro r hr
    rw [← List.append_assoc] at hr
    exact (List.mem_append.1 hr).imp_right List.mem_singleton.1
  refine ⟨⟨h.wal, World.wrote_logs h.log op height, ?_, h.recorded, ?_, ?_, ?_⟩, Or.inr ?_⟩
  · intro n hn
    exact (Function.update_of_ne (ne_of_gt hn) _ _).trans (h.above n hn)
  · intro r hr
    rcases hmem r hr with hr | rfl
    · exact h.sized r hr
    · exact eight_le_record op _
  · intro r hr
    show r.sequence ≤ (w.db.lastSequence + 1).toNat
    rcases hmem r hr with hr | rfl
    · have hle : r.sequence ≤ w.db.lastSequence.toNat := h.le r hr
      omega
    · omega
  · show (older ++ (current ++ _)).Pairwise _
    rw [← List.append_assoc]
    refine List.pairwise_append.2 ⟨h.increasing, List.pairwise_singleton _ _, ?_⟩
    intro r hr r' hr'
    obtain rfl := List.mem_singleton.1 hr'
    have hle : r.sequence ≤ w.db.lastSequence.toNat := h.le r hr
    omega
  · exact ⟨_, List.mem_append_right _ (List.mem_singleton_self _), hseq.trans hnext.symm⟩

/-- A switch of memtables starts an empty log. The write behind it puts its record there. -/
theorem Counted.rotated (h : Counted ⟨w, older, current⟩) : Counted ⟨w.rotated, older ++ current, []⟩ := by
  refine ⟨rfl, World.rotated_logs (h.above _ (Nat.lt_succ_self _)), ?_, ?_, ?_, ?_, ?_⟩
  · intro n hn
    have hn' : w.db.walNumber + 1 < n := hn
    exact (Function.update_of_ne hn'.ne' _ _).trans (h.above n (Nat.lt_of_succ_lt hn'))
  · intro himm
    exact absurd himm (by simp [World.rotated])
  · simpa only [records, List.append_nil] using h.sized
  · simpa only [records, List.append_nil, World.rotated] using h.le
  · simpa only [records, List.append_nil] using h.increasing

/-- **A clean reopening reads `last_sequence_` back from the log**, when the reader takes every
record in it. -/
theorem Numbered.reopened (h : Numbered ⟨w, older, current⟩) (hfiles : w.Files) (himm : w.db.imm = none)
    (hshort : ∀ r ∈ current, r.Short) {options : Options} {heights : ℕ → ℕ} {db : DB} {ops : List FsOp}
    (hrec : DB.recover options w.disk heights = .ok (db, ops)) :
    db.walNumber = w.db.walNumber ∧ Numbered ⟨{ w with db := db, disk := w.disk.run ops }, older, current⟩ := by
  obtain ⟨next, hrecorded⟩ := h.recorded himm
  obtain ⟨mem, seq, ⟨_, rfl, -, hseq⟩, heq⟩ := World.recover_eq options heights (hfiles.readManifest hrecorded)
  have hlog : w.disk.logs w.db.walNumber = some (logBytes current) := h.log
  rw [hlog, Option.map_some, Option.getD_some, WALReader.recover_addRecords hshort] at hseq
  rw [heq] at hrec
  obtain ⟨rfl, rfl⟩ := Prod.ext_iff.1 (Except.ok.inj hrec)
  have hlast : seq.toNat = w.db.lastSequence.toNat := by
    have hsized : ∀ r ∈ current, 8 ≤ r.key.length := fun r hr => h.sized r (List.mem_append_right _ hr)
    rw [hseq, replayAll_lastSequence hsized]
    refine foldl_max_eq ?_ ?_
    · intro x hx
      obtain ⟨r, hr, rfl⟩ := List.mem_map.1 hx
      exact h.le r (List.mem_append_right _ hr)
    · rcases h.last with hzero | ⟨r, hr, hr'⟩
      · exact Or.inl hzero
      · exact Or.inr (hr' ▸ List.mem_map_of_mem hr)
  have hself : (w.disk.run [.openLog w.db.walNumber]).logs w.db.walNumber = some (logBytes current) := by
    refine (Function.update_self _ _ _).trans ?_
    rw [hlog, Option.getD_some]
  refine ⟨rfl, h.keep ?_ ?_ ?_ ?_ ?_⟩
  · exact h.wal.symm
  · rfl
  · exact UInt64.toNat_inj.1 hlast
  · funext n
    rcases eq_or_ne n w.db.walNumber with rfl | hn
    · exact hself.trans hlog.symm
    · exact Function.update_of_ne hn _ _
  · intro _
    exact ⟨next, hrecorded.keep rfl rfl⟩

/-- **No step numbers a record twice.** -/
theorem Numbered.moves (h : Numbered ⟨w, older, current⟩) (hfiles : w.Files) {l : Label}
    (hok : Plain ⟨w, older, current⟩ l) (hstep : w.step l = some w') :
    w'.db.walNumber = w.db.walNumber ∧ Numbered ⟨w', older, current ++ w.logged l⟩ ∨
      w'.db.walNumber ≠ w.db.walNumber ∧ Numbered ⟨w', older ++ current, w.logged l⟩ := by
  -- most steps stay on the log and write nothing to it
  have hquiet : w'.db.walNumber = w.db.walNumber → w.logged l = [] → Numbered ⟨w', older, current⟩ →
      w'.db.walNumber = w.db.walNumber ∧ Numbered ⟨w', older, current ++ w.logged l⟩ ∨
        w'.db.walNumber ≠ w.db.walNumber ∧ Numbered ⟨w', older ++ current, w.logged l⟩ := by
    intro hnum hnone hn
    rw [hnone, List.append_nil]
    exact Or.inl ⟨hnum, hn⟩
  cases World.step_event hstep with
  | @wrote op height n walOpens hroom hwal =>
    obtain rfl : w.db.walNumber = n := Option.some.inj (h.wal.symm.trans hwal)
    have hone : w.logged (.write op height walOpens) = [op.record (w.db.lastSequence + 1)] := by
      simp [World.logged, hroom]
    rw [hone]
    exact Or.inl ⟨rfl, h.toCounted.wrote hok.2 op height⟩
  | @waits op height walOpens hroom himm =>
    have hnone : w.logged (.write op height walOpens) = [] := by
      simp [World.logged, hroom, himm]
    exact hquiet rfl hnone (h.keep rfl rfl rfl rfl h.recorded)
  | @rotated op height n ws l hl himm hwal =>
    have hone : w.logged l = [op.record (w.db.lastSequence + 1)] := by
      rcases hl with ⟨rfl, -, -⟩ | ⟨i, rfl, hop, -⟩
      · simp [World.logged, himm]
      · simp [World.logged, hop]
    have hlt : w.db.lastSequence.toNat + 1 < 2 ^ 56 := by
      rcases hl with ⟨rfl, -, -⟩ | ⟨i, rfl, -, -⟩
      · exact hok.2
      · exact hok.2
    have hc : Counted ⟨{ w with waiting := ws }, older, current⟩ :=
      ⟨h.wal, h.log, h.above, h.recorded, h.sized, h.le, h.increasing⟩
    rw [hone]
    exact Or.inr ⟨Nat.succ_ne_self _, hc.rotated.wrote hlt op height⟩
  | @rotateFailed op height n ws l hl himm hwal =>
    rcases hl with ⟨rfl, -, -⟩ | ⟨i, rfl, -, -⟩
    · exact absurd hok.1 (by decide)
    · exact absurd hok.1 (by decide)
  | flushBegun =>
    exact hquiet rfl rfl (h.keep rfl rfl rfl rfl h.recorded)
  | flushBuilt =>
    exact hquiet rfl rfl (h.keep rfl rfl rfl rfl h.recorded)
  | @flushNotBuilt i job faults opens ops hjob hres hbad hops =>
    refine hquiet rfl rfl (h.keep rfl rfl rfl ?_ ?_)
    · rcases hops with rfl | rfl <;> rfl
    · intro himm
      obtain ⟨next, hrec⟩ := h.recorded himm
      refine ⟨next, hrec.keep rfl ?_⟩
      rcases hops with rfl | rfl <;> rfl
  | @flushCommitted i job t m hjob hres himm =>
    refine hquiet rfl rfl (h.keep rfl rfl rfl (by rw [World.flushCommitted_disk]) ?_)
    intro _
    exact ⟨_, World.recorded_of_written (World.flushCommitted_disk w i t)⟩
  | flushFailed =>
    exact hquiet rfl rfl (h.keep rfl rfl rfl rfl h.recorded)
  | @flushDropped i job m hjob hres hp himm =>
    refine hquiet rfl rfl (h.keep rfl rfl rfl (by rw [World.flushDropped_disk]) ?_)
    intro _
    exact ⟨_, World.recorded_of_written (World.flushDropped_disk w i)⟩
  | compactionBegun =>
    exact hquiet rfl rfl (h.keep rfl rfl rfl rfl h.recorded)
  | outputWritten =>
    exact hquiet rfl rfl (h.keep rfl rfl rfl rfl h.recorded)
  | outputFailed =>
    exact hquiet rfl rfl (h.keep rfl rfl rfl rfl h.recorded)
  | @compactionCommitted i job hjob =>
    obtain ⟨gone0, gone1, -, -, -, -, -, -, hops⟩ :=
      World.compactCommit_spec w.db job.l0Snapshot job.l1Indices job.newLevel1
    have hdisk := World.compactionCommitted_disk w i job hops
    obtain ⟨hlogs, -, -⟩ := Disk.run_unlink w.disk (job.l0Snapshot ++ gone1)
    refine hquiet rfl rfl (h.keep rfl rfl rfl (by rw [hdisk]; exact hlogs) ?_)
    intro _
    exact ⟨_, World.recorded_of_written hdisk⟩
  | @compactionFailed i job hjob =>
    obtain ⟨hlogs, hm, -⟩ := Disk.run_unlink w.disk job.newLevel1
    refine hquiet rfl rfl (h.keep rfl rfl rfl hlogs ?_)
    intro himm
    obtain ⟨next, hrec⟩ := h.recorded himm
    exact ⟨next, hrec.keep rfl hm⟩
  | reopened himm _ _ _ hrec =>
    obtain ⟨hnum, hnumbered⟩ := h.reopened hfiles himm hok hrec
    exact hquiet hnum rfl hnumbered

theorem Numbered.step (h : s.Numbered) (hfiles : s.world.Files) {l : Label} (hok : Plain s l)
    (hstep : s.step l = some s') : s'.Numbered := by
  obtain ⟨w', hw, hs⟩ := Option.bind_eq_some_iff.1 hstep
  rcases h.moves hfiles hok hw with ⟨hnum, hn⟩ | ⟨hnum, hn⟩
  · rw [if_pos hnum] at hs
    exact Option.some.inj hs ▸ hn
  · rw [if_neg hnum] at hs
    exact Option.some.inj hs ▸ hn

/-- The database of a sequenced run is a run of the database. -/
theorem world_of_reach {options : Options} {ok : Sequenced → Label → Prop}
    (h : Reach step ok (fresh options) s) :
    Reach World.step (fun _ _ => True) (World.fresh options) s.world := by
  refine Reach.map Sequenced.world ?_ h
  intro s l s' _ hs
  obtain ⟨w', hw, hs⟩ := Option.bind_eq_some_iff.1 hs
  refine .next .start trivial (hw.trans ?_)
  split at hs <;> rw [← Option.some.inj hs]

theorem numbered_of_reach {options : Options} (h : Reach step Plain (fresh options) s) : s.Numbered :=
  Reach.invariant_of (fun _ hr => World.files_of_reach (world_of_reach hr)) (fresh_numbered options)
    (fun _ _ _ hf hn hok hs => hn.step hf hok hs) h

/-- **Sequence numbers go up** over all records ever written to the directory. -/
theorem increasing_of_reach {options : Options} (h : Reach step Plain (fresh options) s) :
    s.records.Pairwise fun r r' => r.sequence < r'.sequence :=
  (numbered_of_reach h).increasing

theorem increasing_of_reach_reopenRun : ∃ s,
    run step Plain (fresh { writeBufferSize := 1 }) World.reopenRun = some s ∧
      s.records.map Record.sequence = [1, 2] ∧
      s.records.Pairwise fun r r' => r.sequence < r'.sequence := by
  have hrun : (run step Plain (fresh { writeBufferSize := 1 }) World.reopenRun).map
      (fun s => s.records.map Record.sequence) = some [1, 2] := by decide +kernel
  obtain ⟨s, hs, hseq⟩ := Option.map_eq_some_iff.1 hrun
  exact ⟨s, hs, hseq, increasing_of_reach (reach_of_run hs)⟩

/-! ## A log that the reader refuses -/

/-- The logs that writes open do open. -/
def Opens (_ : Sequenced) : Label → Prop
  | .write _ _ walOpens => walOpens = true
  | .wake _ _ walOpens => walOpens = true
  | _ => True

/-- A first write with a long value, a clean reopening, and another write. -/
theorem repeats_of_long {value : Bytes} (hlong : 2 ^ 28 ≤ value.length) (hsize : value.length < 2 ^ 32) :
    ∃ s, Reach step Opens (fresh {}) s ∧ s.records =
      [(DB.WriteOp.put [97] value).record 1, (DB.WriteOp.put [97] []).record 1] := by
  have hstops : WALReader.recover (logBytes [(DB.WriteOp.put [97] value).record 1]) = [] := by
    have hr : ((DB.WriteOp.put [97] value).record 1).Sized := by
      refine ⟨?_, hsize⟩
      show (makeInternalKey [97] 1 .value).length < 2 ^ 32
      decide
    have hn : ¬((DB.WriteOp.put [97] value).record 1).Short := fun h => absurd h.value (not_lt.2 hlong)
    refine WALReader.Stops.recoverLoop ?_ _
    simpa only [logBytes, List.map_cons, List.map_nil, List.flatten_cons, List.flatten_nil] using
      WALReader.stops_of_long hr hn []
  have hlogs : ((World.fresh {}).wrote (.put [97] value) 1 1).disk.logs 1 =
      some (logBytes [(DB.WriteOp.put [97] value).record 1]) :=
    @World.wrote_logs (World.fresh {}) [] 1 rfl (.put [97] value) 1
  have hrec : DB.recover {} ((World.fresh {}).wrote (.put [97] value) 1 1).disk (fun _ => 1) =
      .ok ({ options := {}, wal := some 1 }, [.openLog 1]) := by
    obtain ⟨mem, seq, ⟨_, rfl, hmem, hseq⟩, heq⟩ := World.recover_eq {} (fun _ => 1)
      (show ((World.fresh {}).wrote (.put [97] value) 1 1).disk.readManifest = .ok {} from rfl)
    rw [show ({} : Manifest).walNumber = 1 from rfl, hlogs, Option.map_some, Option.getD_some, hstops] at hmem hseq
    rw [heq, hmem, hseq]
    rfl
  have hwrite : step (fresh {}) (.write (.put [97] value) 1 true) =
      some ⟨(World.fresh {}).wrote (.put [97] value) 1 1, [], [(DB.WriteOp.put [97] value).record 1]⟩ := rfl
  have hreopen : step ⟨(World.fresh {}).wrote (.put [97] value) 1 1, [],
      [(DB.WriteOp.put [97] value).record 1]⟩ (.reopen {} fun _ => 1) =
        some ⟨((World.fresh {}).wrote (.put [97] value) 1 1).commit
          ({ options := {}, wal := some 1 }, [.openLog 1]), [], [(DB.WriteOp.put [97] value).record 1]⟩ := by
    have hw : ((World.fresh {}).wrote (.put [97] value) 1 1).step (.reopen {} fun _ => 1) =
        some (((World.fresh {}).wrote (.put [97] value) 1 1).commit
          ({ options := {}, wal := some 1 }, [.openLog 1])) := by
      rw [World.step, hrec]
      rfl
    rw [step, hw]
    rfl
  have hopens : ∀ (s : Sequenced) (v : Bytes), Opens s (.write (.put [97] v) 1 true) := fun _ _ => rfl
  have hany : ∀ s : Sequenced, Opens s (.reopen {} fun _ => 1) := fun _ => trivial
  exact ⟨_, .next (.next (.next .start (hopens _ value) hwrite) (hany _) hreopen) (hopens _ []) rfl, rfl⟩

/-- **The number of a long record is given out again** after a reopening. -/
theorem number_repeats : ∃ s, Reach step Opens (fresh {}) s ∧ s.records.map Record.sequence = [1, 1] ∧
    ¬s.records.Pairwise fun r r' => r.sequence < r'.sequence := by
  obtain ⟨s, hs, hrs⟩ := @repeats_of_long (List.replicate (2 ^ 28) 0)
    (by rw [List.length_replicate]) (by rw [List.length_replicate]; decide)
  have hseq : s.records.map Record.sequence = [1, 1] := by
    rw [hrs, List.map_cons, List.map_singleton, sequence_record _ (by decide), sequence_record _ (by decide)]
    rfl
  refine ⟨s, hs, hseq, fun hp => ?_⟩
  have hmap : (s.records.map Record.sequence).Pairwise (· < ·) := List.pairwise_map.2 hp
  rw [hseq] at hmap
  exact absurd hmap (by decide)

end Sequenced

end MiniLSM
