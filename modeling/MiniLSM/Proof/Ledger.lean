import MiniLSM.Proof.Log

/-!
# The records of the memtables

A call that is acknowledged has put its record, with the number it got, into the log and its entry
into `mem_`. `Ledger` is a database with the records that its memtables hold, in the order of the
calls: a switch hands those of `mem_` to `imm_`, the end of a flush drops those of `imm_`, and
`Recover` finds those of `mem_` in the log.

* `held_of_reach`: replaying the records gives `mem_` and `imm_`, in every run.
* `logExact_of_reach`: the log in use holds the records of `mem_` and no others, as long as every log
  opens.
-/

namespace MiniLSM

open Transition WALWriter

/-! ## The records of a step -/

/-- The call that a step makes or goes on with. -/
def World.callOf (w : World) : Label → Option DB.WriteOp
  | .write op _ _ => some op
  | .wake i _ _ => w.waiting[i]?
  | _ => none

/-- The record of the call that a step to `w'` acknowledges, under the number that it got. -/
def World.acknowledged (w w' : World) (l : Label) : List Record :=
  if w'.acked.length = w.acked.length then []
  else ((w.callOf l).map (·.record w'.db.lastSequence)).toList

/-- A database with the records of `mem_` and `imm_`, oldest first. -/
structure Ledger where
  world : World
  mem : List Record := []
  imm : List Record := []

namespace Ledger

/-- The records of `mem_` behind a step to `w`. -/
def memIn (s : Ledger) (l : Label) (w : World) : List Record :=
  match l with
  | .reopen _ _ => ((s.world.disk.logs w.db.walNumber).map WALReader.recover).getD []
  | _ =>
    -- the call that switches memtables is acknowledged behind the switch
    (if s.world.db.imm.isNone && w.db.imm.isSome then [] else s.mem) ++ s.world.acknowledged w l

/-- The records of `imm_` behind a step to `w`. -/
def immIn (s : Ledger) (w : World) : List Record :=
  if w.db.imm.isNone then [] else if s.world.db.imm.isNone then s.mem else s.imm

/-- A step, with the records that change hands. -/
def step (s : Ledger) (l : Label) : Option Ledger :=
  (s.world.step l).map fun w => { world := w, mem := s.memIn l w, imm := s.immIn w }

/-- An empty directory. -/
def fresh (options : Options) : Ledger := { world := World.fresh options }

variable {s s' : Ledger} {w : World} {l : Label}

/-- A step that acknowledges nothing and does not fill `imm_`. -/
theorem memIn_same (hl : ∀ options heights, l ≠ .reopen options heights) (hacked : w.acked = s.world.acked)
    (himm : s.world.db.imm = none → w.db.imm = none) : s.memIn l w = s.mem := by
  have hnot : (s.world.db.imm.isNone && w.db.imm.isSome) = false := by
    cases hs : s.world.db.imm with
    | none => rw [himm hs]; rfl
    | some m => rfl
  have hnone : s.world.acknowledged w l = [] := by rw [World.acknowledged, hacked, if_pos rfl]
  cases l with
  | reopen options heights => exact absurd rfl (hl options heights)
  | _ => simp only [memIn, hnot, hnone, Bool.false_eq_true, if_false, List.append_nil]

/-- A step that acknowledges a call. -/
theorem memIn_acknowledged {op : DB.WriteOp} {p : Bytes × Bytes} (hcall : s.world.callOf l = some op)
    (hacked : w.acked = p :: s.world.acked) :
    s.memIn l w = (if s.world.db.imm.isNone && w.db.imm.isSome then [] else s.mem) ++
      [op.record w.db.lastSequence] := by
  have hone : s.world.acknowledged w l = [op.record w.db.lastSequence] := by
    rw [World.acknowledged, hacked, hcall, if_neg (by simp)]
    rfl
  cases l with
  | reopen options heights => cases hcall
  | _ => simp only [memIn, hone]

theorem memIn_wrote {op : DB.WriteOp} {height n : ℕ} {walOpens : Bool} :
    s.memIn (.write op height walOpens) (s.world.wrote op height n) =
      s.mem ++ [op.record (s.world.db.lastSequence + 1)] := by
  have hcall : s.world.callOf (.write op height walOpens) = some op := rfl
  rw [memIn_acknowledged hcall rfl]
  cases hs : s.world.db.imm <;> simp [World.wrote, hs]

theorem memIn_switched {op : DB.WriteOp} {p : Bytes × Bytes} (hcall : s.world.callOf l = some op)
    (hacked : w.acked = p :: s.world.acked) (himm : s.world.db.imm = none) (hsome : w.db.imm.isSome = true) :
    s.memIn l w = [op.record w.db.lastSequence] := by
  rw [memIn_acknowledged hcall hacked, himm, hsome]
  rfl

theorem immIn_same (himm : w.db.imm = s.world.db.imm) (hnone : s.world.db.imm = none → s.imm = []) :
    s.immIn w = s.imm := by
  rw [immIn, himm]
  cases hs : s.world.db.imm with
  | none => exact (hnone hs).symm
  | some m => rfl

/-- A run seen without the records. -/
theorem reach_world {ok : World → Label → Prop} {options : Options}
    (h : Reach step (fun s l => ok s.world l) (fresh options) s) :
    Reach World.step ok (World.fresh options) s.world :=
  Reach.map Ledger.world (fun s l s' hok hs => by
    obtain ⟨w, hw, rfl⟩ := Option.map_eq_some_iff.1 hs
    exact .next .start hok hw) h

/-! ## They make up the memtables -/

/-- **Replaying the records gives the memtables.** -/
structure Held (s : Ledger) : Prop where
  mem : s.world.db.mem.Same (replayed s.mem)
  imm : ∀ m, s.world.db.imm = some m → m.Same (replayed s.imm)
  empty : s.world.db.imm = none → s.imm = []

theorem fresh_held (options : Options) : (fresh options).Held :=
  ⟨⟨rfl, rfl⟩, fun _ h => (Option.some_ne_none _ h.symm).elim, fun _ => rfl⟩

/-- Steps that leave `mem_` alone, and `imm_` or give it up. -/
theorem Held.keep (h : s.Held) (hl : ∀ options heights, l ≠ .reopen options heights)
    (hacked : w.acked = s.world.acked) (hmem : w.db.mem = s.world.db.mem)
    (himm : w.db.imm = s.world.db.imm ∨ w.db.imm = none) :
    Held { world := w, mem := s.memIn l w, imm := s.immIn w } := by
  rw [memIn_same hl hacked fun hnone => himm.elim (fun heq => heq.trans hnone) id]
  rcases himm with himm | hnone
  · rw [immIn_same himm h.empty]
    exact ⟨hmem ▸ h.mem, fun m hm => h.imm m (himm ▸ hm), fun hm => h.empty (himm ▸ hm)⟩
  · refine ⟨hmem ▸ h.mem, fun m hm => ?_, fun _ => by rw [immIn, hnone]; rfl⟩
    cases hnone.symm.trans hm

theorem Held.step (h : s.Held) (hstep : s.step l = some s') : s'.Held := by
  obtain ⟨w, hw, rfl⟩ := Option.map_eq_some_iff.1 hstep
  cases World.step_event hw with
  | @wrote op height n walOpens =>
    have himm : s.immIn (s.world.wrote op height n) = s.imm := immIn_same rfl h.empty
    rw [memIn_wrote, himm]
    refine ⟨?_, h.imm, h.empty⟩
    rw [replayed_append, entry_record]
    exact h.mem.add _ _ _ _
  | @rotated op height n ws l hl himm hwal =>
    have hcall : s.world.callOf l = some op := by
      rcases hl with ⟨rfl, -⟩ | ⟨i, rfl, hop, -⟩
      · rfl
      · exact hop
    rw [memIn_switched hcall rfl himm rfl]
    refine ⟨?_, fun m hm => ?_, fun hm => by cases hm⟩
    · rw [← List.nil_append [_], replayed_append, entry_record]
      exact MemTable.Same.add ⟨rfl, rfl⟩ _ _ _ _
    · -- the records of `mem_` are handed on
      obtain rfl : s.world.db.mem = m := Option.some.inj hm
      rw [immIn, himm]
      exact h.mem
  | @waits | @flushBegun | @flushBuilt | @flushNotBuilt | @flushFailed | @compactionBegun | @outputWritten
  | @outputFailed | @compactionCommitted | @compactionFailed =>
    exact h.keep (by rintro _ _ ⟨⟩) rfl rfl (.inl rfl)
  | @rotateFailed op height n ws l hl =>
    exact h.keep (by rcases hl with ⟨rfl, -⟩ | ⟨i, rfl, -⟩ <;> rintro _ _ ⟨⟩) rfl rfl (.inl rfl)
  | @flushCommitted | @flushDropped => exact h.keep (by rintro _ _ ⟨⟩) rfl rfl (.inr rfl)
  | @reopened options heights db ops himm _ _ _ hrec =>
    obtain ⟨m, mem, seq, hmem, rfl⟩ := World.recover_ok hrec
    refine ⟨?_, fun m hm => (Option.some_ne_none _ hm.symm).elim, fun _ => rfl⟩
    exact hmem ▸ replayAll_same _ rfl _ heights

theorem held_of_reach {ok : Ledger → Label → Prop} {options : Options}
    (h : Reach step ok (fresh options) s) : s.Held :=
  Reach.invariant (fresh_held options) (fun _ _ _ hi _ hs => hi.step hs) h

/-! ## They make up the log -/

/-- The logs that writes open do open, and records are short. -/
def LogsOpen (s : Ledger) (l : Label) : Prop := World.LogsOpen s.world l

instance (s : Ledger) (l : Label) : Decidable (LogsOpen s l) :=
  inferInstanceAs (Decidable (World.LogsOpen s.world l))

/-- **The log in use holds the records of `mem_`**, all of them and no others. -/
structure Exact (s : Ledger) : Prop where
  log : s.world.disk.logs s.world.db.walNumber = some (logBytes s.mem)
  short : ∀ r ∈ s.mem, r.Short

theorem fresh_exact (options : Options) : (fresh options).Exact := ⟨rfl, by simp [fresh]⟩

theorem Exact.keep (h : s.Exact) (hl : ∀ options heights, l ≠ .reopen options heights)
    (hacked : w.acked = s.world.acked) (himm : s.world.db.imm = none → w.db.imm = none)
    (hnum : w.db.walNumber = s.world.db.walNumber) (hlogs : w.disk.logs = s.world.disk.logs) :
    Exact { world := w, mem := s.memIn l w, imm := s.immIn w } := by
  rw [memIn_same hl hacked himm]
  exact ⟨by rw [hlogs, hnum]; exact h.log, h.short⟩

/-- **Opening the database again** finds the records in the log that the MANIFEST names. -/
theorem memIn_reopened (hfiles : s.world.Files) {next n : ℕ} (hrecorded : s.world.Recorded next n)
    (hlog : s.world.disk.logs n = some (logBytes s.mem)) (hshort : ∀ r ∈ s.mem, r.Short) {options : Options}
    {heights : ℕ → ℕ} {db : DB} {ops : List FsOp}
    (hrec : DB.recover options s.world.disk heights = .ok (db, ops)) :
    s.memIn (.reopen options heights) { s.world with db := db, disk := s.world.disk.run ops } = s.mem ∧
      ops = [.openLog n] ∧ (s.world.disk.run ops).logs n = some (logBytes s.mem) ∧ db.wal = some n ∧
      db.walNumber = n ∧ db.levels = s.world.db.levels ∧ db.imm = none := by
  obtain ⟨db', heq, -, hwal, hnum, hlevels, himm⟩ := hfiles.recover_log hrecorded hlog hshort options heights
  obtain ⟨rfl, rfl⟩ : db' = db ∧ _ = ops := by
    rw [heq] at hrec
    exact Prod.ext_iff.1 (Except.ok.inj hrec)
  refine ⟨?_, rfl, ?_, hwal, hnum, hlevels, himm⟩
  · rw [memIn, hnum, hlog, Option.map_some, Option.getD_some, WALReader.recover_addRecords hshort]
  · refine (Function.update_self _ _ _).trans ?_
    rw [hlog, Option.getD_some]

theorem Exact.step (h : s.Exact) (hlogged : s.world.Logged) (hfiles : s.world.Files) (hok : LogsOpen s l)
    (hstep : s.step l = some s') : s'.Exact := by
  obtain ⟨w, hw, rfl⟩ := Option.map_eq_some_iff.1 hstep
  cases World.step_event hw with
  | @wrote op height n walOpens _ hwal =>
    obtain rfl : s.world.db.walNumber = n := by rw [hlogged.wal] at hwal; exact Option.some.inj hwal
    rw [memIn_wrote]
    refine ⟨World.wrote_logs h.log op height, fun r hr => ?_⟩
    rcases List.mem_append.1 hr with hr | hr
    · exact h.short r hr
    · obtain rfl := List.mem_singleton.1 hr
      exact hok.1.record _
  | @rotated op height n ws l hl himm hwal =>
    have hop : s.world.callOf l = some op ∧ op.Short := by
      rcases hl with ⟨rfl, -⟩ | ⟨i, rfl, hop, -⟩
      · exact ⟨rfl, hok.1⟩
      · exact ⟨hop, hlogged.waiting op (List.mem_of_getElem? hop)⟩
    rw [memIn_switched hop.1 rfl himm rfl]
    -- the log of the switch is a new one
    have hlog : ({ s.world with waiting := ws } : World).rotated.disk.logs (s.world.db.walNumber + 1) =
        some (logBytes []) := World.rotated_logs (hlogged.above _ (Nat.lt_succ_self _))
    refine ⟨World.wrote_logs hlog op height, fun r hr => ?_⟩
    obtain rfl := List.mem_singleton.1 hr
    exact hop.2.record _
  | @rotateFailed op height n ws l hl =>
    rcases hl with ⟨rfl, -⟩ | ⟨i, rfl, -⟩
    · exact absurd hok.2 (by decide)
    · exact absurd hok (by simp [LogsOpen, World.LogsOpen])
  | waits | flushBegun | flushBuilt | flushFailed | compactionBegun | outputWritten | outputFailed =>
    exact h.keep (by rintro _ _ ⟨⟩) rfl id rfl rfl
  | @flushNotBuilt i job faults opens ops _ _ _ hops =>
    exact h.keep (by rintro _ _ ⟨⟩) rfl id rfl (by rcases hops with rfl | rfl <;> rfl)
  | flushCommitted => exact h.keep (by rintro _ _ ⟨⟩) rfl (fun _ => rfl) rfl (by rw [World.flushCommitted_disk])
  | flushDropped => exact h.keep (by rintro _ _ ⟨⟩) rfl (fun _ => rfl) rfl (by rw [World.flushDropped_disk])
  | @compactionCommitted i job =>
    obtain ⟨gone0, gone1, -, -, -, -, -, -, hops⟩ :=
      World.compactCommit_spec s.world.db job.l0Snapshot job.l1Indices job.newLevel1
    have hdisk := World.compactionCommitted_disk s.world i job hops
    obtain ⟨hlogs, -, -⟩ := Disk.run_unlink s.world.disk (job.l0Snapshot ++ gone1)
    exact h.keep (by rintro _ _ ⟨⟩) rfl id rfl (by rw [hdisk]; exact hlogs)
  | @compactionFailed i job =>
    exact h.keep (by rintro _ _ ⟨⟩) rfl id rfl (Disk.run_unlink s.world.disk job.newLevel1).1
  | @reopened options heights db ops himm _ _ _ hrec =>
    obtain ⟨next, hrecorded⟩ := hlogged.recorded himm
    obtain ⟨hmem, -, hlog, -, hnum, -, -⟩ := memIn_reopened hfiles hrecorded h.log h.short hrec
    rw [hmem]
    exact ⟨by rw [hnum]; exact hlog, h.short⟩

theorem logExact_of_reach {options : Options} (h : Reach step LogsOpen (fresh options) s) : s.Exact :=
  Reach.invariant_of
    (fun _ hr => (⟨World.logged_of_reach (reach_world hr), World.files_of_reach (reach_world hr)⟩ :
      World.Logged _ ∧ World.Files _))
    (fresh_exact options) (fun _ _ _ hf hi hok hs => hi.step hf.1 hf.2 hok hs) h

end Ledger

end MiniLSM
