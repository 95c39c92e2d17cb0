import MiniLSM.Proof.Crash

/-!
# What a failed switch and a failed flush leave

A switch of memtables whose log does not open gives `mem_` back, but neither the number nor the
log. A flush without a table gives up `imm_`, except in `BackgroundFlush`; what is left then is
the log that the MANIFEST names, and that is the one opened by the switch, after the entries of
`imm_` were logged.

* `failedSwitch_undone`: a failed `MakeRoomForWrite` is never undone, and every write behind it
  uses the null `wal_`.
* `Switched`: runs with the writes since the last switch; `Behind` is what the logs hold there.
* `failedFlush_retains_iff`: the end of a failed flush gives up no entry if and only if the path
  keeps `imm_` or the current log has its entries too.
-/

namespace MiniLSM

open Transition WALWriter

namespace World

variable {w w' : World}

/-! ## A failed switch -/

/-- The call goes through the switch of memtables, and the new log does not open. -/
def switchFails (w : World) : Label → Bool
  | .write _ _ walOpens => !w.db.hasRoom && w.db.imm.isNone && !walOpens
  | .wake _ _ walOpens => w.db.imm.isNone && !walOpens
  | _ => false

/-- The call dereferences `wal_`, which is null. -/
def usesNull (w : World) : Label → Bool
  | .write _ _ _ => w.db.wal.isNone && (w.db.hasRoom || w.db.imm.isNone)
  | .wake i _ _ => w.db.wal.isNone && w.waiting[i]?.isSome && w.db.imm.isNone
  | _ => false

/-- The database is not closed. -/
def StaysOpen (_ : World) : Label → Prop
  | .reopen _ _ => False
  | _ => True

/-- A failed switch is undone: memory, log number and log are as before, and no later call uses
a null `wal_`. -/
structure Undone (w w' : World) : Prop where
  mem : w'.db.mem = w.db.mem
  imm : w'.db.imm = w.db.imm
  walNumber : w'.db.walNumber = w.db.walNumber
  wal : w'.db.wal = w.db.wal
  noNull : ∀ w'', Reach World.step StaysOpen w' w'' → ∀ l, w''.usesNull l = false

/-- A call on the null `wal_` has no outcome. -/
theorem step_usesNull {l : Label} (h : w.usesNull l = true) : w.step l = none := by
  cases l with
  | write op height walOpens =>
    simp only [usesNull, Bool.and_eq_true, Bool.or_eq_true, Option.isNone_iff_eq_none] at h
    obtain ⟨hwal, h⟩ := h
    by_cases hroom : w.db.hasRoom = true
    · simp [World.step, hroom, writeNow, DB.write, hwal]
    · have himm := h.resolve_left hroom
      simp [World.step, hroom, himm, rotateAndWrite, DB.rotate, hwal]
  | wake i height walOpens =>
    simp only [usesNull, Bool.and_eq_true, Option.isNone_iff_eq_none] at h
    obtain ⟨⟨hwal, -⟩, himm⟩ := h
    cases hop : w.waiting[i]? <;> simp [World.step, hop, himm, rotateAndWrite, DB.rotate, hwal]
  | _ => cases h

/-- **Without a log nothing becomes `imm_`**, and no call brings the log back. -/
theorem noLog_step (hwal : w.db.wal = none) (himm : w.db.imm = none) {l : Label} (hok : StaysOpen w l)
    (hstep : w.step l = some w') : w'.db.wal = none ∧ w'.db.imm = none := by
  cases step_event hstep with
  | wrote _ h => rw [hwal] at h; cases h
  | waits => exact ⟨hwal, himm⟩
  | rotated _ _ h => rw [hwal] at h; cases h
  | rotateFailed => exact ⟨rfl, himm⟩
  | flushBegun h => rw [himm] at h; cases h
  | flushBuilt => exact ⟨hwal, himm⟩
  | flushNotBuilt => exact ⟨hwal, himm⟩
  | flushCommitted => exact ⟨hwal, rfl⟩
  | flushFailed => exact ⟨hwal, himm⟩
  | flushDropped => exact ⟨hwal, rfl⟩
  | compactionBegun => exact ⟨hwal, himm⟩
  | outputWritten => exact ⟨hwal, himm⟩
  | outputFailed => exact ⟨hwal, himm⟩
  | compactionCommitted => exact ⟨hwal, himm⟩
  | compactionFailed => exact ⟨hwal, himm⟩
  | reopened => exact hok.elim

/-- What a failed switch does. -/
theorem switchFails_event {l : Label} (hfails : w.switchFails l = true) (hstep : w.step l = some w') :
    w.db.imm = none ∧ (∃ n, w.db.wal = some n) ∧
      w'.db = { w.db with walNumber := w.db.walNumber + 1, wal := none } ∧ w'.disk = w.disk ∧
      w'.acked = w.acked := by
  cases step_event hstep with
  | wrote hroom =>
    simp only [switchFails, hroom] at hfails
    cases hfails
  | waits _ himm =>
    simp only [switchFails, Bool.and_eq_true, Option.isNone_iff_eq_none] at hfails
    exact absurd hfails.1.2 himm
  | rotated hl =>
    rcases hl with ⟨rfl, -⟩ | ⟨i, rfl, -⟩ <;> simp [switchFails] at hfails
  | rotateFailed _ himm hwal => exact ⟨himm, ⟨_, hwal⟩, rfl, rfl, rfl⟩
  | _ => cases hfails

/-- **A failed `MakeRoomForWrite` is never undone.** It gives `mem_` and `imm_` back, but
`wal_number_` has moved and `wal_` is null; until the database is closed every write finds it null. -/
theorem failedSwitch_undone {l : Label} (hfails : w.switchFails l = true) (hstep : w.step l = some w') :
    ¬Undone w w' ∧ w'.db.mem = w.db.mem ∧ w'.db.imm = w.db.imm ∧
      w'.db.walNumber = w.db.walNumber + 1 ∧ w'.db.wal = none ∧
      ∀ w'', Reach World.step StaysOpen w' w'' → ∀ (op : DB.WriteOp) (height : ℕ) (walOpens : Bool),
        w''.usesNull (.write op height walOpens) = true := by
  obtain ⟨himm, ⟨n, hwal⟩, hdb, -, -⟩ := switchFails_event hfails hstep
  refine ⟨fun h => ?_, by rw [hdb], by rw [hdb], by rw [hdb], by rw [hdb], fun w'' hreach op height walOpens => ?_⟩
  · have hnum := h.walNumber
    rw [hdb] at hnum
    exact absurd hnum (Nat.succ_ne_self _)
  · have hnone : w''.db.wal = none ∧ w''.db.imm = none :=
      Reach.invariant (I := fun w => w.db.wal = none ∧ w.db.imm = none)
        ⟨by rw [hdb], by rw [hdb]; exact himm⟩
        (fun _ _ _ h hok hs => noLog_step h.1 h.2 hok hs) hreach
    simp [usesNull, hnone.1, hnone.2]

/-- A put on a full memtable, the log behind it not opening. -/
theorem failedSwitch_undone_put : ∃ w', (fresh { writeBufferSize := 1 }).step (.write (.put [107] [118]) 1 false) =
    some w' ∧ ¬Undone (fresh { writeBufferSize := 1 }) w' := by
  have hstep : ((fresh { writeBufferSize := 1 }).step (.write (.put [107] [118]) 1 false)).isSome = true := by
    decide +kernel
  obtain ⟨w', hw'⟩ := Option.isSome_iff_exists.1 hstep
  exact ⟨w', hw', (failedSwitch_undone (by decide +kernel) hw').1⟩

/-- **The next put uses the null log.** -/
theorem failedSwitch_null : ∃ w', (fresh { writeBufferSize := 1 }).step (.write (.put [107] [118]) 1 false) =
    some w' ∧ w'.db.wal = none ∧ w'.db.walNumber = 2 ∧
      w'.usesNull (.write (.put [107] [118]) 1 true) = true ∧ ¬Undone (fresh { writeBufferSize := 1 }) w' := by
  have hstep : ((fresh { writeBufferSize := 1 }).step (.write (.put [107] [118]) 1 false)).map (fun w' =>
      (w'.db.wal, w'.db.walNumber, w'.usesNull (.write (.put [107] [118]) 1 true))) =
      some (none, 2, true) := by decide +kernel
  obtain ⟨w', hw', heq⟩ := Option.map_eq_some_iff.1 hstep
  simp only [Prod.mk.injEq] at heq
  obtain ⟨hwal, hnum, hnull⟩ := heq
  refine ⟨w', hw', hwal, hnum, hnull, fun h => ?_⟩
  rw [h.noNull w' .start] at hnull
  cases hnull

/-! ## Failed flushes -/

/-- A flush under way is the only one, and it is that of `imm_`. -/
structure OneFlush (w : World) : Prop where
  idle : w.db.immFlushing = false → w.flushes = []
  busy : w.db.immFlushing = true → ∃ job, w.flushes = [job] ∧ w.db.imm = some job.imm

theorem OneFlush.job (h : w.OneFlush) {i : ℕ} {job : FlushJob} (hi : w.flushes[i]? = some job) :
    w.flushes = [job] ∧ i = 0 ∧ w.db.immFlushing = true ∧ w.db.imm = some job.imm :=
  sole_flush h.idle h.busy hi

/-- Steps that leave the flush and `imm_` alone. -/
theorem OneFlush.keep (h : w.OneFlush) (hf : w'.flushes = w.flushes)
    (hfl : w'.db.immFlushing = w.db.immFlushing) (himm : w'.db.imm = w.db.imm) : w'.OneFlush :=
  ⟨by rw [hf, hfl]; exact h.idle, by rw [hf, hfl, himm]; exact h.busy⟩

theorem OneFlush.ended (h : w.OneFlush) {i : ℕ} {job : FlushJob} (hi : w.flushes[i]? = some job)
    (hf : w'.flushes = w.flushes.eraseIdx i) (hfl : w'.db.immFlushing = false) : w'.OneFlush := by
  obtain ⟨hflushes, rfl, -, -⟩ := h.job hi
  exact ⟨fun _ => by rw [hf, hflushes]; rfl, fun hb => absurd (hfl.symm.trans hb) Bool.false_ne_true⟩

theorem OneFlush.built (h : w.OneFlush) {i : ℕ} {job : FlushJob} (hi : w.flushes[i]? = some job)
    (result : FlushResult) (ops : List FsOp) : (w.flushBuilt i job result ops).OneFlush := by
  obtain ⟨hflushes, rfl, hfl, himm⟩ := h.job hi
  exact ⟨fun hb => absurd (hb.symm.trans hfl) Bool.false_ne_true,
    fun _ => ⟨{ job with result := result }, by simp [flushBuilt, hflushes], himm⟩⟩

theorem OneFlush.step (h : w.OneFlush) {l : Label} (hstep : w.step l = some w') : w'.OneFlush := by
  cases step_event hstep with
  | wrote | waits | rotateFailed => exact h.keep rfl rfl rfl
  | rotated _ himm =>
    have hidle := idle_of_none h.busy (fun job hjob => by rw [hjob]; exact Option.some_ne_none _) himm
    exact ⟨fun _ => h.idle hidle, fun hb => absurd (hidle.symm.trans hb) Bool.false_ne_true⟩
  | @flushBegun path m himm hidle =>
    exact ⟨fun hf => absurd hf.symm Bool.false_ne_true,
      fun _ => ⟨{ path := path, imm := m, number := w.db.nextFileNumber },
        by rw [World.flushBegun, h.idle hidle]; rfl, himm⟩⟩
  | flushBuilt hi | flushNotBuilt hi => exact h.built hi _ _
  | flushCommitted hi | flushFailed hi | flushDropped hi => exact h.ended hi rfl rfl
  | compactionBegun | outputWritten | outputFailed | compactionCommitted | compactionFailed =>
    exact h.keep rfl rfl rfl
  | reopened _ hf _ _ hrec =>
    obtain ⟨m, mem, seq, -, rfl⟩ := recover_ok hrec
    exact ⟨fun _ => hf, fun hb => absurd hb Bool.false_ne_true⟩

/-- The log of `wal_number_` has the entries of a memtable. -/
def InLog (w : World) (m : MemTable) : Prop :=
  ∃ file, w.disk.logs w.db.walNumber = some file ∧
    ∀ p ∈ m.pairs, ∃ r ∈ WALReader.recover file, r.entry = p

/-- No entry of a memtable is given up: it is still `imm_` and can be flushed again, or a
database opened on the directory replays a log with its entries. -/
def Retains (m : MemTable) (w w' : World) : Prop :=
  (w'.db.imm = some m ∧ w'.db.levels = w.db.levels ∧ w'.db.immFlushing = false) ∨
    ∃ manifest file, w'.disk.readManifest = .ok manifest ∧ w'.disk.logs manifest.walNumber = some file ∧
      ∀ p ∈ m.pairs, ∃ r ∈ WALReader.recover file, r.entry = p

end World

/-! ## The log behind a switch -/

/-- A state beside the writes since the last switch of memtables, newest first. -/
structure Switched where
  world : World
  since : List (Bytes × Bytes) := []

namespace Switched

/-- The writes since the last switch in a next state. A step that fills `imm_` has switched before
it acknowledges its write. -/
def sinceIn (s : Switched) (w : World) : List (Bytes × Bytes) :=
  w.acked.take (w.acked.length - s.world.acked.length) ++
    if s.world.db.imm.isNone && w.db.imm.isSome then [] else s.since

/-- A step, with the write that it acknowledges. -/
def step (s : Switched) (l : Label) : Option Switched :=
  (s.world.step l).map fun w => ⟨w, s.sinceIn w⟩

/-- The lengths of the writes since the switch stay below the limit of a log record. -/
def Short (s : Switched) : Prop := ∀ p ∈ s.since, p.1.length + 8 < 2 ^ 28 ∧ p.2.length < 2 ^ 28

/-- **What the logs hold.** No log has a greater number than the one in use; while `imm_` is
null that is the one the MANIFEST names, and else it holds the writes since the switch. -/
structure Behind (s : Switched) : Prop where
  above : ∀ n, s.world.db.walNumber < n → s.world.disk.logs n = none
  inUse : ∀ n, s.world.db.wal = some n → n = s.world.db.walNumber
  named : s.world.db.imm = none → ∃ next n, s.world.Recorded next n ∧
    (∀ k, n < k → s.world.disk.logs k = none) ∧ ∀ k, s.world.db.wal = some k → k = n
  log : s.world.db.imm ≠ none → ∃ rs, s.world.disk.logs s.world.db.walNumber = some (logBytes rs) ∧
    rs.map Record.entry = s.since.reverse ∧ (s.Short → ∀ r ∈ rs, r.Short)

variable {s s' : Switched} {w : World} {since : List (Bytes × Bytes)}

/-- A step that acknowledges nothing and does not fill `imm_` leaves the writes alone. -/
theorem sinceIn_same (hacked : w.acked = s.world.acked) (himm : s.world.db.imm = none → w.db.imm = none) :
    s.sinceIn w = s.since := by
  rw [sinceIn, hacked, Nat.sub_self, List.take_zero, List.nil_append, if_neg]
  intro hb
  rw [Bool.and_eq_true, Option.isNone_iff_eq_none] at hb
  rw [himm hb.1] at hb
  cases hb.2

theorem sinceIn_wrote {p : Bytes × Bytes} (hacked : w.acked = p :: s.world.acked)
    (himm : w.db.imm = s.world.db.imm) : s.sinceIn w = p :: s.since := by
  rw [sinceIn, hacked, himm, List.length_cons, Nat.add_sub_cancel_left]
  cases s.world.db.imm <;> rfl

theorem sinceIn_switched {p : Bytes × Bytes} (hacked : w.acked = p :: s.world.acked)
    (himm : s.world.db.imm = none) (hsome : w.db.imm.isSome = true) : s.sinceIn w = [p] := by
  rw [sinceIn, hacked, himm, hsome, List.length_cons, Nat.add_sub_cancel_left]
  rfl

theorem fresh_behind (options : Options) : Behind { world := World.fresh options } where
  above n hn := Function.update_of_ne (by simpa [World.fresh] using hn.ne') _ _
  inUse n hn := (Option.some.inj hn).symm
  named _ := ⟨1, 1, Or.inr ⟨rfl, rfl, rfl, rfl⟩, fun k hk => Function.update_of_ne hk.ne' _ _,
    fun k hk => (Option.some.inj hk).symm⟩
  log h := absurd rfl h

/-- Steps that leave the logs, the MANIFEST and `imm_` alone. -/
theorem Behind.keep (h : s.Behind) (hs : since = s.since) (himm : w.db.imm = s.world.db.imm) (hwal : w.db.wal = s.world.db.wal)
    (hnum : w.db.walNumber = s.world.db.walNumber) (hlogs : w.disk.logs = s.world.disk.logs)
    (hrec : ∀ next n, s.world.Recorded next n → ∃ next', w.Recorded next' n) :
    Behind ⟨w, since⟩ where
  above n hn := by
    show w.disk.logs n = none
    rw [hlogs]
    exact h.above n (hnum ▸ hn)
  inUse n hn := (h.inUse n (hwal ▸ hn)).trans hnum.symm
  named hnone := by
    obtain ⟨next, n, hr, habove, huse⟩ := h.named (himm.symm.trans hnone)
    obtain ⟨next', hr'⟩ := hrec next n hr
    exact ⟨next', n, hr', by simpa only [hlogs] using habove, by simpa only [hwal] using huse⟩
  log hne := by
    subst hs
    show ∃ rs, w.disk.logs w.db.walNumber = some (logBytes rs) ∧ _
    rw [hlogs, hnum]
    exact h.log (himm ▸ hne)

/-- Sections that write the MANIFEST name the log in use. -/
theorem Behind.written (h : s.Behind) (hs : since = s.since) (himm : w.db.imm = none ∨ w.db.imm = s.world.db.imm)
    (hwal : w.db.wal = s.world.db.wal) (hnum : w.db.walNumber = s.world.db.walNumber)
    (hlogs : w.disk.logs = s.world.disk.logs)
    (hrec : w.Recorded w.db.nextFileNumber w.db.walNumber) : Behind ⟨w, since⟩ where
  above n hn := by
    show w.disk.logs n = none
    rw [hlogs]
    exact h.above n (hnum ▸ hn)
  inUse n hn := (h.inUse n (hwal ▸ hn)).trans hnum.symm
  named _ := by
    refine ⟨_, _, hrec, fun k hk => ?_, fun k hk => (h.inUse k (hwal ▸ hk)).trans hnum.symm⟩
    show w.disk.logs k = none
    rw [hlogs]
    exact h.above k (hnum ▸ hk)
  log hne := by
    subst hs
    show ∃ rs, w.disk.logs w.db.walNumber = some (logBytes rs) ∧ _
    rw [hlogs, hnum]
    exact h.log (himm.elim (fun hn => absurd hn hne) fun heq => heq ▸ hne)

/-- A write appends its record to the log in use. -/
theorem Behind.wrote (h : s.Behind) {op : DB.WriteOp} (hs : since = (op.key, op.value) :: s.since)
    (height : ℕ) (hwal : s.world.db.wal = some s.world.db.walNumber) :
    Behind ⟨s.world.wrote op height s.world.db.walNumber, since⟩ := by
  subst hs
  have hother : ∀ k, s.world.db.walNumber < k →
      (s.world.wrote op height s.world.db.walNumber).disk.logs k = s.world.disk.logs k :=
    fun k hk => Function.update_of_ne hk.ne' _ _
  refine ⟨fun n hn => (hother n hn).trans (h.above n hn), h.inUse, fun hnone => ?_, fun hne => ?_⟩
  · obtain ⟨next, n, hr, habove, huse⟩ := h.named hnone
    refine ⟨next, n, hr, fun k hk => ?_, huse⟩
    exact (hother k (by rw [huse _ hwal]; exact hk)).trans (habove k hk)
  · obtain ⟨rs, hlog, hentries, hshort⟩ := h.log hne
    refine ⟨rs ++ [op.record (s.world.db.lastSequence + 1)], World.wrote_logs hlog op height, ?_, ?_⟩
    · rw [List.map_append, hentries, List.map_singleton, entry_record, List.reverse_cons]
    · intro hall r hr
      rcases List.mem_append.1 hr with hr | hr
      · exact hshort (fun p hp => hall p (List.mem_cons_of_mem _ hp)) r hr
      · obtain rfl := List.mem_singleton.1 hr
        exact DB.WriteOp.Short.record (hall (op.key, op.value) List.mem_cons_self) _

/-- A switch starts an empty log. -/
theorem Behind.rotated (h : s.Behind) : Behind ⟨s.world.rotated, []⟩ := by
  refine ⟨fun n hn => ?_, fun n hn => (Option.some.inj hn).symm,
    fun hnone => absurd hnone (by simp [World.rotated]), fun _ => ?_⟩
  · have hn' : s.world.db.walNumber + 1 < n := hn
    exact (Function.update_of_ne hn'.ne' _ _).trans (h.above n (by omega))
  · exact ⟨[], World.rotated_logs (h.above _ (Nat.lt_succ_self _)), rfl, by simp⟩

/-- A failed switch passes a number for which there is no log. -/
theorem Behind.rotateFailed (h : s.Behind) (himm : s.world.db.imm = none) :
    Behind ⟨s.world.rotateFailed, since⟩ where
  above n hn := h.above n (Nat.lt_of_succ_lt hn)
  inUse n hn := by cases hn
  named _ := by
    obtain ⟨next, n, hr, habove, -⟩ := h.named himm
    exact ⟨next, n, hr, habove, fun k hk => by cases hk⟩
  log hne := absurd himm hne

theorem Behind.reopened (h : s.Behind) (hfiles : s.world.Files) (himm : s.world.db.imm = none)
    {options : Options} {heights : ℕ → ℕ} {db : DB} {ops : List FsOp}
    (hrec : DB.recover options s.world.disk heights = .ok (db, ops)) :
    Behind ⟨{ s.world with db := db, disk := s.world.disk.run ops }, since⟩ := by
  obtain ⟨next, n, hr, habove, -⟩ := h.named himm
  obtain ⟨mem, seq, heq⟩ := hfiles.recover hr options heights
  obtain ⟨rfl, rfl⟩ : _ = db ∧ _ = ops := by
    rw [heq] at hrec
    exact Prod.ext_iff.1 (Except.ok.inj hrec)
  have hlogs : ∀ k, n < k → (s.world.disk.run [.openLog n]).logs k = none :=
    fun k hk => (Function.update_of_ne hk.ne' _ _).trans (habove k hk)
  exact
    { above := hlogs
      inUse := fun k hk => (Option.some.inj hk).symm
      named := fun _ => ⟨next, n, hr.keep rfl rfl, hlogs, fun k hk => (Option.some.inj hk).symm⟩
      log := fun hne => absurd rfl hne }

/-- **No step breaks what the logs hold.** -/
theorem Behind.step (h : s.Behind) (hfiles : s.world.Files) {l : Label} (hstep : s.step l = some s') :
    s'.Behind := by
  obtain ⟨w, hw, rfl⟩ := Option.map_eq_some_iff.1 hstep
  cases World.step_event hw with
  | @wrote op height n _ _ hwal =>
    obtain rfl := h.inUse n hwal
    have hs : s.sinceIn (s.world.wrote op height s.world.db.walNumber) = (op.key, op.value) :: s.since :=
      sinceIn_wrote rfl rfl
    exact h.wrote hs height hwal
  | @rotated op height n ws l _ himm _ =>
    have hkept : Behind ⟨{ s.world with waiting := ws }, s.since⟩ :=
      h.keep rfl rfl rfl rfl rfl fun next n hr => ⟨next, hr⟩
    exact hkept.rotated.wrote (sinceIn_switched rfl himm rfl) height rfl
  -- the log of the switch did not open, and the MANIFEST names the old one
  | @rotateFailed op height n ws l _ himm _ =>
    have hkept : Behind ⟨{ s.world with waiting := ws }, s.since⟩ :=
      h.keep rfl rfl rfl rfl rfl fun next n hr => ⟨next, hr⟩
    exact hkept.rotateFailed himm
  | waits | flushBegun | flushBuilt | flushFailed | compactionBegun | outputWritten | outputFailed =>
    exact h.keep (sinceIn_same rfl id) rfl rfl rfl rfl fun next n hr => ⟨next, hr⟩
  | @flushNotBuilt i job faults opens ops _ _ _ hops =>
    refine h.keep (sinceIn_same rfl id) rfl rfl rfl ?_ fun next n hr => ⟨next, hr.keep rfl ?_⟩
    · rcases hops with rfl | rfl <;> rfl
    · rcases hops with rfl | rfl <;> rfl
  | @flushCommitted i job t =>
    have hdisk := World.flushCommitted_disk s.world i t
    exact h.written (sinceIn_same rfl fun _ => rfl) (Or.inl rfl) rfl rfl (by rw [hdisk])
      (World.recorded_of_written hdisk)
  | @flushDropped i =>
    have hdisk := World.flushDropped_disk s.world i
    exact h.written (sinceIn_same rfl fun _ => rfl) (Or.inl rfl) rfl rfl (by rw [hdisk])
      (World.recorded_of_written hdisk)
  | @compactionCommitted i job =>
    obtain ⟨gone0, gone1, -, -, -, -, -, -, hops⟩ :=
      World.compactCommit_spec s.world.db job.l0Snapshot job.l1Indices job.newLevel1
    have hdisk := World.compactionCommitted_disk s.world i job hops
    obtain ⟨hlogs, -, -⟩ := Disk.run_unlink s.world.disk (job.l0Snapshot ++ gone1)
    exact h.written (sinceIn_same rfl id) (Or.inr rfl) rfl rfl (by rw [hdisk]; exact hlogs)
      (World.recorded_of_written hdisk)
  | @compactionFailed i job =>
    obtain ⟨hlogs, hman, -⟩ := Disk.run_unlink s.world.disk job.newLevel1
    exact h.keep (sinceIn_same rfl id) rfl rfl rfl hlogs fun next n hr => ⟨next, hr.keep rfl hman⟩
  | reopened himm _ _ _ hrec => exact h.reopened hfiles himm hrec

/-- A run seen without the writes since the switch. -/
theorem reach_world {ok : Switched → Label → Prop} {options : Options}
    (h : Reach step ok { world := World.fresh options } s) :
    Reach World.step (fun _ _ => True) (World.fresh options) s.world :=
  Reach.map Switched.world (fun s l s' _ hs => by
    obtain ⟨w, hw, rfl⟩ := Option.map_eq_some_iff.1 hs
    exact .next .start trivial hw) h

theorem behind_of_reach {ok : Switched → Label → Prop} {options : Options}
    (h : Reach step ok { world := World.fresh options } s) : s.Behind :=
  Reach.invariant_of (fun _ hr => World.files_of_reach (reach_world hr)) (fresh_behind options)
    (fun _ _ _ hf hb _ hs => hb.step hf hs) h

/-- **The current log has the entries of `imm_` only if they were written again.** -/
theorem Behind.inLog_iff (h : s.Behind) (hshort : s.Short) (hne : s.world.db.imm ≠ none) (m : MemTable) :
    s.world.InLog m ↔ ∀ p ∈ m.pairs, p ∈ s.since := by
  obtain ⟨rs, hlog, hentries, hrs⟩ := h.log hne
  have hmem : ∀ p, (∃ r ∈ WALReader.recover (logBytes rs), r.entry = p) ↔ p ∈ s.since := by
    intro p
    rw [WALReader.recover_addRecords (hrs hshort), ← List.mem_reverse, ← hentries, List.mem_map]
  constructor
  · rintro ⟨file, hfile, hall⟩ p hp
    obtain rfl : logBytes rs = file := Option.some.inj (hlog.symm.trans hfile)
    exact (hmem p).1 (hall p hp)
  · exact fun hall => ⟨_, hlog, fun p hp => (hmem p).2 (hall p hp)⟩

/-- **The end of a failed flush gives up no entry of `imm_` if and only if** `BackgroundFlush` runs
it or the log that the switch has opened holds the entries too; for short records these are the
entries that were written again behind the switch. -/
theorem failedFlush_retains_iff {ok : Switched → Label → Prop} {options : Options}
    (h : Reach step ok { world := World.fresh options } s) {i : ℕ} {job : FlushJob}
    (hjob : s.world.flushes[i]? = some job) (hres : job.result = .failed) :
    s.world.db.imm = some job.imm ∧
      (∃ w, s.world.step (.flushEnd i) = some w ∧
        (World.Retains job.imm s.world w ↔ job.path = .background ∨ s.world.InLog job.imm)) ∧
      (s.Short → (s.world.InLog job.imm ↔ ∀ p ∈ job.imm.pairs, p ∈ s.since)) := by
  have hreach := reach_world h
  have hone : s.world.OneFlush :=
    Reach.invariant ⟨fun _ => rfl, fun hb => absurd hb Bool.false_ne_true⟩
      (fun _ _ _ hi _ hs => hi.step hs) hreach
  have hfiles := World.files_of_reach hreach
  obtain ⟨-, rfl, -, himm⟩ := hone.job hjob
  refine ⟨himm, ?_, fun hshort => (behind_of_reach h).inLog_iff hshort (by rw [himm]; nofun) _⟩
  by_cases hp : job.path = .background
  -- `BackgroundFlush` looks at its result and leaves `imm_` in place
  · refine ⟨s.world.flushFailed 0, ?_, fun _ => Or.inl hp, fun _ => Or.inl ⟨himm, rfl, rfl⟩⟩
    simp [World.step, World.endFlush, hjob, hres, hp, World.flushFailed, DB.flushFail]
  · have hstep : s.world.step (.flushEnd 0) = some (s.world.flushDropped 0) := by
      simp [World.step, World.endFlush, hjob, hres, hp, DB.flushDrop, himm, World.flushDropped, World.commit]
    refine ⟨_, hstep, ?_⟩
    have hdisk := World.flushDropped_disk s.world 0
    -- the MANIFEST written behind the flush names the log in use
    have hman := (hfiles.step hstep).readManifest (World.recorded_of_written hdisk)
    have hlogs : (s.world.flushDropped 0).disk.logs = s.world.disk.logs := by rw [hdisk]
    constructor
    · rintro (⟨hnone, -⟩ | ⟨manifest, file, hread, hfile, hall⟩)
      · cases hnone
      · rw [hman] at hread
        obtain rfl := Except.ok.inj hread
        exact Or.inr ⟨file, by rw [← hlogs]; exact hfile, hall⟩
    · rintro (hback | ⟨file, hfile, hall⟩)
      · exact absurd hback hp
      · exact Or.inr ⟨_, file, hman, by rw [hlogs]; exact hfile, hall⟩

/-- A write, its flush by the switch of the next write, on `path`, and the failure to open the table. -/
def failedRun (path : FlushPath) : List Label :=
  [.write (.put [107] [118]) 1 true, .flushBegin .background, .flushBuild 0 (fun _ => none) true, .flushEnd 0,
    .write (.put [108] [118]) 1 true, .flushBegin path, .flushBuild 0 (fun _ => none) false]

/-- A flush that has found no table. -/
def hasFailed (job : FlushJob) : Bool :=
  match job.result with
  | .failed => true
  | _ => false

/-- Every path comes to the end of the flush, with the first write in `imm_` only. -/
theorem failedRun_state (path : FlushPath) : ∃ (s : Switched) (job : FlushJob),
    Reach step (fun _ _ => True) { world := World.fresh { writeBufferSize := 1 } } s ∧
      s.world.flushes[0]? = some job ∧ job.result = .failed ∧ job.path = path ∧
      job.imm.pairs = [([107], [118])] ∧ s.since = [([108], [118])] := by
  have hrun : ((run step (fun _ _ => True) { world := World.fresh { writeBufferSize := 1 } }
      (failedRun path)).bind fun s => s.world.flushes[0]?.map fun job => decide (hasFailed job = true ∧
        job.path = path ∧ job.imm.pairs = [([107], [118])] ∧ s.since = [([108], [118])])) = some true := by
    cases path <;> decide +kernel
  obtain ⟨s, hs, heq⟩ := Option.bind_eq_some_iff.1 hrun
  obtain ⟨job, hjob, heq⟩ := Option.map_eq_some_iff.1 heq
  obtain ⟨hres, hpath, hpairs, hsince⟩ := of_decide_eq_true heq
  refine ⟨s, job, reach_of_run hs, hjob, ?_, hpath, hpairs, hsince⟩
  rw [hasFailed] at hres
  split at hres
  · assumption
  · cases hres

theorem failedFlush_retains_background : ∃ (s : Switched) (w : World) (job : FlushJob),
    Reach step (fun _ _ => True) { world := World.fresh { writeBufferSize := 1 } } s ∧
      s.world.step (.flushEnd 0) = some w ∧ s.world.db.imm = some job.imm ∧ World.Retains job.imm s.world w := by
  obtain ⟨s, job, hs, hjob, hres, hpath, -, -⟩ := failedRun_state .background
  obtain ⟨himm, ⟨w, hw, hiff⟩, -⟩ := failedFlush_retains_iff hs hjob hres
  exact ⟨s, w, job, hs, hw, himm, hiff.2 (Or.inl hpath)⟩

/-- **`CompactRange` gives up `imm_`**: the write is acknowledged, its table did not open, and the
MANIFEST written behind it names the log of the next memtable. -/
theorem failedFlush_loses : ∃ s w m,
    Reach step (fun _ _ => True) { world := World.fresh { writeBufferSize := 1 } } s ∧
      s.world.db.imm = some m ∧ m.pairs = [([107], [118])] ∧ ([107], [118]) ∈ s.world.acked ∧
      s.world.step (.flushEnd 0) = some w ∧ w.db.imm = none ∧ ¬ World.Retains m s.world w := by
  have hrun : ((run step (fun _ _ => True) { world := World.fresh { writeBufferSize := 1 } }
      (failedRun .compactRange)).bind fun s => s.world.db.imm.bind fun m => (s.world.step (.flushEnd 0)).map fun w =>
        decide (w.db.imm.isNone = true ∧ w.disk.readManifest.toOption.map (·.walNumber) = some 3 ∧
          m.pairs = [([107], [118])] ∧ s.world.acked = [([108], [118]), ([107], [118])] ∧
          (w.disk.logs 3).map (fun file => (WALReader.recover file).map Record.entry) =
            some [([108], [118])])) = some true := by
    decide +kernel
  obtain ⟨s, hs, heq⟩ := Option.bind_eq_some_iff.1 hrun
  obtain ⟨m, hm, heq⟩ := Option.bind_eq_some_iff.1 heq
  obtain ⟨w, hw, heq⟩ := Option.map_eq_some_iff.1 heq
  obtain ⟨hnone, hnum, hpairs, hacked, hlog⟩ := of_decide_eq_true heq
  have himm := Option.isNone_iff_eq_none.1 hnone
  refine ⟨s, w, m, reach_of_run hs, hm, hpairs, by rw [hacked]; simp, hw, himm, ?_⟩
  rintro (⟨hsome, -⟩ | ⟨manifest, file, hread, hfile, hall⟩)
  · rw [himm] at hsome
    cases hsome
  · have hthree : manifest.walNumber = 3 := by
      rw [hread] at hnum
      exact Option.some.inj hnum
    rw [hthree] at hfile
    rw [hfile] at hlog
    obtain ⟨r, hr, hre⟩ := hall ([107], [118]) (by rw [hpairs]; simp)
    have hmem := List.mem_map_of_mem (f := Record.entry) hr
    have hentries : (WALReader.recover file).map Record.entry = [([108], [118])] := Option.some.inj hlog
    rw [hentries, hre] at hmem
    simp at hmem

end Switched

end MiniLSM
