import MiniLSM.Lib.Transition
import MiniLSM.Proof.MemRefCount
import MiniLSM.Spec.Threads

/-!
# No lost wake-up

All waits are on `bg_cv_`, and a switch of memtables wakes one thread only. It comes when `imm_` is
null: then no caller is blocked, so the thread it wakes is the background thread. It wakes nobody
when `background_work_pending_` is set, but a blocked background thread has cleared that flag.

* `Reason s t`: what a blocked thread waits for has not come yet.
* `step_event`: what a section of a thread has tested before it does what it does.
* `no_lost_wakeup`: in every reachable state every blocked thread has its reason.
-/

namespace MiniLSM

open Transition

namespace Threads

variable {s s' : Threads} {t : Thread} {p : Place}

/-- What keeps a blocked thread waiting. -/
def Reason (s : Threads) (t : Thread) : Prop :=
  match t, s.place t with
  | .background, .work => s.db.imm = none ∧ s.db.needCompaction = false ∧ s.pending = false
  | .caller _, .room _ => s.db.imm ≠ none
  | .caller _, .range => s.db.immFlushing = true
  | _, _ => False

/-- **Every blocked thread has its reason**, and only `imm_` is flushed. -/
structure Attended (s : Threads) : Prop where
  justified : Monitor.Justified s.Reason s.blocked
  flushing : s.db.immFlushing = true → s.db.imm ≠ none

theorem reason_go {u : Thread} (h : u ≠ t) : (s.go t p).Reason u ↔ s.Reason u := by
  unfold Reason go
  simp only [Function.update_of_ne h]

/-- Reasons depend on the place, `imm_`, `imm_flushing_`, L0 and the flag. -/
theorem reason_congr {u : Thread} (hp : s'.place u = s.place u) (himm : s'.db.imm = s.db.imm)
    (hneed : s'.db.needCompaction = s.db.needCompaction)
    (hfl : s.db.immFlushing = true → s'.db.immFlushing = true)
    (hpend : s.pending = false → s'.pending = false) (h : s.Reason u) : s'.Reason u := by
  unfold Reason at h ⊢
  rw [hp]
  split at h
  · exact ⟨himm ▸ h.1, hneed ▸ h.2.1, hpend h.2.2⟩
  · exact himm ▸ h
  · exact hfl h
  · exact h.elim

namespace Attended

theorem opened {db : DB} (hfl : db.immFlushing = false) : (opened db).Attended :=
  ⟨.nil _, fun h => absurd (h.symm.trans hfl) Bool.false_ne_true.symm⟩

/-- With nobody blocked there is nothing to show. -/
theorem of_nil (hb : s.blocked = []) (hfl : s.db.immFlushing = true → s.db.imm ≠ none) : s.Attended :=
  ⟨hb ▸ .nil _, hfl⟩

/-- A thread outside of the waits is not blocked. -/
theorem free (h : s.Attended) (ht : ¬s.Reason t) : t ∉ s.blocked := fun hb =>
  ht (h.justified.reasons t hb)

/-- A running thread goes on. -/
theorem go (h : s.Attended) (ht : t ∉ s.blocked) (p : Place) : (s.go t p).Attended := by
  refine ⟨h.justified.mono fun u hu hr => ?_, h.flushing⟩
  exact (reason_go (ne_of_mem_of_not_mem hu ht)).2 hr

/-- A running thread blocks. -/
theorem wait (h : s.Attended) (ht : t ∉ s.blocked) (hr : (s.go t p).Reason t) : (s.wait t p).Attended := by
  have hgo := h.go ht p
  have hreason : (s.wait t p).Reason = (s.go t p).Reason := rfl
  exact ⟨hreason ▸ hgo.justified.wait ht hr, hgo.flushing⟩

/-- A section that neither clears nor sets `imm_` and leaves L0 alone. -/
theorem keep (h : s.Attended) (db : DB) (pending : Bool) (himm : db.imm = s.db.imm)
    (hneed : db.needCompaction = s.db.needCompaction)
    (hfl : s.db.immFlushing = true → db.immFlushing = true) (hin : db.immFlushing = true → db.imm ≠ none)
    (hpend : s.pending = false → pending = false) :
    ({ s with db := db, pending := pending } : Threads).Attended :=
  ⟨h.justified.mono fun _ _ hr => reason_congr (s := s) rfl himm hneed hfl hpend hr, hin⟩

end Attended

/-! ## The sections of the database -/

theorem write_frame {db db' : DB} {op : DB.WriteOp} {height : ℕ} {ops : List FsOp}
    (h : db.write op height = some (db', ops)) :
    db'.imm = db.imm ∧ db'.immFlushing = db.immFlushing ∧ db'.needCompaction = db.needCompaction := by
  obtain ⟨n, -, h⟩ := Option.bind_eq_some_iff.1 h
  obtain ⟨rfl, -⟩ := Prod.ext_iff.1 (Option.some.inj h)
  exact ⟨rfl, rfl, rfl⟩

theorem flushBegin_frame {db db' : DB} {m : MemTable} {n : ℕ} (h : db.flushBegin = some (m, n, db')) :
    db'.imm = db.imm ∧ db'.immFlushing = true ∧ db'.needCompaction = db.needCompaction ∧ db.imm ≠ none := by
  unfold DB.flushBegin at h
  split at h
  · rename_i hm
    split at h
    · cases h
    · simp only [Option.some.injEq, Prod.mk.injEq] at h
      obtain ⟨-, -, rfl⟩ := h
      exact ⟨rfl, rfl, rfl, by simp [hm]⟩
  · cases h

/-- A write behind which nobody is blocked, or which leaves `imm_` alone. -/
theorem Attended.writeNow (h : s.Attended) (ht : t ∉ s.blocked) {op : DB.WriteOp} {height : ℕ}
    {appended : Bool} (hstep : s.writeNow t op height appended = some s') : s'.Attended := by
  obtain ⟨⟨db, ops⟩, hw, hstep⟩ := Option.bind_eq_some_iff.1 hstep
  cases appended with
  | true =>
    obtain rfl := Option.some.inj hstep
    obtain ⟨himm, hfl, hneed⟩ := write_frame hw
    have hkeep := h.keep db s.pending himm hneed (fun hf => hfl.trans hf)
      (fun hf => by rw [himm]; exact h.flushing (hfl.symm.trans hf)) fun hp => hp
    exact hkeep.go ht .idle
  | false =>
    obtain rfl := Option.some.inj hstep
    have hkeep := h.keep { s.db with lastSequence := s.db.lastSequence + 1 } s.pending rfl rfl
      (fun hf => hf) h.flushing fun hp => hp
    exact hkeep.go ht .idle

/-- **Behind a switch of memtables nobody is blocked.** -/
theorem Attended.makeRoom (h : s.Attended) {id : ℕ} (ht : .caller id ∉ s.blocked) {op : DB.WriteOp}
    {height : ℕ} {appended : Bool} {pick : Option Thread}
    (hstep : s.makeRoom (.caller id) op height appended pick = some s') : s'.Attended := by
  unfold Threads.makeRoom at hstep
  split at hstep
  · rename_i himm
    obtain rfl := Option.some.inj hstep
    refine h.wait ht ?_
    unfold Reason Threads.go
    simpa using Option.isSome_iff_ne_none.1 himm
  · rename_i himm
    have hnone : s.db.imm = none := by simpa using himm
    -- callers wait for `imm_` to go, or for its flush to end
    have hsole : ∀ u ∈ s.blocked, u = .background ∧ s.pending = false := by
      intro u hu
      have hr := h.justified.reasons u hu
      unfold Reason at hr
      split at hr
      · exact ⟨rfl, hr.2.2⟩
      · exact absurd hnone hr
      · exact absurd hnone (h.flushing hr)
      · exact hr.elim
    obtain ⟨⟨db, ops⟩, hrot, hstep⟩ := Option.bind_eq_some_iff.1 hstep
    obtain ⟨s₁, hsched, hwrite⟩ := Option.bind_eq_some_iff.1 hstep
    have himm' : db.imm ≠ none := by
      obtain ⟨n, -, hrot⟩ := Option.bind_eq_some_iff.1 hrot
      obtain ⟨rfl, -⟩ := Prod.ext_iff.1 (Option.some.inj hrot)
      simp
    have hs₁ : s₁.db = db ∧ s₁.blocked = [] := by
      unfold maybeScheduleBackgroundWork at hsched
      split at hsched
      · rename_i hpending
        obtain rfl := Option.some.inj hsched
        refine ⟨rfl, List.eq_nil_iff_forall_not_mem.2 fun u hu => ?_⟩
        exact absurd (hpending.symm.trans (hsole u hu).2) (by simp)
      · obtain ⟨blocked, hone, rfl⟩ := Option.map_eq_some_iff.1 hsched
        exact ⟨rfl, Monitor.notifyOne_sole h.justified.once (fun u hu => (hsole u hu).1) hone⟩
    obtain ⟨hdb, hnil⟩ := hs₁
    exact (Attended.of_nil hnil fun _ => hdb ▸ himm').writeNow (by simp [hnil]) hwrite

/-- The first section of a flush, of either path. -/
theorem Attended.flushBegin (h : s.Attended) (ht : t ∉ s.blocked) {db : DB} {m : MemTable} {n : ℕ}
    (hbegin : s.db.flushBegin = some (m, n, db)) :
    ({ s.go t .building with db := db } : Threads).Attended := by
  obtain ⟨himm, hfl, hneed, hsome⟩ := flushBegin_frame hbegin
  have hkeep := h.keep db s.pending himm hneed (fun _ => hfl) (fun _ => by rwa [himm]) fun hp => hp
  exact hkeep.go ht .building

/-- The background thread clears the flag. -/
theorem Attended.clear (h : s.Attended) : ({ s with pending := false } : Threads).Attended :=
  h.keep s.db false rfl rfl (fun hf => hf) h.flushing fun _ => rfl

theorem Attended.flushRange (h : s.Attended) {id : ℕ} (ht : .caller id ∉ s.blocked) :
    (s.flushRange (.caller id)).Attended := by
  unfold Threads.flushRange
  split
  · rename_i hfl
    refine h.wait ht ?_
    unfold Reason Threads.go
    simpa using hfl
  · split
    · rename_i m n db hbegin
      exact h.flushBegin ht hbegin
    · exact h.go ht .compact

/-- Every flush clears `imm_flushing_` at its end, and wakes all. -/
theorem Attended.endFlush {table : Option SSTable} (hstep : s.endFlush t table = some s') :
    s'.Attended := by
  obtain ⟨db, hdb, rfl⟩ := Option.map_eq_some_iff.1 hstep
  have hfl : db.immFlushing = false := by
    unfold flushed at hdb
    split at hdb
    · obtain ⟨r, hr, rfl⟩ := Option.map_eq_some_iff.1 hdb
      obtain ⟨m, -, hr⟩ := Option.bind_eq_some_iff.1 hr
      rw [← Option.some.inj hr]
    · split at hdb
      · rw [← Option.some.inj hdb]
        rfl
      · obtain ⟨r, hr, rfl⟩ := Option.map_eq_some_iff.1 hdb
        obtain ⟨m, -, hr⟩ := Option.bind_eq_some_iff.1 hr
        rw [← Option.some.inj hr]
  exact of_nil rfl fun hf => absurd (hf.symm.trans hfl) (by simp)

/-! ## Every step -/

/-- A section of a thread, with what it has tested. -/
inductive Event (s : Threads) : ThreadLabel → Threads → Prop
  | wrote {id : ℕ} {op : DB.WriteOp} {height : ℕ} {appended : Bool} {pick : Option Thread} {s' : Threads} :
      s.place (.caller id) = .idle → s.db.hasRoom = true →
      s.writeNow (.caller id) op height appended = some s' →
      Event s (.write id op height appended pick) s'
  | hadNoRoom {id : ℕ} {op : DB.WriteOp} {height : ℕ} {appended : Bool} {pick : Option Thread}
      {s' : Threads} :
      s.place (.caller id) = .idle → s.db.hasRoom = false →
      s.makeRoom (.caller id) op height appended pick = some s' →
      Event s (.write id op height appended pick) s'
  | wentOn {id : ℕ} {op : DB.WriteOp} {height : ℕ} {appended : Bool} {pick : Option Thread} {s' : Threads} :
      s.place (.caller id) = .room op → .caller id ∉ s.blocked →
      s.makeRoom (.caller id) op height appended pick = some s' →
      Event s (.writeOn id height appended pick) s'
  | flushedRange {id : ℕ} : s.place (.caller id) = .idle →
      Event s (.compactRange id) (s.flushRange (.caller id))
  | flushedRangeOn {id : ℕ} : s.place (.caller id) = .range → .caller id ∉ s.blocked →
      Event s (.compactRangeOn id) (s.flushRange (.caller id))
  | rested : s.place .background = .top → s.db.imm.isNone = true → s.db.needCompaction = false →
      Event s .work (({ s with pending := false } : Threads).wait .background .work)
  | worked : s.place .background = .top →
      Event s .work (({ s with pending := false } : Threads).go .background .flush)
  | workedOn : s.place .background = .work → .background ∉ s.blocked →
      Event s .workOn (({ s with pending := false } : Threads).go .background .flush)
  | flushBegun {m : MemTable} {n : ℕ} {db : DB} :
      s.place .background = .flush → s.db.flushBegin = some (m, n, db) →
      Event s .backgroundFlush { s.go .background .building with db := db }
  | nothingToFlush : s.place .background = .flush →
      Event s .backgroundFlush (s.go .background .compact)
  | flushEnded {t : Thread} {table : Option SSTable} {s' : Threads} :
      s.place t = .building → s.endFlush t table = some s' → Event s (.flushEnd t table) s'
  | nothingToCompact {t : Thread} : s.place t = .compact →
      Event s (.compactBegin t) (s.go t (afterCompaction t))
  | compactionBegun {t : Thread} : s.place t = .compact → Event s (.compactBegin t)
      (s.go t (.merging s.db.levels.l0 (DB.l1Indices s.db.levels.l0 s.db.levels.l1)))
  | compactionEnded {t : Thread} {l0Snapshot : List SSTable} {l1Indices : List ℕ}
      {outputs : Option (List SSTable)} : s.place t = .merging l0Snapshot l1Indices →
      Event s (.compactEnd t outputs) (s.endCompaction t l0Snapshot l1Indices outputs)
  | woken {t : Thread} : Event s (.wake t) { s with blocked := s.blocked.erase t }

/-- **Inversion of a section.** -/
theorem step_event {l : ThreadLabel} (h : s.step l = some s') : Event s l s' := by
  cases l with
  | write id op height appended pick =>
    simp only [Threads.step] at h
    split at h
    · rename_i hidle
      split at h
      · rename_i hroom
        exact .wrote hidle hroom h
      · rename_i hroom
        exact .hadNoRoom hidle (by simpa using hroom) h
    · cases h
  | writeOn id height appended pick =>
    simp only [Threads.step] at h
    split at h
    · rename_i op hplace
      split at h
      · cases h
      · exact .wentOn hplace ‹_› h
    · cases h
  | compactRange id =>
    simp only [Threads.step] at h
    split at h
    · obtain rfl := Option.some.inj h
      exact .flushedRange ‹_›
    · cases h
  | compactRangeOn id =>
    simp only [Threads.step] at h
    split at h
    · split at h
      · cases h
      · obtain rfl := Option.some.inj h
        exact .flushedRangeOn ‹_› ‹_›
    · cases h
  | work =>
    simp only [Threads.step] at h
    split at h
    · rename_i htop
      split at h
      · rename_i hidle
        obtain rfl := Option.some.inj h
        rw [Bool.and_eq_true, Bool.not_eq_true'] at hidle
        exact .rested htop hidle.1 hidle.2
      · obtain rfl := Option.some.inj h
        exact .worked htop
    · cases h
  | workOn =>
    simp only [Threads.step] at h
    split at h
    · split at h
      · cases h
      · obtain rfl := Option.some.inj h
        exact .workedOn ‹_› ‹_›
    · cases h
  | backgroundFlush =>
    simp only [Threads.step] at h
    split at h
    · rename_i hflush
      split at h
      · rename_i m n db hbegin
        obtain rfl := Option.some.inj h
        exact .flushBegun hflush hbegin
      · obtain rfl := Option.some.inj h
        exact .nothingToFlush hflush
    · cases h
  | flushEnd t table =>
    simp only [Threads.step] at h
    split at h
    · exact .flushEnded ‹_› h
    · cases h
  | compactBegin t =>
    simp only [Threads.step] at h
    split at h
    · rename_i hcompact
      unfold beginCompaction at h
      split at h
      · obtain rfl := Option.some.inj h
        exact .nothingToCompact hcompact
      · split at h
        · cases h
        · obtain rfl := Option.some.inj h
          exact .compactionBegun hcompact
    · cases h
  | compactEnd t outputs =>
    simp only [Threads.step] at h
    split at h
    · obtain rfl := Option.some.inj h
      exact .compactionEnded ‹_›
    · cases h
  | wake t =>
    simp only [Threads.step] at h
    split at h
    · obtain rfl := Option.some.inj h
      exact .woken
    · cases h

/-- **No step leaves a thread blocked without its reason.** -/
theorem Attended.step (h : s.Attended) {l : ThreadLabel} (hstep : s.step l = some s') : s'.Attended := by
  have hfree : ∀ t, ¬s.Reason t → t ∉ s.blocked := fun t => h.free
  cases step_event hstep with
  | @wrote id _ _ _ _ _ hidle hroom hwrite =>
    exact h.writeNow (hfree (.caller id) (by simp [Reason, hidle])) hwrite
  | @hadNoRoom id _ _ _ _ _ hidle hroom hmake =>
    exact h.makeRoom (hfree (.caller id) (by simp [Reason, hidle])) hmake
  | wentOn _ hnot hmake => exact h.makeRoom hnot hmake
  | @flushedRange id hidle => exact h.flushRange (hfree (.caller id) (by simp [Reason, hidle]))
  | flushedRangeOn _ hnot => exact h.flushRange hnot
  | rested htop himm hneed =>
    refine h.clear.wait (hfree .background (by simp [Reason, htop])) ?_
    unfold Reason Threads.go
    simpa using ⟨by simpa using himm, hneed⟩
  | worked htop => exact h.clear.go (hfree .background (by simp [Reason, htop])) .flush
  | workedOn _ hnot => exact h.clear.go hnot .flush
  | flushBegun hflush hbegin => exact h.flushBegin (hfree .background (by simp [Reason, hflush])) hbegin
  | nothingToFlush hflush => exact h.go (hfree .background (by simp [Reason, hflush])) .compact
  | flushEnded _ hend => exact endFlush hend
  | @nothingToCompact t hcompact => exact h.go (hfree t (by cases t <;> simp [Reason, hcompact])) _
  | @compactionBegun t hcompact => exact h.go (hfree t (by cases t <;> simp [Reason, hcompact])) _
  | @compactionEnded t l0Snapshot l1Indices outputs hmerging =>
    cases outputs with
    | none => exact h.go (hfree t (by cases t <;> simp [Reason, hmerging])) _
    | some newLevel1 => exact of_nil rfl h.flushing
  | @woken t => exact ⟨h.justified.wake t, h.flushing⟩

/-- **No lost wake-up**: from the opening of a database on, the background thread is blocked only
while there is neither an `imm_` nor a need for compaction, a writer only while there is an `imm_`,
and a caller of `CompactRange` only while `imm_` is being flushed. -/
theorem no_lost_wakeup {ok : Threads → ThreadLabel → Prop} {options : Options} {disk : Disk}
    {heights : ℕ → ℕ} {db : DB} {ops : List FsOp}
    (hopen : DB.recover options disk heights = .ok (db, ops))
    (h : Reach Threads.step ok (Threads.opened db) s) :
    (.background ∈ s.blocked → s.db.imm = none ∧ s.db.needCompaction = false) ∧
    (∀ id op, .caller id ∈ s.blocked → s.place (.caller id) = .room op → s.db.imm ≠ none) ∧
    (∀ id, .caller id ∈ s.blocked → s.place (.caller id) = .range → s.db.immFlushing = true) := by
  have hs : s.Attended := Reach.invariant (Attended.opened (recover_idle hopen).2)
    (fun _ _ _ hi _ hstep => hi.step hstep) h
  refine ⟨fun hb => ?_, fun id op hb hp => ?_, fun id hb hp => ?_⟩
  · have hr := hs.justified.reasons _ hb
    cases hp : s.place .background with
    | work =>
      simp only [Reason, hp] at hr
      exact ⟨hr.1, hr.2.1⟩
    | _ => simp [Reason, hp] at hr
  · have hr := hs.justified.reasons _ hb
    simpa [Reason, hp] using hr
  · have hr := hs.justified.reasons _ hb
    simpa [Reason, hp] using hr

/-- The background thread blocks, a switch wakes it, a second writer and a caller of `CompactRange`
block behind the flush. -/
def blockedRun : List ThreadLabel :=
  [.work, .write 0 (.put [107] [118]) 1 true (some .background),
    .write 1 (.put [108] [118]) 1 true none,
    .workOn, .backgroundFlush, .compactRange 2]

theorem no_lost_wakeup_blockedRun : ∃ s,
    Reach Threads.step (fun _ _ => True)
      (Threads.opened { options := { writeBufferSize := 1 }, wal := some 1 }) s ∧
      s.blocked = [.caller 2, .caller 1] ∧ s.db.imm ≠ none ∧ s.db.immFlushing = true := by
  have hrun : (run Threads.step (fun _ _ => True)
      (Threads.opened { options := { writeBufferSize := 1 }, wal := some 1 }) blockedRun).map
      (fun s => (s.blocked, s.place (.caller 1), s.place (.caller 2))) =
        some ([.caller 2, .caller 1], .room (.put [108] [118]), .range) := by decide +kernel
  have hopen : DB.recover { writeBufferSize := 1 } {} (fun _ => 1) =
      .ok ({ options := { writeBufferSize := 1 }, wal := some 1 }, [.openLog 1]) := rfl
  obtain ⟨s, hs, heq⟩ := Option.map_eq_some_iff.1 hrun
  simp only [Prod.mk.injEq] at heq
  obtain ⟨hblocked, hroom, hrange⟩ := heq
  obtain ⟨-, hwriters, hranges⟩ := no_lost_wakeup hopen (reach_of_run hs)
  exact ⟨s, reach_of_run hs, hblocked, hwriters 1 _ (by simp [hblocked]) hroom,
    hranges 2 (by simp [hblocked]) hrange⟩

end Threads

end MiniLSM
