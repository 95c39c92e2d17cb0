import MiniLSM.Proof.Rotation
import MiniLSM.Proof.Threads

/-!
# What is full when it becomes `imm_`

`MakeRoomForWrite` tests `mem_` before it waits for `imm_`, and not again behind the wait. `late`
keeps, beside a run, for which callers `mem_` has been replaced since their test.

* `step_memory`: what a section does to `mem_` and `imm_`.
* `Tested.step`: as long as `mem_` has not been replaced, a caller in the wait has found it full.
* `rotates_full_iff`: a memtable that becomes `imm_` is full if and only if the caller that switches
  is not late or finds the new one full again; then none is empty.
-/

namespace MiniLSM

open Transition

namespace Threads

/-- The section switches memtables. -/
def rotates (s : Threads) : ThreadLabel → Bool
  | .write .. => !s.db.hasRoom && s.db.imm.isNone
  | .writeOn .. => s.db.imm.isNone
  | _ => false

/-- No caller begins to wait for room. -/
def NoneWaits (s s' : Threads) : Prop :=
  ∀ id op, s'.place (.caller id) = .room op → s.place (.caller id) = .room op

/-- What a section does to `mem_` and `imm_`. -/
inductive Memory (s : Threads) (l : ThreadLabel) (s' : Threads) : Prop
  | rotated : s.rotates l = true → s'.db.options = s.db.options → s.db.imm = none →
      s'.db.imm = some s.db.mem →
      s'.db.mem = MemTable.new ∨ (∃ u v height, s'.db.mem = MemTable.new.add u v height) →
      Memory s l s'
  | wrote : s.rotates l = false → s'.db.options = s.db.options → s'.db.imm = s.db.imm →
      (∃ u v height, s'.db.mem = s.db.mem.add u v height) → s.db.hasRoom = true → NoneWaits s s' →
      Memory s l s'
  | waits {id : ℕ} {op : DB.WriteOp} {height : ℕ} {appended : Bool} {pick : Option Thread} :
      l = .write id op height appended pick → s.db.hasRoom = false → s.db.imm ≠ none →
      s' = s.wait (.caller id) (.room op) → Memory s l s'
  | kept : s.rotates l = false → s'.db.options = s.db.options → s'.db.mem = s.db.mem →
      s'.db.imm = s.db.imm ∨ s'.db.imm = none → NoneWaits s s' → Memory s l s'

variable {s s' : Threads} {t : Thread}

/-- A thread goes on to a place that is not the wait for room. -/
theorem noneWaits_go {p : Place} (hp : ∀ op, p ≠ .room op) {db : DB} {blocked : List Thread} {pending : Bool} :
    NoneWaits s { s.go t p with db := db, blocked := blocked, pending := pending } := by
  intro id op hplace
  simp only [Threads.go, Function.update_apply] at hplace
  split at hplace
  · exact absurd hplace (hp op)
  · exact hplace

theorem writeNow_eq_some {op : DB.WriteOp} {height : ℕ} {appended : Bool}
    (h : s.writeNow t op height appended = some s') :
    s'.db.options = s.db.options ∧ s'.db.imm = s.db.imm ∧ s'.place = Function.update s.place t .idle ∧
      (s'.db.mem = s.db.mem ∨ s'.db.mem = s.db.mem.add op.key op.value height) := by
  obtain ⟨⟨db, ops⟩, hw, h⟩ := Option.bind_eq_some_iff.1 h
  obtain ⟨n, -, hw⟩ := Option.bind_eq_some_iff.1 hw
  obtain ⟨rfl, -⟩ := Prod.ext_iff.1 (Option.some.inj hw)
  cases appended with
  | true =>
    obtain rfl := Option.some.inj h
    exact ⟨rfl, rfl, rfl, Or.inr rfl⟩
  | false =>
    obtain rfl := Option.some.inj h
    exact ⟨rfl, rfl, rfl, Or.inl rfl⟩

/-- **`MakeRoomForWrite` behind its test** waits, or switches whatever `mem_` is. -/
theorem makeRoom_eq_some {id : ℕ} {op : DB.WriteOp} {height : ℕ} {appended : Bool} {pick : Option Thread}
    (h : s.makeRoom (.caller id) op height appended pick = some s') :
    s.db.imm ≠ none ∧ s' = s.wait (.caller id) (.room op) ∨
      s.db.imm = none ∧ s'.db.options = s.db.options ∧ s'.db.imm = some s.db.mem ∧
        (s'.db.mem = MemTable.new ∨ ∃ u v height, s'.db.mem = MemTable.new.add u v height) := by
  unfold makeRoom at h
  split at h
  · rename_i himm
    exact Or.inl ⟨Option.isSome_iff_ne_none.1 himm, (Option.some.inj h).symm⟩
  · rename_i himm
    refine Or.inr ⟨by simpa using himm, ?_⟩
    obtain ⟨⟨db, ops⟩, hrot, h⟩ := Option.bind_eq_some_iff.1 h
    obtain ⟨n, -, hrot⟩ := Option.bind_eq_some_iff.1 hrot
    obtain ⟨rfl, -⟩ := Prod.ext_iff.1 (Option.some.inj hrot)
    obtain ⟨s₁, hsched, hwrite⟩ := Option.bind_eq_some_iff.1 h
    have hdb : s₁.db = { s.db with
        mem := MemTable.new
        imm := some s.db.mem
        walNumber := s.db.walNumber + 1
        wal := some (s.db.walNumber + 1) } := by
      unfold maybeScheduleBackgroundWork at hsched
      split at hsched
      · rw [← Option.some.inj hsched]
      · obtain ⟨blocked, -, rfl⟩ := Option.map_eq_some_iff.1 hsched
        rfl
    obtain ⟨hopt, himm', -, hmem⟩ := writeNow_eq_some hwrite
    rw [hdb] at hopt himm' hmem
    exact ⟨hopt, himm', hmem.imp_right fun h => ⟨_, _, _, h⟩⟩

theorem flushBegin_memory {db db' : DB} {m : MemTable} {n : ℕ} (h : db.flushBegin = some (m, n, db')) :
    db'.options = db.options ∧ db'.mem = db.mem ∧ db'.imm = db.imm ∧ db.imm = some m := by
  unfold DB.flushBegin at h
  split at h
  · rename_i hm
    split at h
    · cases h
    · simp only [Option.some.injEq, Prod.mk.injEq] at h
      obtain ⟨rfl, -, rfl⟩ := h
      exact ⟨rfl, rfl, rfl, hm⟩
  · cases h

theorem flushed_memory {db db' : DB} {table : Option SSTable} (h : flushed db t table = some db') :
    db'.options = db.options ∧ db'.mem = db.mem ∧ (db'.imm = db.imm ∨ db'.imm = none) := by
  unfold flushed at h
  split at h
  · obtain ⟨r, hr, rfl⟩ := Option.map_eq_some_iff.1 h
    obtain ⟨m, -, hr⟩ := Option.bind_eq_some_iff.1 hr
    rw [← Option.some.inj hr]
    exact ⟨rfl, rfl, Or.inr rfl⟩
  · split at h
    · rw [← Option.some.inj h]
      exact ⟨rfl, rfl, Or.inl rfl⟩
    · obtain ⟨r, hr, rfl⟩ := Option.map_eq_some_iff.1 h
      obtain ⟨m, -, hr⟩ := Option.bind_eq_some_iff.1 hr
      rw [← Option.some.inj hr]
      exact ⟨rfl, rfl, Or.inr rfl⟩

/-- The section of `CompactRange` leaves `mem_` and `imm_` alone. -/
theorem flushRange_memory (s : Threads) (t : Thread) :
    (s.flushRange t).db.options = s.db.options ∧ (s.flushRange t).db.mem = s.db.mem ∧
      (s.flushRange t).db.imm = s.db.imm ∧ NoneWaits s (s.flushRange t) := by
  unfold Threads.flushRange
  split
  · exact ⟨rfl, rfl, rfl, noneWaits_go (by simp)⟩
  · split
    · rename_i m n db hbegin
      obtain ⟨hopt, hmem, himm, -⟩ := flushBegin_memory hbegin
      exact ⟨hopt, hmem, himm, noneWaits_go (by simp)⟩
    · exact ⟨rfl, rfl, rfl, noneWaits_go (by simp)⟩

theorem afterCompaction_ne (t : Thread) (op : DB.WriteOp) : afterCompaction t ≠ .room op := by
  cases t <;> simp [afterCompaction]

/-- A thread that goes on to another place, with the `mem_` and the `imm_` that it found. -/
theorem memory_go {l : ThreadLabel} {p : Place} (hrot : s.rotates l = false) (hp : ∀ op, p ≠ .room op)
    {db : DB} {blocked : List Thread} {pending : Bool} (hopt : db.options = s.db.options)
    (hmem : db.mem = s.db.mem) (himm : db.imm = s.db.imm ∨ db.imm = none) :
    Memory s l { s.go t p with db := db, blocked := blocked, pending := pending } :=
  .kept hrot hopt hmem himm (noneWaits_go hp)

/-- **What a section does to `mem_` and `imm_`.** -/
theorem step_memory {l : ThreadLabel} (h : s.step l = some s') : Memory s l s' := by
  cases step_event h with
  | @wrote id op height appended pick _ hidle hroom hwrite =>
    obtain ⟨hopt, himm, hplace, hmem⟩ := writeNow_eq_some hwrite
    have hrot : s.rotates (.write id op height appended pick) = false := by simp [rotates, hroom]
    have hnone : NoneWaits s s' := fun id' op' hp => by
      rw [hplace, Function.update_apply] at hp
      split at hp
      · cases hp
      · exact hp
    rcases hmem with hmem | hmem
    · exact .kept hrot hopt hmem (Or.inl himm) hnone
    · exact .wrote hrot hopt himm ⟨_, _, _, hmem⟩ hroom hnone
  | hadNoRoom hidle hroom hmake =>
    rcases makeRoom_eq_some hmake with ⟨himm, rfl⟩ | ⟨himm, hopt, himm', hmem⟩
    · exact .waits rfl hroom himm rfl
    · exact .rotated (by simp [rotates, hroom, himm]) hopt himm himm' hmem
  | @wentOn id op _ _ _ _ hplace hnot hmake =>
    rcases makeRoom_eq_some hmake with ⟨himm, rfl⟩ | ⟨himm, hopt, himm', hmem⟩
    -- the caller waits where it has waited before
    · refine .kept (by simpa [rotates, Option.isSome_iff_ne_none] using himm) rfl rfl (Or.inl rfl) fun id' op' hp => ?_
      simp only [Threads.wait, Threads.go, Function.update_apply] at hp
      split at hp
      · rename_i heq
        rw [heq, hplace, hp]
      · exact hp
    · exact .rotated (by simp [rotates, himm]) hopt himm himm' hmem
  | @flushedRange id =>
    obtain ⟨hopt, hmem, himm, hnone⟩ := flushRange_memory s (.caller id)
    exact .kept rfl hopt hmem (Or.inl himm) hnone
  | @flushedRangeOn id =>
    obtain ⟨hopt, hmem, himm, hnone⟩ := flushRange_memory s (.caller id)
    exact .kept rfl hopt hmem (Or.inl himm) hnone
  | rested => exact memory_go rfl (by simp) rfl rfl (Or.inl rfl)
  | worked => exact memory_go rfl (by simp) rfl rfl (Or.inl rfl)
  | workedOn => exact memory_go rfl (by simp) rfl rfl (Or.inl rfl)
  | flushBegun _ hbegin =>
    obtain ⟨hopt, hmem, himm, -⟩ := flushBegin_memory hbegin
    exact memory_go rfl (by simp) hopt hmem (Or.inl himm)
  | nothingToFlush => exact memory_go rfl (by simp) rfl rfl (Or.inl rfl)
  | flushEnded _ hend =>
    obtain ⟨db, hdb, rfl⟩ := Option.map_eq_some_iff.1 hend
    obtain ⟨hopt, hmem, himm⟩ := flushed_memory hdb
    exact memory_go rfl (by simp) hopt hmem himm
  | @nothingToCompact t => exact memory_go rfl (afterCompaction_ne t) rfl rfl (Or.inl rfl)
  | compactionBegun => exact memory_go rfl (by simp) rfl rfl (Or.inl rfl)
  | @compactionEnded t l0Snapshot l1Indices outputs =>
    cases outputs with
    | none => exact memory_go rfl (afterCompaction_ne t) rfl rfl (Or.inl rfl)
    | some newLevel1 => exact memory_go rfl (afterCompaction_ne t) rfl rfl (Or.inl rfl)
  | woken => exact .kept rfl rfl rfl (Or.inl rfl) fun _ _ hp => hp

end Threads

/-! ## Runs with the callers that are late -/

/-- Threads beside the callers for which `mem_` has been replaced since their test. -/
structure Watched where
  threads : Threads
  late : ℕ → Bool := fun _ => false

namespace Watched

/-- A section: a switch makes all callers late, and a caller that begins to wait is not. -/
def step (s : Watched) (l : ThreadLabel) : Option Watched :=
  (s.threads.step l).map fun threads =>
    { threads := threads
      late :=
        if s.threads.rotates l then fun _ => true
        else
          match l with
          | .write id .. => if s.threads.db.hasRoom then s.late else Function.update s.late id false
          | _ => s.late }

/-- A caller that is late finds the new memtable full again when it switches. -/
def Refilled (s : Watched) : ThreadLabel → Prop
  | .writeOn id .. => s.late id = true → s.threads.db.imm = none → s.threads.db.hasRoom = false
  | _ => True

instance (s : Watched) (l : ThreadLabel) : Decidable (Refilled s l) := by
  rcases l with _ | _ <;> unfold Refilled <;> infer_instance

variable {s s' : Watched} {l : ThreadLabel}

/-- A caller in the wait that is not late has found `mem_` full. -/
def Tested (s : Watched) : Prop :=
  ∀ id op, s.threads.place (.caller id) = .room op → s.late id = false → s.threads.db.hasRoom = false

theorem hasRoom_congr {db db' : DB} (hopt : db'.options = db.options) (hmem : db'.mem = db.mem) :
    db'.hasRoom = db.hasRoom := by rw [DB.hasRoom, DB.hasRoom, hopt, hmem]

/-- **As long as `mem_` has not been replaced, a caller in the wait has found it full.** -/
theorem Tested.step (h : s.Tested) (hstep : s.step l = some s') : s'.Tested := by
  obtain ⟨threads, ht, rfl⟩ := Option.map_eq_some_iff.1 hstep
  intro id op hplace hlate
  cases Threads.step_memory ht with
  | rotated hrot => simp [hrot] at hlate
  | wrote hrot _ _ _ hroom hnone =>
    -- with room in `mem_` all callers in the wait are late
    have hbefore : s.late id = false := by
      simp only [hrot, Bool.false_eq_true, if_false] at hlate
      split at hlate
      · rwa [if_pos hroom] at hlate
      · exact hlate
    exact absurd (hroom.symm.trans (h id op (hnone id op hplace) hbefore)) (by decide)
  | @waits id' op' height appended pick hl hroom himm hwait =>
    subst hwait
    exact hroom
  | kept hrot hopt hmem _ hnone =>
    rw [hasRoom_congr hopt hmem]
    simp only [hrot, Bool.false_eq_true, if_false] at hlate
    split at hlate
    · split at hlate
      · exact h id op (hnone id op hplace) hlate
      · rename_i hroom
        simpa using hroom
    · exact h id op (hnone id op hplace) hlate

/-- The caller that switches has found `mem_` full, or is late and finds it full again. -/
theorem Tested.full (h : s.Tested) (hok : s.Refilled l) {threads : Threads}
    (hstep : s.threads.step l = some threads) (hrot : s.threads.rotates l = true) :
    s.threads.db.hasRoom = false := by
  cases l with
  | write id op height appended pick =>
    simp only [Threads.rotates, Bool.and_eq_true, Bool.not_eq_true'] at hrot
    exact hrot.1
  | writeOn id height appended pick =>
    have himm : s.threads.db.imm = none := by simpa [Threads.rotates] using hrot
    cases hlate : s.late id with
    | true => exact hok hlate himm
    | false =>
      cases Threads.step_event hstep with
      | wentOn hplace => exact h id _ hplace hlate
  | _ => cases hrot

/-- A section puts a memtable into an empty `imm_` only by a switch, and it is `mem_`. -/
theorem rotates_of_imm {threads : Threads} (hstep : s.threads.step l = some threads)
    (himm : s.threads.db.imm = none) {m : MemTable} (hm : threads.db.imm = some m) :
    s.threads.rotates l = true ∧ m = s.threads.db.mem := by
  cases Threads.step_memory hstep with
  | rotated hrot _ _ himm' => exact ⟨hrot, Option.some.inj (hm.symm.trans himm')⟩
  | wrote _ _ himm' => rw [himm', himm] at hm; cases hm
  | waits _ _ hne => exact absurd himm hne
  | kept _ _ _ himm' => rcases himm' with h | h <;> rw [h] at hm <;> simp [himm] at hm

/-- **What becomes `imm_` is full** if and only if the caller that switches is not late or finds
`mem_` full again. -/
theorem Tested.rotates_iff (h : s.Tested) (hstep : s.step l = some s') :
    (∀ m, s.threads.db.imm = none → s'.threads.db.imm = some m →
      s.threads.db.options.writeBufferSize ≤ m.approximateMemoryUsage) ↔ s.Refilled l := by
  obtain ⟨threads, ht, rfl⟩ := Option.map_eq_some_iff.1 hstep
  constructor
  · intro hfull
    cases l with
    | writeOn id height appended pick =>
      intro _ himm
      cases Threads.step_memory ht with
      | rotated _ _ _ himm' =>
        have hle := hfull _ himm himm'
        rw [DB.hasRoom]
        exact decide_eq_false (not_lt.2 hle)
      | wrote hrot => simp [Threads.rotates, himm] at hrot
      | waits hl => cases hl
      | kept hrot => simp [Threads.rotates, himm] at hrot
    | _ => trivial
  · intro hok m himm hm
    obtain ⟨hrot, rfl⟩ := rotates_of_imm ht himm hm
    exact not_lt.1 (of_decide_eq_false (h.full hok ht hrot))

/-! ## Empty memtables -/

/-- An added memtable is not empty. -/
theorem nodes_add_ne (m : MemTable) (u v : Bytes) (height : ℕ) : (m.add u v height).table.nodes ≠ [] := by
  simp only [MemTable.add, SkipList.insert]
  cases m.table.nodes with
  | nil => simp [SkipList.insertChain]
  | cons x xs =>
    rw [SkipList.insertChain]
    split <;> simp

/-- An empty memtable of a database just opened is a new one. -/
theorem recover_empty {options : Options} {disk : Disk} {heights : ℕ → ℕ} {db : DB} {ops : List FsOp}
    (h : DB.recover options disk heights = .ok (db, ops)) :
    db.options = options ∧ (db.mem.table.nodes = [] → db.mem = MemTable.new) := by
  obtain ⟨m, mem, seq, rfl, rfl⟩ := World.recover_ok h
  exact ⟨rfl, World.replayAll_mem (P := fun m => m.table.nodes = [] → m = MemTable.new)
    (fun _ u v height _ hnil => absurd hnil (nodes_add_ne _ _ _ _)) (fun _ => rfl) _ _⟩

/-- No memtable that is or was `imm_` is empty. -/
structure Filled (s : Watched) : Prop where
  tested : s.Tested
  buffer : MemTable.new.approximateMemoryUsage < s.threads.db.options.writeBufferSize
  mem : s.threads.db.mem.table.nodes = [] → s.threads.db.mem = MemTable.new
  imm : ∀ m, s.threads.db.imm = some m → m.table.nodes ≠ []

/-- **A switch fills `imm_` with a memtable that is not empty**, when all callers find it full. -/
theorem Filled.step (h : s.Filled) (hok : s.Refilled l) (hstep : s.step l = some s') : s'.Filled := by
  have htested := h.tested.step hstep
  obtain ⟨threads, ht, rfl⟩ := Option.map_eq_some_iff.1 hstep
  cases Threads.step_memory ht with
  | rotated hrot hopt _ himm hmem =>
    refine ⟨htested, hopt ▸ h.buffer, fun hnil => ?_, fun m hm => ?_⟩
    · rcases hmem with hmem | ⟨u, v, height, hmem⟩
      · exact hmem
      · rw [hmem] at hnil
        exact absurd hnil (nodes_add_ne _ _ _ _)
    · obtain rfl : s.threads.db.mem = m := Option.some.inj (himm.symm.trans hm)
      intro hnil
      have hfull := of_decide_eq_false (h.tested.full hok ht hrot)
      rw [h.mem hnil] at hfull
      exact hfull h.buffer
  | wrote _ hopt himm hmem =>
    obtain ⟨u, v, height, hmem⟩ := hmem
    refine ⟨htested, hopt ▸ h.buffer, fun hnil => ?_, fun m hm => h.imm m (himm ▸ hm)⟩
    rw [hmem] at hnil
    exact absurd hnil (nodes_add_ne _ _ _ _)
  | waits _ _ _ hwait =>
    subst hwait
    exact ⟨htested, h.buffer, h.mem, h.imm⟩
  | kept _ hopt hmem himm =>
    refine ⟨htested, hopt ▸ h.buffer, fun hnil => ?_, fun m hm => ?_⟩
    · rw [hmem] at hnil ⊢
      exact h.mem hnil
    · rcases himm with himm | himm
      · exact h.imm m (himm ▸ hm)
      · rw [himm] at hm
        cases hm

/-- **What becomes `imm_` is full** if and only if the caller that switches is not late or finds
`mem_` full again. When a new memtable takes less than `write_buffer_size`, and all switches are such,
no memtable becomes `imm_` that is empty, and no flush writes a table without entries. -/
theorem rotates_full_iff {options : Options} {disk : Disk} {heights : ℕ → ℕ} {db : DB} {ops : List FsOp}
    (hopen : DB.recover options disk heights = .ok (db, ops)) :
    (∀ s, Reach step (fun _ _ => True) { threads := Threads.opened db } s → ∀ l s', s.step l = some s' →
      ((∀ m, s.threads.db.imm = none → s'.threads.db.imm = some m →
        s.threads.db.options.writeBufferSize ≤ m.approximateMemoryUsage) ↔ s.Refilled l)) ∧
    (MemTable.new.approximateMemoryUsage < options.writeBufferSize →
      ∀ s, Reach step Refilled { threads := Threads.opened db } s → ∀ m, s.threads.db.imm = some m →
        m.pairs ≠ [] ∧ ∃ blocks : List DataBlock, (DB.buildTable m fun _ => none).2 =
          fileBytes blocks (m.pairs.map Prod.fst) ∧ blocks.flatMap DataBlock.entries ≠ []) := by
  have hidle : Tested { threads := Threads.opened db } := fun id op hplace => by cases hplace
  refine ⟨fun s hs l s' hstep => ?_, fun hbuffer s hs m hm => ?_⟩
  · exact (Reach.invariant hidle (fun _ _ _ h _ hstep => h.step hstep) hs).rotates_iff hstep
  · obtain ⟨hopt, hmem⟩ := recover_empty hopen
    have hfresh : Filled { threads := Threads.opened db } := by
      refine ⟨hidle, hopt.symm ▸ hbuffer, hmem, fun m hm => ?_⟩
      change db.imm = some m at hm
      rw [(recover_idle hopen).1] at hm
      cases hm
    have hfilled := Reach.invariant hfresh (fun _ _ _ h hok hstep => h.step hok hstep) hs
    have hpairs : m.pairs ≠ [] := by
      have hne := hfilled.imm m hm
      simpa [MemTable.pairs, MemTable.entries, userPairs] using hne
    obtain ⟨blocks, -, hcut, -, hbuild, -⟩ := SSTableBuilder.build_layout m.pairs
    refine ⟨hpairs, blocks, by rw [buildTable_sound, hbuild], fun hnil => hpairs ?_⟩
    rw [flatMap_entries_of_cut hcut, tableEntries] at hnil
    have hlen := congrArg List.length hnil
    rw [entriesFrom_length] at hlen
    exact List.length_eq_zero_iff.1 hlen

/-- A write that fills a memtable of 4097 bytes. -/
def bigPut : DB.WriteOp := .put [107] (List.replicate 4000 0)

/-- A flush by the background thread, from the top of its loop. -/
def backgroundRound : List ThreadLabel :=
  [.work, .backgroundFlush, .flushEnd .background (some { number := 1, data := [] }), .compactBegin .background]

/-- Two writers wait behind a switch; the first of them switches, and behind the next flush the
second. The write of the first is `op`, and `appended` says whether it gets into the log. -/
def twoWaiters (op : DB.WriteOp) (appended : Bool) : List ThreadLabel :=
  [.write 0 bigPut 1 true none, .write 0 bigPut 1 true none, .write 1 op 1 true none,
    .write 2 (.put [109] [1]) 1 true none] ++ backgroundRound ++ [.writeOn 1 1 appended none] ++ backgroundRound

/-- A database whose new memtables take one byte less than the buffer size. -/
def small : Watched := { threads := Threads.opened { options := { writeBufferSize := 4097 }, wal := some 1 } }

/-- The first writer fills the new memtable, so the second may switch. -/
theorem rotates_full_iff_twoWaiters : ∃ s m, Reach step Refilled small s ∧ s.threads.db.imm = some m ∧
    m.pairs ≠ [] := by
  have hrun : ((run step Refilled small (twoWaiters bigPut true ++ [.writeOn 2 1 true none])).bind
      fun s => s.threads.db.imm).isSome = true := by decide +kernel
  have hopen : DB.recover { writeBufferSize := 4097 } {} (fun _ => 1) =
      .ok ({ options := { writeBufferSize := 4097 }, wal := some 1 }, [.openLog 1]) := rfl
  obtain ⟨m, hm⟩ := Option.isSome_iff_exists.1 hrun
  obtain ⟨s, hs, himm⟩ := Option.bind_eq_some_iff.1 hm
  exact ⟨s, m, reach_of_run hs, himm,
    ((rotates_full_iff hopen).2 (by decide) s (reach_of_run hs) m himm).1⟩

/-- **An empty memtable becomes `imm_`**: the first writer cannot append to the log, and the second
switches without looking. -/
theorem rotates_empty : ∃ s s', Reach step (fun _ _ => True) small s ∧
    s.step (.writeOn 2 1 true none) = some s' ∧ s.threads.db.imm = none ∧ s.threads.db.hasRoom = true ∧
      ∃ m, s'.threads.db.imm = some m ∧ m.pairs = [] ∧
        m.approximateMemoryUsage < s.threads.db.options.writeBufferSize := by
  have hrun : (run step (fun _ _ => True) small (twoWaiters (.put [108] [1]) false)).map
      (fun s => (s.threads.db.imm.isNone, s.threads.db.hasRoom,
        ((s.step (.writeOn 2 1 true none)).bind fun s' => s'.threads.db.imm).map fun m =>
          m.pairs.isEmpty && decide (m.approximateMemoryUsage < s.threads.db.options.writeBufferSize))) =
      some (true, true, some true) := by decide +kernel
  obtain ⟨s, hs, heq⟩ := Option.map_eq_some_iff.1 hrun
  simp only [Prod.mk.injEq] at heq
  obtain ⟨himm, hroom, hstep⟩ := heq
  obtain ⟨m, hm, hmem⟩ := Option.map_eq_some_iff.1 hstep
  obtain ⟨s', hs', himm'⟩ := Option.bind_eq_some_iff.1 hm
  rw [Bool.and_eq_true, List.isEmpty_iff, decide_eq_true_eq] at hmem
  exact ⟨s, s', reach_of_run hs, hs', by simpa using himm, hroom, m, himm', hmem.1, hmem.2⟩

end Watched

end MiniLSM
