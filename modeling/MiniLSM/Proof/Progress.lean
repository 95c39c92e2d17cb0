import MiniLSM.Proof.Shutdown

/-!
# Every call goes on

* `Sound.can`: a thread that is in a call, and is not blocked, has a section that it can run.
* `turns`: how many sections the background thread runs, at most, before the memtable in `imm_` is being
  flushed, whatever the other threads do meanwhile.
* `calls_go_on`: so no state is a deadlock, and a blocked caller is woken by the end of a flush that is
  under way or that the background thread comes to within three sections.
-/

namespace MiniLSM

open Transition

/-- The thread that runs a section, `none` for a wake-up. -/
def ThreadLabel.thread : ThreadLabel → Option Thread
  | .write id _ _ _ _ | .writeOn id _ _ _ | .compactRange id | .compactRangeOn id => some (.caller id)
  | .work | .workOn | .backgroundFlush => some .background
  | .flushEnd t _ | .compactBegin t | .compactEnd t _ => some t
  | .wake _ => none

/-- Whether a section ends a flush. -/
def ThreadLabel.endsFlush : ThreadLabel → Bool
  | .flushEnd _ _ => true
  | _ => false

namespace Threads

variable {s s' : Threads} {t : Thread} {l : ThreadLabel}

/-! ## The log is open -/

theorem writeNow_wal {op : DB.WriteOp} {height : ℕ} {appended : Bool}
    (h : s.writeNow t op height appended = some s') : s'.db.wal = s.db.wal := by
  obtain ⟨⟨db, ops⟩, hw, h⟩ := Option.bind_eq_some_iff.1 h
  cases appended with
  | true =>
    obtain rfl := Option.some.inj h
    obtain ⟨n, -, hw⟩ := Option.bind_eq_some_iff.1 hw
    obtain ⟨rfl, -⟩ := Prod.ext_iff.1 (Option.some.inj hw)
    rfl
  | false =>
    obtain rfl := Option.some.inj h
    rfl

theorem makeRoom_wal {op : DB.WriteOp} {height : ℕ} {appended : Bool} {pick : Option Thread}
    (hwal : s.db.wal.isSome = true) (h : s.makeRoom t op height appended pick = some s') :
    s'.db.wal.isSome = true := by
  unfold makeRoom at h
  split at h
  · obtain rfl := Option.some.inj h
    exact hwal
  · obtain ⟨⟨db, ops⟩, hrot, h⟩ := Option.bind_eq_some_iff.1 h
    obtain ⟨s₁, hsched, hwrite⟩ := Option.bind_eq_some_iff.1 h
    obtain ⟨n, -, hrot⟩ := Option.bind_eq_some_iff.1 hrot
    obtain ⟨rfl, -⟩ := Prod.ext_iff.1 (Option.some.inj hrot)
    rw [writeNow_wal hwrite]
    unfold maybeScheduleBackgroundWork at hsched
    split at hsched
    · obtain rfl := Option.some.inj hsched
      rfl
    · obtain ⟨blocked, -, rfl⟩ := Option.map_eq_some_iff.1 hsched
      rfl

theorem flushed_wal {db db' : DB} {table : Option SSTable} (h : flushed db t table = some db') :
    db'.wal = db.wal := by
  unfold flushed at h
  split at h
  · obtain ⟨r, hr, rfl⟩ := Option.map_eq_some_iff.1 h
    obtain ⟨m, -, hr⟩ := Option.bind_eq_some_iff.1 hr
    rw [← Option.some.inj hr]
  · split at h
    · rw [← Option.some.inj h]
      rfl
    · obtain ⟨r, hr, rfl⟩ := Option.map_eq_some_iff.1 h
      obtain ⟨m, -, hr⟩ := Option.bind_eq_some_iff.1 hr
      rw [← Option.some.inj hr]

theorem flushBegin_wal {db db' : DB} {m : MemTable} {n : ℕ} (h : db.flushBegin = some (m, n, db')) :
    db'.wal = db.wal := by
  unfold DB.flushBegin at h
  split at h
  · split at h
    · cases h
    · simp only [Option.some.injEq, Prod.mk.injEq] at h
      obtain ⟨-, -, rfl⟩ := h
      rfl
  · cases h

theorem flushRange_wal : (s.flushRange t).db.wal = s.db.wal := by
  unfold flushRange
  split
  · rfl
  · split
    · rename_i hbegin
      exact flushBegin_wal hbegin
    · rfl

theorem wal_of_step (hwal : s.db.wal.isSome = true) (h : s.step l = some s') : s'.db.wal.isSome = true := by
  cases step_event h with
  | wrote _ _ hwrite => rwa [writeNow_wal hwrite]
  | hadNoRoom _ _ hmake => exact makeRoom_wal hwal hmake
  | wentOn _ _ hmake => exact makeRoom_wal hwal hmake
  | flushedRange => rwa [flushRange_wal]
  | flushedRangeOn => rwa [flushRange_wal]
  | flushBegun _ hbegin =>
    have heq := flushBegin_wal hbegin
    exact heq ▸ hwal
  | flushEnded _ hend =>
    obtain ⟨db, hdb, rfl⟩ := Option.map_eq_some_iff.1 hend
    have heq := flushed_wal hdb
    exact heq ▸ hwal
  | @compactionEnded t l0Snapshot l1Indices outputs => cases outputs <;> exact hwal
  | _ => exact hwal

/-! ## Callers stay out of `BackgroundWork` -/

/-- The places that only the background thread comes to. -/
def Place.ofWork : Place → Bool
  | .top | .work | .flush => true
  | _ => false

/-- **What holds of the threads** in every reachable state. -/
structure Sound (s : Threads) : Prop where
  attended : s.Attended
  flushes : s.Flushes
  wal : s.db.wal.isSome = true
  callers : ∀ i, Place.ofWork (s.place (.caller i)) = false

/-- A thread moves on. -/
theorem callers_move {p : Place} (h : ∀ i, Place.ofWork (s.place (.caller i)) = false)
    (hplace : s'.place = Function.update s.place t p) (hp : t = .background ∨ Place.ofWork p = false) (i : ℕ) :
    Place.ofWork (s'.place (.caller i)) = false := by
  rw [hplace, Function.update_apply]
  split
  · rename_i heq
    rcases hp with rfl | hp
    · cases heq
    · exact hp
  · exact h i

theorem flushRange_place : ∃ p, (s.flushRange t).place = Function.update s.place t p ∧ Place.ofWork p = false := by
  unfold flushRange
  split
  · exact ⟨.range, rfl, rfl⟩
  · split
    · exact ⟨.building, rfl, rfl⟩
    · exact ⟨.compact, rfl, rfl⟩

theorem ofWork_afterCompaction (t : Thread) : t = .background ∨ Place.ofWork (afterCompaction t) = false := by
  cases t with
  | background => exact Or.inl rfl
  | caller i => exact Or.inr rfl

theorem callers_of_step (h : ∀ i, Place.ofWork (s.place (.caller i)) = false) (hstep : s.step l = some s') :
    ∀ i, Place.ofWork (s'.place (.caller i)) = false := by
  have hmakeRoom : ∀ {id : ℕ} {op : DB.WriteOp} {height : ℕ} {appended : Bool} {pick : Option Thread},
      s.makeRoom (.caller id) op height appended pick = some s' →
      ∀ i, Place.ofWork (s'.place (.caller i)) = false := by
    intro id op height appended pick hmake
    obtain ⟨hplace | hplace, -⟩ := makeRoom_frame hmake
    · exact callers_move h hplace (Or.inr rfl)
    · exact callers_move h hplace (Or.inr rfl)
  have hrange : ∀ t : Thread, ∀ i, Place.ofWork ((s.flushRange t).place (.caller i)) = false := by
    intro t
    obtain ⟨p, hplace, hp⟩ := @flushRange_place s t
    exact callers_move h hplace (Or.inr hp)
  cases step_event hstep with
  | wrote _ _ hwrite => exact callers_move h (writeNow_frame hwrite).1 (Or.inr rfl)
  | hadNoRoom _ _ hmake => exact hmakeRoom hmake
  | wentOn _ _ hmake => exact hmakeRoom hmake
  | flushedRange => exact hrange _
  | flushedRangeOn => exact hrange _
  | rested => exact callers_move h rfl (Or.inl rfl)
  | worked => exact callers_move h rfl (Or.inl rfl)
  | workedOn => exact callers_move h rfl (Or.inl rfl)
  | flushBegun => exact callers_move h rfl (Or.inl rfl)
  | nothingToFlush => exact callers_move h rfl (Or.inl rfl)
  | flushEnded _ hend =>
    obtain ⟨db, -, rfl⟩ := Option.map_eq_some_iff.1 hend
    exact callers_move h rfl (Or.inr rfl)
  | @nothingToCompact t => exact callers_move h rfl (ofWork_afterCompaction t)
  | compactionBegun => exact callers_move h rfl (Or.inr rfl)
  | @compactionEnded t l0Snapshot l1Indices outputs =>
    cases outputs <;> exact callers_move h rfl (ofWork_afterCompaction t)
  | woken => exact h

theorem Sound.step (h : s.Sound) (hstep : s.step l = some s') : s'.Sound :=
  ⟨h.attended.step hstep, h.flushes.step hstep, wal_of_step h.wal hstep, callers_of_step h.callers hstep⟩

theorem sound_of_reach {ok : Threads → ThreadLabel → Prop} {options : Options} {disk : Disk}
    {heights : ℕ → ℕ} {db : DB} {ops : List FsOp}
    (hopen : DB.recover options disk heights = .ok (db, ops))
    (h : Reach Threads.step ok (Threads.opened db) s) : s.Sound := by
  obtain ⟨-, hidle⟩ := recover_idle hopen
  obtain ⟨m, mem, seq, -, rfl⟩ := World.recover_ok hopen
  exact h.invariant (I := Sound) ⟨.opened hidle, .opened hidle, rfl, fun _ => rfl⟩
    fun _ _ _ hi _ hstep => hi.step hstep

/-! ## Threads that can go on -/

/-- A caller from its loop in `MakeRoomForWrite` on, with a suitable thread to wake. -/
theorem makeRoom_can (hwal : s.db.wal.isSome = true) (t : Thread) (op : DB.WriteOp) :
    ∃ pick s', s.makeRoom t op 1 true pick = some s' := by
  obtain ⟨n, hn⟩ := Option.isSome_iff_exists.1 hwal
  unfold makeRoom
  by_cases himm : s.db.imm.isSome = true
  · exact ⟨none, _, if_pos himm⟩
  · simp only [himm, DB.rotate, hn, maybeScheduleBackgroundWork, writeNow, DB.write]
    cases hpending : s.pending with
    | true => exact ⟨none, _, rfl⟩
    | false =>
      cases hblocked : s.blocked with
      | nil => exact ⟨none, _, rfl⟩
      | cons u us => exact ⟨some u, by simp [Monitor.notifyOne]⟩

/-- A thread with a table under construction can end its flush, without the table if need be. -/
theorem Sound.flushEnd_can (h : s.Sound) (ht : s.place t = .building) :
    (s.step (.flushEnd t none)).isSome = true := by
  obtain ⟨m, hm⟩ := Option.ne_none_iff_exists'.1 (h.attended.flushing (h.flushes.flag t ht))
  cases t with
  | background => simp [Threads.step, ht, endFlush, flushed]
  | caller i => simp [Threads.step, ht, endFlush, flushed, DB.flushDrop, hm]

theorem compactBegin_can (htrigger : 0 < s.db.options.l0CompactionTrigger) (ht : s.place t = .compact) :
    (s.step (.compactBegin t)).isSome = true := by
  simp only [Threads.step, ht, beginCompaction]
  split
  · rfl
  · rename_i hneed
    have hl0 : s.db.levels.l0 ≠ [] := by
      intro hnil
      simp only [DB.needCompaction, hnil, List.length_nil, Nat.cast_zero, Bool.not_eq_true', decide_eq_false_iff_not,
        not_not] at hneed
      omega
    rw [if_neg hl0]
    rfl

/-- The background thread never comes to a place of the callers. -/
theorem Sound.background_inWork (h : s.Sound) {p : Place} (hplace : s.place .background = p) :
    Place.inWork p = true := hplace ▸ h.flushes.background

/-- **A thread in a call that is not blocked can go on**, and so can the background thread. -/
theorem Sound.can (h : s.Sound) (htrigger : 0 < s.db.options.l0CompactionTrigger) (hfree : t ∉ s.blocked)
    (hcall : s.place t ≠ .idle) : ∃ l, l.thread = some t ∧ (s.step l).isSome = true := by
  cases hplace : s.place t with
  | idle => exact absurd hplace hcall
  | building => exact ⟨_, rfl, h.flushEnd_can hplace⟩
  | compact => exact ⟨_, rfl, compactBegin_can htrigger hplace⟩
  | merging => exact ⟨.compactEnd t none, rfl, by simp [Threads.step, hplace]⟩
  | room op =>
    cases t with
    | background => cases h.background_inWork hplace
    | caller i =>
      obtain ⟨pick, s', hs'⟩ := makeRoom_can h.wal (.caller i) op
      exact ⟨.writeOn i 1 true pick, rfl, by simp [Threads.step, hplace, hfree, hs']⟩
  | range =>
    cases t with
    | background => cases h.background_inWork hplace
    | caller i => exact ⟨.compactRangeOn i, rfl, by simp [Threads.step, hplace, hfree]⟩
  | top =>
    cases t with
    | background => exact ⟨.work, rfl, by simp only [Threads.step, hplace]; split <;> rfl⟩
    | caller i => exact absurd (h.callers i) (by simp [hplace, Place.ofWork])
  | work =>
    cases t with
    | background => exact ⟨.workOn, rfl, by simp [Threads.step, hplace, hfree]⟩
    | caller i => exact absurd (h.callers i) (by simp [hplace, Place.ofWork])
  | flush =>
    cases t with
    | background => exact ⟨.backgroundFlush, rfl, by simp only [Threads.step, hplace]; split <;> rfl⟩
    | caller i => exact absurd (h.callers i) (by simp [hplace, Place.ofWork])

/-! ## The background thread comes to the flush -/

/-- How many sections the background thread is from the one that begins a flush, at most. -/
def turns (s : Threads) : ℕ :=
  match s.place .background with
  | .flush => 1
  | .top | .work => 2
  | .merging _ _ => 3
  | .compact => 4
  | _ => 0

theorem turns_le (s : Threads) : s.turns ≤ 4 := by
  unfold turns
  split <;> omega

/-- With a memtable to flush, and no flush under way, the background thread stands in front of one. -/
theorem Sound.turns_pos (h : s.Sound) (hidle : s.db.immFlushing = false) : 0 < s.turns := by
  have hwork := h.flushes.background
  have hbuilding : s.place .background ≠ .building := fun heq => by
    have hflag := h.flushes.flag _ heq
    rw [hidle] at hflag
    cases hflag
  unfold turns
  cases hplace : s.place .background with
  | building => exact absurd hplace hbuilding
  | idle | room | range =>
    rw [hplace] at hwork
    cases hwork
  | _ => simp

/-- A section of a caller leaves the background thread where it is. -/
theorem place_background (hl : l.thread ≠ some .background) (hstep : s.step l = some s') :
    s'.place .background = s.place .background := by
  have hmove : ∀ {t : Thread} {p : Place} {s' : Threads}, t ≠ .background →
      s'.place = Function.update s.place t p → s'.place .background = s.place .background := by
    intro t p s' ht hplace
    rw [hplace, Function.update_of_ne ht.symm]
  have hmakeRoom : ∀ {id : ℕ} {op : DB.WriteOp} {height : ℕ} {appended : Bool} {pick : Option Thread},
      s.makeRoom (.caller id) op height appended pick = some s' →
      s'.place .background = s.place .background := by
    intro id op height appended pick hmake
    obtain ⟨hplace | hplace, -⟩ := makeRoom_frame hmake <;> exact hmove (by simp) hplace
  have hrange : ∀ id : ℕ, (s.flushRange (.caller id)).place .background = s.place .background := by
    intro id
    obtain ⟨p, hplace, -⟩ := @flushRange_place s (.caller id)
    exact hmove (by simp) hplace
  cases step_event hstep with
  | wrote _ _ hwrite => exact hmove (by simp) (writeNow_frame hwrite).1
  | hadNoRoom _ _ hmake => exact hmakeRoom hmake
  | wentOn _ _ hmake => exact hmakeRoom hmake
  | flushedRange => exact hrange _
  | flushedRangeOn => exact hrange _
  | flushEnded _ hend =>
    obtain ⟨db, -, rfl⟩ := Option.map_eq_some_iff.1 hend
    exact hmove (fun heq => hl (by rw [heq]; rfl)) rfl
  | nothingToCompact => exact hmove (fun heq => hl (by rw [heq]; rfl)) rfl
  | compactionBegun => exact hmove (fun heq => hl (by rw [heq]; rfl)) rfl
  | @compactionEnded t l0Snapshot l1Indices outputs =>
    cases outputs <;> exact hmove (fun heq => hl (by rw [heq]; rfl)) rfl
  | woken => rfl
  | _ => exact absurd rfl hl

/-- **A section of the background thread comes closer to the flush**, while there is a memtable to flush
and no other thread flushes it. -/
theorem turns_lt (himm : s.db.imm ≠ none) (hidle : s'.db.immFlushing = false) (hflag : s.db.immFlushing = false)
    (hl : l.thread = some .background) (hends : l.endsFlush = false) (hstep : s.step l = some s') :
    s'.turns < s.turns := by
  cases step_event hstep with
  | rested _ hnone => exact absurd (by simpa using hnone) himm
  | worked htop => simp [turns, htop, go]
  | workedOn hwork => simp [turns, hwork, go]
  | flushBegun _ hbegin =>
    have htrue := (flushBegin_frame hbegin).2.1
    exact absurd (htrue.symm.trans hidle) (by simp)
  | nothingToFlush hflush =>
    -- there is something to flush
    obtain ⟨m, hm⟩ := Option.ne_none_iff_exists'.1 himm
    simp only [Threads.step, hflush, DB.flushBegin, hm, hflag] at hstep
    have hset := congrArg (fun s : Threads => s.db.immFlushing) (Option.some.inj hstep)
    exact absurd (hset.trans hflag) (by simp)
  | flushEnded => cases hends
  | @nothingToCompact t hcompact =>
    obtain rfl : t = .background := Option.some.inj hl
    simp [turns, hcompact, go, afterCompaction]
  | @compactionBegun t hcompact =>
    obtain rfl : t = .background := Option.some.inj hl
    simp [turns, hcompact, go]
  | @compactionEnded t l0Snapshot l1Indices outputs hmerging =>
    obtain rfl : t = .background := Option.some.inj hl
    cases outputs <;> simp [turns, hmerging, endCompaction, go, notifyAll, afterCompaction]
  | woken => cases hl
  | _ => cases hl

/-- **Until a flush ends**, the memtable in `imm_` stays there, and a flush that is under way goes on. -/
theorem imm_of_step (himm : s.db.imm ≠ none) (hends : l.endsFlush = false) (hstep : s.step l = some s') :
    s'.db.imm = s.db.imm ∧ (s.db.immFlushing = true → s'.db.immFlushing = true) := by
  have hmakeRoom : ∀ {id : ℕ} {op : DB.WriteOp} {height : ℕ} {appended : Bool} {pick : Option Thread},
      s.makeRoom (.caller id) op height appended pick = some s' →
      s'.db.imm = s.db.imm ∧ (s.db.immFlushing = true → s'.db.immFlushing = true) := by
    intro id op height appended pick hmake
    obtain ⟨-, rfl⟩ | ⟨hnone, -⟩ := makeRoom_eq_some hmake
    · exact ⟨rfl, fun hflag => hflag⟩
    · exact absurd hnone himm
  have hrange : ∀ t : Thread, (s.flushRange t).db.imm = s.db.imm ∧
      (s.db.immFlushing = true → (s.flushRange t).db.immFlushing = true) := by
    intro t
    refine ⟨(flushRange_memory s t).2.2.1, fun hflag => ?_⟩
    unfold flushRange
    rw [if_pos hflag]
    exact hflag
  cases step_event hstep with
  | wrote _ _ hwrite =>
    refine ⟨(writeNow_eq_some hwrite).2.1, fun hflag => ?_⟩
    rw [(writeNow_frame hwrite).2, hflag]
  | hadNoRoom _ _ hmake => exact hmakeRoom hmake
  | wentOn _ _ hmake => exact hmakeRoom hmake
  | flushedRange => exact hrange _
  | flushedRangeOn => exact hrange _
  | flushBegun _ hbegin =>
    obtain ⟨heq, htrue, -⟩ := flushBegin_frame hbegin
    exact ⟨heq, fun _ => htrue⟩
  | flushEnded => cases hends
  | @compactionEnded t l0Snapshot l1Indices outputs => cases outputs <;> exact ⟨rfl, fun hflag => hflag⟩
  | _ => exact ⟨rfl, fun hflag => hflag⟩

/-- **The background thread runs at most three sections** before a flush of `imm_` is under way, whatever
the other threads do in between. -/
theorem sections_le (h : s.Sound) (himm : s.db.imm ≠ none) {ls : List ThreadLabel}
    (hrun : run Threads.step (fun _ _ => True) s ls = some s') (hends : ∀ l ∈ ls, l.endsFlush = false) :
    s'.db.imm = s.db.imm ∧ (s.db.immFlushing = true → s'.db.immFlushing = true) ∧
      (s'.db.immFlushing = false →
        (ls.filter fun l => l.thread = some .background).length + s'.turns ≤ s.turns) ∧ s'.Sound := by
  induction ls generalizing s with
  | nil =>
    obtain rfl := Option.some.inj hrun
    exact ⟨rfl, fun hflag => hflag, fun _ => by simp, h⟩
  | cons l ls ih =>
    obtain ⟨s₁, -, hstep, hrun⟩ := run_cons.1 hrun
    have hl := hends l List.mem_cons_self
    obtain ⟨himm₁, hflag₁⟩ := imm_of_step himm hl hstep
    obtain ⟨himm', hflag', hcount, hsound⟩ := ih (h.step hstep) (by rwa [himm₁]) hrun
      fun l hmem => hends l (List.mem_cons_of_mem _ hmem)
    refine ⟨himm'.trans himm₁, fun hflag => hflag' (hflag₁ hflag), fun hidle => ?_, hsound⟩
    have hcount := hcount hidle
    -- a flush under way would still be so at the end
    have hidle₁ : s₁.db.immFlushing = false := by
      by_contra hne
      exact absurd ((hflag' (by simpa using hne)).symm.trans hidle) (by simp)
    have hidle₀ : s.db.immFlushing = false := by
      by_contra hne
      exact absurd ((hflag₁ (by simpa using hne)).symm.trans hidle₁) (by simp)
    by_cases hbg : l.thread = some .background
    · have hlt := turns_lt himm hidle₁ hidle₀ hbg hl hstep
      rw [List.filter_cons_of_pos (by simpa using hbg), List.length_cons]
      omega
    · have hsame : s₁.turns = s.turns := by rw [turns, turns, place_background hbg hstep]
      rw [List.filter_cons_of_neg (by simpa using hbg)]
      omega

/-- **No call waits in vain.** A thread in a call that is not blocked can go on, and so can the background
thread. While a caller is blocked there is a memtable to flush: the background thread is then not blocked,
and runs at most three sections before a flush of it is under way. That is a section of a thread which is
not blocked, and its end wakes everybody. -/
theorem calls_go_on {ok : Threads → ThreadLabel → Prop} {options : Options} {disk : Disk}
    {heights : ℕ → ℕ} {db : DB} {ops : List FsOp}
    (hopen : DB.recover options disk heights = .ok (db, ops))
    (h : Reach Threads.step ok (Threads.opened db) s) (htrigger : 0 < s.db.options.l0CompactionTrigger) :
    (∀ t, t ∉ s.blocked → s.place t ≠ .idle → ∃ l, l.thread = some t ∧ (s.step l).isSome = true) ∧
    (∀ i, .caller i ∈ s.blocked → s.db.imm ≠ none) ∧
    (s.db.imm ≠ none → .background ∉ s.blocked ∧ ∀ ls s', run Threads.step (fun _ _ => True) s ls = some s' →
      (∀ l ∈ ls, l.endsFlush = false) → s'.db.imm = s.db.imm ∧ (s'.db.immFlushing = false →
        (ls.filter fun l => l.thread = some .background).length ≤ 3)) ∧
    (s.db.immFlushing = true → ∃ t, t ∉ s.blocked ∧ s.place t = .building) ∧
    ∀ t table s', s.step (.flushEnd t table) = some s' → s'.blocked = [] := by
  have hs := sound_of_reach hopen h
  have hbuilding : ∀ t, s.place t = .building → t ∉ s.blocked := fun t ht =>
    hs.attended.free (by cases t <;> simp [Reason, ht])
  refine ⟨fun t hfree hcall => hs.can htrigger hfree hcall, fun i hb => ?_, fun himm => ⟨fun hb => ?_, ?_⟩,
    fun hflag => ?_, fun t table s' hstep => ?_⟩
  · have hr := hs.attended.justified.reasons _ hb
    unfold Reason at hr
    split at hr
    · cases ‹Thread.caller i = .background›
    · exact hr
    · exact hs.attended.flushing hr
    · exact hr.elim
  · have hr := hs.attended.justified.reasons _ hb
    unfold Reason at hr
    split at hr
    · exact himm hr.1
    · cases ‹Thread.background = .caller _›
    · cases ‹Thread.background = .caller _›
    · exact hr.elim
  · intro ls s' hrun hends
    obtain ⟨himm', -, hcount, hs'⟩ := sections_le hs himm hrun hends
    refine ⟨himm', fun hidle => ?_⟩
    have hcount := hcount hidle
    have hpos := hs'.turns_pos hidle
    have hle := turns_le s
    omega
  · obtain ⟨t, ht⟩ := hs.flushes.builder hflag
    exact ⟨t, hbuilding t ht, ht⟩
  · cases step_event hstep with
    | flushEnded _ hend =>
      obtain ⟨db, -, rfl⟩ := Option.map_eq_some_iff.1 hend
      rfl

/-- The background thread, past its flush, comes round to the memtable that a writer waits for. -/
def roundRun : List ThreadLabel :=
  [.write 1 (.put [108] [118]) 1 true none, .compactBegin .background, .work]

theorem calls_go_on_roundRun : ∃ s s',
    Reach Threads.step (fun _ _ => True) (Threads.opened { options := { writeBufferSize := 1 }, wal := some 1 }) s ∧
      run Threads.step (fun _ _ => True) s roundRun = some s' ∧ .caller 1 ∈ s'.blocked ∧
      s'.db.imm = s.db.imm ∧ s'.db.immFlushing = false ∧
      (roundRun.filter fun l => l.thread = some .background).length ≤ 3 ∧
      ∃ l, l.thread = some .background ∧ (s.step l).isSome = true := by
  have hrun : ((run Threads.step (fun _ _ => True)
      (Threads.opened { options := { writeBufferSize := 1 }, wal := some 1 })
      [.work, .wake .background, .workOn, .backgroundFlush,
        .write 0 (.put [107] [118]) 1 true none]).bind fun s =>
      (run Threads.step (fun _ _ => True) s roundRun).map fun s' =>
        (s.db.imm.isSome && decide (s.place .background = .compact) && s.blocked.isEmpty,
          s'.blocked, s'.db.immFlushing)) = some (true, [.caller 1], false) := by decide +kernel
  have hopen : DB.recover { writeBufferSize := 1 } {} (fun _ => 1) =
      .ok ({ options := { writeBufferSize := 1 }, wal := some 1 }, [.openLog 1]) := rfl
  obtain ⟨s, hs, heq⟩ := Option.bind_eq_some_iff.1 hrun
  obtain ⟨s', hs', heq⟩ := Option.map_eq_some_iff.1 heq
  simp only [Prod.mk.injEq, Bool.and_eq_true, decide_eq_true_eq, List.isEmpty_iff] at heq
  obtain ⟨⟨⟨himm, hplace⟩, hblocked⟩, hblocked', hflag⟩ := heq
  have hreach := reach_of_run hs
  have hoptions : s.db.options = { writeBufferSize := 1 } := by
    have hmap : (some s).map (fun s => s.db.options) = some { writeBufferSize := 1 } := by
      rw [← hs]
      decide +kernel
    exact Option.some.inj hmap
  obtain ⟨hcan, -, hcomes, -⟩ := calls_go_on hopen hreach (by rw [hoptions]; decide)
  obtain ⟨himm', hcount⟩ := (hcomes (Option.isSome_iff_ne_none.1 himm)).2 _ s' hs' (by decide)
  exact ⟨s, s', hreach, hs', by simp [hblocked'], himm', hflag, hcount hflag,
    hcan .background (by simp [hblocked]) (by simp [hplace])⟩

end Threads

end MiniLSM
