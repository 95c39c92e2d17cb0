import MiniLSM.Proof.Fullness
import MiniLSM.Spec.Shutdown

/-!
# The destructor ends

* `Flushes`: `imm_flushing_` is set while one thread builds a table, and only then.
* `Sound`: what holds from the start of the destructor on. It blocks only while the background thread
  builds a table, which ends with `notify_all`; behind `notify_one` nobody is blocked.
* `destructor_ends`: no state but the last is without a step, and behind `notify_one` there are at
  most five more.
-/

namespace MiniLSM

open Transition

namespace Threads

variable {s s' : Threads} {t : Thread} {p : Place}

/-- The places of `BackgroundWork`. -/
def Place.inWork : Place → Bool
  | .idle | .room _ | .range => false
  | _ => true

/-- **`imm_flushing_` is set exactly while a thread builds a table**, which is then the only one. -/
structure Flushes (s : Threads) : Prop where
  builder : s.db.immFlushing = true → ∃ t, s.place t = .building
  flag : ∀ t, s.place t = .building → s.db.immFlushing = true
  sole : ∀ t u, s.place t = .building → s.place u = .building → t = u
  background : Place.inWork (s.place .background) = true

namespace Flushes

theorem opened {db : DB} (hfl : db.immFlushing = false) : (opened db).Flushes := by
  have hnone : ∀ t, (Threads.opened db).place t ≠ .building := by
    intro t
    cases t <;> simp [Threads.opened]
  exact ⟨fun h => absurd (h.symm.trans hfl) (by simp), fun t h => absurd h (hnone t),
    fun t _ h => absurd h (hnone t), rfl⟩

/-- A thread moves on outside of the flushes. -/
theorem move (h : s.Flushes) (hplace : s'.place = Function.update s.place t p)
    (hfl : s'.db.immFlushing = s.db.immFlushing) (ht : s.place t ≠ .building) (hp : p ≠ .building)
    (hbg : t = .background → Place.inWork p = true) : s'.Flushes := by
  have hiff : ∀ u, s'.place u = .building ↔ s.place u = .building := by
    intro u
    rw [hplace, Function.update_apply]
    split
    case isTrue heq => rw [heq]; exact iff_of_false hp ht
    case isFalse => rfl
  refine ⟨fun hf => ?_, fun u hu => ?_, fun u v hu hv => ?_, ?_⟩
  · obtain ⟨u, hu⟩ := h.builder (hfl.symm.trans hf)
    exact ⟨u, (hiff u).2 hu⟩
  · exact hfl.trans (h.flag u ((hiff u).1 hu))
  · exact h.sole u v ((hiff u).1 hu) ((hiff v).1 hv)
  · rw [hplace, Function.update_apply]
    split
    case isTrue heq => exact hbg heq.symm
    case isFalse => exact h.background

/-- A thread begins the flush. -/
theorem begin_ (h : s.Flushes) (hplace : s'.place = Function.update s.place t .building)
    (hidle : s.db.immFlushing = false) (hfl : s'.db.immFlushing = true) : s'.Flushes := by
  have hiff : ∀ u, s'.place u = .building ↔ u = t := by
    intro u
    rw [hplace, Function.update_apply]
    split
    case isTrue heq => exact iff_of_true rfl heq
    case isFalse hne => exact iff_of_false (fun hu => absurd ((h.flag u hu).symm.trans hidle) (by simp)) hne
  refine ⟨fun _ => ⟨t, (hiff t).2 rfl⟩, fun _ _ => hfl, fun u v hu hv => ?_, ?_⟩
  · rw [(hiff u).1 hu, (hiff v).1 hv]
  · rw [hplace, Function.update_apply]
    split
    case isTrue => rfl
    case isFalse => exact h.background

/-- The flush ends. -/
theorem end_ (h : s.Flushes) (hplace : s'.place = Function.update s.place t p) (ht : s.place t = .building)
    (hfl : s'.db.immFlushing = false) (hp : p ≠ .building) (hbg : t = .background → Place.inWork p = true) :
    s'.Flushes := by
  have hnone : ∀ u, s'.place u ≠ .building := by
    intro u
    rw [hplace, Function.update_apply]
    split
    case isTrue => exact hp
    case isFalse hne => exact fun hu => hne (h.sole u t hu ht)
  refine ⟨fun hf => absurd (hf.symm.trans hfl) (by simp), fun u hu => absurd hu (hnone u),
    fun u _ hu => absurd hu (hnone u), ?_⟩
  rw [hplace, Function.update_apply]
  split
  case isTrue heq => exact hbg heq.symm
  case isFalse => exact h.background

end Flushes

/-! ## The sections of the threads -/

theorem writeNow_frame {op : DB.WriteOp} {height : ℕ} {appended : Bool}
    (h : s.writeNow t op height appended = some s') :
    s'.place = Function.update s.place t .idle ∧ s'.db.immFlushing = s.db.immFlushing := by
  obtain ⟨⟨db, ops⟩, hw, h⟩ := Option.bind_eq_some_iff.1 h
  cases appended with
  | true =>
    obtain rfl := Option.some.inj h
    exact ⟨rfl, (write_frame hw).2.1⟩
  | false =>
    obtain rfl := Option.some.inj h
    exact ⟨rfl, rfl⟩

/-- A writer waits for room or writes behind a switch of memtables. -/
theorem makeRoom_frame {op : DB.WriteOp} {height : ℕ} {appended : Bool} {pick : Option Thread}
    (h : s.makeRoom t op height appended pick = some s') :
    (s'.place = Function.update s.place t (.room op) ∨ s'.place = Function.update s.place t .idle) ∧
      s'.db.immFlushing = s.db.immFlushing := by
  unfold Threads.makeRoom at h
  split at h
  · obtain rfl := Option.some.inj h
    exact ⟨Or.inl rfl, rfl⟩
  · obtain ⟨⟨db, ops⟩, hrot, h⟩ := Option.bind_eq_some_iff.1 h
    obtain ⟨s₁, hsched, hwrite⟩ := Option.bind_eq_some_iff.1 h
    obtain ⟨n, -, hrot⟩ := Option.bind_eq_some_iff.1 hrot
    obtain ⟨rfl, -⟩ := Prod.ext_iff.1 (Option.some.inj hrot)
    have hs₁ : s₁.place = s.place ∧ s₁.db.immFlushing = s.db.immFlushing := by
      unfold maybeScheduleBackgroundWork at hsched
      split at hsched
      · obtain rfl := Option.some.inj hsched
        exact ⟨rfl, rfl⟩
      · obtain ⟨blocked, -, rfl⟩ := Option.map_eq_some_iff.1 hsched
        exact ⟨rfl, rfl⟩
    obtain ⟨hplace, hfl⟩ := writeNow_frame hwrite
    exact ⟨Or.inr (by rw [hplace, hs₁.1]), hfl.trans hs₁.2⟩

/-- The last section of a flush clears the flag. That of a caller clears `imm_` too. -/
theorem flushed_frame {db db' : DB} {table : Option SSTable} (h : flushed db t table = some db') :
    db'.immFlushing = false ∧ (t ≠ .background → db'.imm = none) := by
  unfold flushed at h
  split at h
  · obtain ⟨r, hr, rfl⟩ := Option.map_eq_some_iff.1 h
    obtain ⟨m, -, hr⟩ := Option.bind_eq_some_iff.1 hr
    rw [← Option.some.inj hr]
    exact ⟨rfl, fun _ => rfl⟩
  · split at h
    · rw [← Option.some.inj h]
      exact ⟨rfl, fun hne => absurd rfl hne⟩
    · obtain ⟨r, hr, rfl⟩ := Option.map_eq_some_iff.1 h
      obtain ⟨m, -, hr⟩ := Option.bind_eq_some_iff.1 hr
      rw [← Option.some.inj hr]
      exact ⟨rfl, fun _ => rfl⟩

theorem flushBegin_idle {db db' : DB} {m : MemTable} {n : ℕ} (h : db.flushBegin = some (m, n, db')) :
    db.immFlushing = false := by
  unfold DB.flushBegin at h
  split at h
  · split at h
    · cases h
    · rename_i hfl
      simpa using hfl
  · cases h

/-- Where a thread goes on behind a compaction. -/
theorem inWork_afterCompaction : t = .background → Place.inWork (afterCompaction t) = true := by
  rintro rfl
  rfl

theorem afterCompaction_not_building (t : Thread) : afterCompaction t ≠ .building := by
  cases t <;> simp [afterCompaction]

/-- **Every section keeps `Flushes`.** -/
theorem Flushes.step (h : s.Flushes) {l : ThreadLabel} (hstep : s.step l = some s') : s'.Flushes := by
  have hcaller : ∀ (i : ℕ) (p : Place), Thread.caller i = .background → Place.inWork p = true :=
    fun i p heq => by cases heq
  have hroom : ∀ {i : ℕ} {op : DB.WriteOp} {height : ℕ} {appended : Bool} {pick : Option Thread},
      s.place (.caller i) ≠ .building → s.makeRoom (.caller i) op height appended pick = some s' →
      s'.Flushes := by
    intro i op height appended pick hne hmake
    obtain ⟨hplace | hplace, hfl⟩ := makeRoom_frame hmake
    · exact h.move hplace hfl hne (by simp) (hcaller i _)
    · exact h.move hplace hfl hne (by simp) (hcaller i _)
  have hrange : ∀ i : ℕ, s.place (.caller i) ≠ .building → (s.flushRange (.caller i)).Flushes := by
    intro i hne
    unfold Threads.flushRange
    split
    · exact h.move rfl rfl hne (by simp) (hcaller i _)
    · split
      · rename_i hbegin
        exact h.begin_ rfl (flushBegin_idle hbegin) (flushBegin_frame hbegin).2.1
      · exact h.move rfl rfl hne (by simp) (hcaller i _)
  cases step_event hstep with
  | @wrote id _ _ _ _ _ hidle _ hwrite =>
    obtain ⟨hplace, hfl⟩ := writeNow_frame hwrite
    exact h.move hplace hfl (by simp [hidle]) (by simp) (hcaller id _)
  | hadNoRoom hidle _ hmake => exact hroom (by simp [hidle]) hmake
  | wentOn hplace _ hmake => exact hroom (by simp [hplace]) hmake
  | @flushedRange id hidle => exact hrange id (by simp [hidle])
  | @flushedRangeOn id hplace _ => exact hrange id (by simp [hplace])
  | rested htop => exact h.move rfl rfl (by simp [htop]) (by simp) fun _ => rfl
  | worked htop => exact h.move rfl rfl (by simp [htop]) (by simp) fun _ => rfl
  | workedOn hwork _ => exact h.move rfl rfl (by simp [hwork]) (by simp) fun _ => rfl
  | flushBegun _ hbegin => exact h.begin_ rfl (flushBegin_idle hbegin) (flushBegin_frame hbegin).2.1
  | nothingToFlush hflush => exact h.move rfl rfl (by simp [hflush]) (by simp) fun _ => rfl
  | @flushEnded t table _ hbuilding hend =>
    obtain ⟨db, hdb, rfl⟩ := Option.map_eq_some_iff.1 hend
    exact h.end_ rfl hbuilding (flushed_frame hdb).1 (by simp) fun _ => rfl
  | @nothingToCompact t hcompact =>
    exact h.move rfl rfl (by simp [hcompact]) (afterCompaction_not_building t) inWork_afterCompaction
  | compactionBegun hcompact => exact h.move rfl rfl (by simp [hcompact]) (by simp) fun _ => rfl
  | @compactionEnded t l0Snapshot l1Indices outputs hmerging =>
    cases outputs with
    | none => exact h.move rfl rfl (by simp [hmerging]) (afterCompaction_not_building t) inWork_afterCompaction
    | some newLevel1 => exact h.move rfl rfl (by simp [hmerging]) (afterCompaction_not_building t) inWork_afterCompaction
  | woken => exact ⟨h.builder, h.flag, h.sole, h.background⟩

/-- **A section of the background thread** moves no caller. It gives `imm_` up, but does not set it, and
blocks only in its own wait. -/
theorem background_frame {l : ThreadLabel} (hl : l.ofBackground = true) (hstep : s.step l = some s') :
    (∀ i, s'.place (.caller i) = s.place (.caller i)) ∧ (s.db.imm = none → s'.db.imm = none) ∧
      (l ≠ .work → s.blocked = [] → s'.blocked = []) := by
  have hgo : ∀ (p : Place) (i : ℕ), (s.go .background p).place (.caller i) = s.place (.caller i) := fun p i => by
    simp [Threads.go]
  cases step_event hstep with
  | rested => exact ⟨hgo .work, id, fun hne => absurd rfl hne⟩
  | worked => exact ⟨hgo .flush, id, fun hne => absurd rfl hne⟩
  | workedOn => exact ⟨hgo .flush, id, fun _ hb => hb⟩
  | flushBegun _ hbegin => exact ⟨hgo .building, fun himm => (flushBegin_frame hbegin).1.trans himm, fun _ hb => hb⟩
  | nothingToFlush => exact ⟨hgo _, id, fun _ hb => hb⟩
  | @flushEnded t table _ hbuilding hend =>
    obtain ⟨db, hdb, rfl⟩ := Option.map_eq_some_iff.1 hend
    cases t with
    | caller => cases hl
    | background =>
      refine ⟨hgo .compact, fun himm => ?_, fun _ _ => rfl⟩
      rcases (flushed_memory hdb).2.2 with heq | hnone
      · exact heq.trans himm
      · exact hnone
  | @nothingToCompact t =>
    cases t with
    | caller => cases hl
    | background => exact ⟨hgo _, id, fun _ hb => hb⟩
  | @compactionBegun t =>
    cases t with
    | caller => cases hl
    | background => exact ⟨hgo _, id, fun _ hb => hb⟩
  | @compactionEnded t l0Snapshot l1Indices outputs =>
    cases t with
    | caller => cases hl
    | background =>
      cases outputs with
      | none => exact ⟨hgo _, id, fun _ hb => hb⟩
      | some newLevel1 => exact ⟨hgo .top, id, fun _ _ => rfl⟩
  | woken => exact ⟨fun _ => rfl, id, fun _ hb => by simp [hb]⟩
  | _ => cases hl

end Threads

namespace Shutdown

variable {s s' : Shutdown}

/-- **What holds from the start of the destructor on.** -/
structure Sound (s : Shutdown) : Prop where
  attended : s.threads.Attended
  flushes : s.threads.Flushes
  others : ∀ i, i ≠ s.id → s.threads.place (.caller i) = .idle
  own : s.threads.place s.self = .idle ∨
    s.teardown = .flushing ∧ (s.threads.place s.self = .range ∨ s.threads.place s.self = .building)
  imm : s.teardown ≠ .flushing → s.threads.db.imm = none
  flag : s.shuttingDown = true ↔ s.teardown = .notify ∨ s.teardown = .join ∨ s.teardown = .done
  woken : s.teardown = .join ∨ s.teardown = .done → s.threads.blocked = []
  exited : s.exited = true → s.shuttingDown = true ∧
    (s.threads.place .background = .top ∨ s.threads.place .background = .work) ∧
    .background ∉ s.threads.blocked
  done : s.teardown = .done → s.exited = true

theorem start_sound {t : Threads} (ha : t.Attended) (hf : t.Flushes) (hidle : ∀ i, t.place (.caller i) = .idle)
    (id : ℕ) : Sound { threads := t, id := id } :=
  ⟨ha, hf, fun i _ => hidle i, Or.inl (hidle id), fun h => absurd rfl h, by simp, by simp, by simp, by simp⟩

/-- A step of a thread: `BackgroundWork` returns, or a section. -/
theorem stepThread_cases {l : ThreadLabel} (h : s.stepThread l = some s') : l.ofBackground = true ∧
    (s.leaves l = true ∧ s.exited = false ∧ s' = { s with exited := true } ∨
      s.leaves l = false ∧ ∃ threads, s.threads.step l = some threads ∧ s' = { s with threads := threads }) := by
  unfold stepThread at h
  split at h
  · cases h
  · rename_i hl
    refine ⟨by simpa using hl, ?_⟩
    split at h
    · rename_i hleaves
      split at h
      · cases h
      · rename_i hexited
        exact Or.inl ⟨hleaves, by simpa using hexited, (Option.some.inj h).symm⟩
    · rename_i hleaves
      obtain ⟨threads, hstep, rfl⟩ := Option.map_eq_some_iff.1 h
      exact Or.inr ⟨by simpa using hleaves, threads, hstep, rfl⟩

/-- `BackgroundWork` returns at the top of its loop or behind its wait. -/
theorem leaves_spec (h : s.threads.Attended) {l : ThreadLabel} (hl : s.leaves l = true) :
    s.shuttingDown = true ∧ (s.threads.place .background = .top ∨ s.threads.place .background = .work) ∧
      .background ∉ s.threads.blocked := by
  cases l with
  | work =>
    simp only [leaves, Bool.and_eq_true, decide_eq_true_eq] at hl
    exact ⟨hl.1, Or.inl hl.2, h.free (by simp [Threads.Reason, hl.2])⟩
  | workOn =>
    simp only [leaves, Bool.and_eq_true, decide_eq_true_eq, Bool.not_eq_true', List.contains_eq_mem,
      decide_eq_false_iff_not] at hl
    exact ⟨hl.1.1, Or.inr hl.1.2, hl.2⟩
  | _ => cases hl

/-- Where the background thread stands when a label of its can be taken. -/
theorem place_of_step {s s' : Threads} {l : ThreadLabel} (hl : l.ofBackground = true) (hs : s.step l = some s') :
    (∃ t, l = .wake t ∧ s' = { s with blocked := s.blocked.erase t }) ∨
    l = .work ∧ s.place .background = .top ∨
    l = .workOn ∧ s.place .background = .work ∧ .background ∉ s.blocked ∨
    l ≠ .work ∧ s.place .background ≠ .top ∧ s.place .background ≠ .work := by
  cases Threads.step_event hs with
  | rested htop => exact Or.inr (Or.inl ⟨rfl, htop⟩)
  | worked htop => exact Or.inr (Or.inl ⟨rfl, htop⟩)
  | workedOn hwork hnot => exact Or.inr (Or.inr (Or.inl ⟨rfl, hwork, hnot⟩))
  | flushBegun hflush => exact Or.inr (Or.inr (Or.inr (by simp [hflush])))
  | nothingToFlush hflush => exact Or.inr (Or.inr (Or.inr (by simp [hflush])))
  | @flushEnded t _ _ hbuilding =>
    cases t with
    | caller => cases hl
    | background => exact Or.inr (Or.inr (Or.inr (by simp [hbuilding])))
  | @nothingToCompact t hcompact =>
    cases t with
    | caller => cases hl
    | background => exact Or.inr (Or.inr (Or.inr (by simp [hcompact])))
  | @compactionBegun t hcompact =>
    cases t with
    | caller => cases hl
    | background => exact Or.inr (Or.inr (Or.inr (by simp [hcompact])))
  | @compactionEnded t _ _ _ hmerging =>
    cases t with
    | caller => cases hl
    | background => exact Or.inr (Or.inr (Or.inr (by simp [hmerging])))
  | @woken t => exact Or.inl ⟨t, rfl, rfl⟩
  | _ => cases hl

/-- Behind the store of the flag a section is not one of the two that test it. -/
theorem place_of_section {l : ThreadLabel} {threads : Threads} (hflag : s.shuttingDown = true)
    (hl : l.ofBackground = true) (hleaves : s.leaves l = false) (hs : s.threads.step l = some threads) :
    (∃ t, l = .wake t ∧ threads = { s.threads with blocked := s.threads.blocked.erase t }) ∨
    l ≠ .work ∧ s.threads.place .background ≠ .top ∧ s.threads.place .background ≠ .work := by
  rcases place_of_step hl hs with hwake | ⟨rfl, htop⟩ | ⟨rfl, hwork, hnot⟩ | hne
  · exact Or.inl hwake
  · simp [leaves, hflag, htop] at hleaves
  · simp [leaves, hflag, hwork, hnot] at hleaves
  · exact Or.inr hne

/-- **A step of the background thread.** -/
theorem Sound.stepThread (h : s.Sound) {l : ThreadLabel} (hstep : s.stepThread l = some s') : s'.Sound := by
  obtain ⟨hl, ⟨hleaves, -, rfl⟩ | ⟨hleaves, threads, hs, rfl⟩⟩ := stepThread_cases hstep
  · exact { h with exited := fun _ => leaves_spec h.attended hleaves, done := fun _ => rfl }
  obtain ⟨hplace, himm, hblocked⟩ := Threads.background_frame hl hs
  refine ⟨h.attended.step hs, h.flushes.step hs, fun i hi => (hplace i).trans (h.others i hi), ?_,
    fun hne => himm (h.imm hne), h.flag, fun hw => ?_, fun hx => ?_, h.done⟩
  · have hself := h.own
    rw [self, ← hplace] at hself
    exact hself
  · have hflag := h.flag.2 (Or.inr hw)
    have hnil := h.woken hw
    rcases place_of_section hflag hl hleaves hs with ⟨t, rfl, -⟩ | ⟨hne, -⟩
    · exact hblocked (by simp) hnil
    · exact hblocked hne hnil
  · obtain ⟨hflag, hat, hnot⟩ := h.exited hx
    rcases place_of_section hflag hl hleaves hs with ⟨t, rfl, rfl⟩ | ⟨-, htop, hwork⟩
    · exact ⟨hflag, hat, fun hmem => hnot (List.mem_of_mem_erase hmem)⟩
    · exact absurd hat (not_or.2 ⟨htop, hwork⟩)

/-- The destructor goes on to a place of its flush. -/
theorem Sound.goSelf (h : s.Sound) {threads : Threads} {p : Place} {teardown : Teardown}
    (hplace : threads.place = Function.update s.threads.place s.self p)
    (hflushing : s.teardown = .flushing) (ha : threads.Attended) (hf : threads.Flushes)
    (hp : teardown = .flushing ∧ (p = .range ∨ p = .building) ∨
      teardown = .signal ∧ p = .idle ∧ threads.db.imm = none) :
    Sound { s with threads := threads, teardown := teardown } := by
  have hbg : threads.place .background = s.threads.place .background := by
    rw [hplace]
    exact Function.update_of_ne (by simp [self]) _ _
  have hown : threads.place s.self = p := by rw [hplace, Function.update_self]
  have hnot : s.shuttingDown = false := by
    by_contra hs
    rcases h.flag.1 (by simpa using hs) with heq | heq | heq <;> simp [hflushing] at heq
  have hexited : s.exited = false := by
    by_contra hx
    exact absurd ((h.exited (by simpa using hx)).1.symm.trans hnot) (by simp)
  have hteardown : teardown ≠ .notify ∧ teardown ≠ .join ∧ teardown ≠ .done := by
    rcases hp with ⟨rfl, -⟩ | ⟨rfl, -⟩ <;> simp
  refine ⟨ha, hf, fun i hi => ?_, ?_, fun hne => ?_, ?_, fun hw => ?_, fun hx => ?_, fun hd => ?_⟩
  · show threads.place (.caller i) = .idle
    rw [hplace, Function.update_of_ne (by simpa [self] using hi)]
    exact h.others i hi
  · show threads.place s.self = .idle ∨ teardown = .flushing ∧
      (threads.place s.self = .range ∨ threads.place s.self = .building)
    rw [hown]
    rcases hp with ⟨hteardown, hp⟩ | ⟨-, hp, -⟩
    · exact Or.inr ⟨hteardown, hp⟩
    · exact Or.inl hp
  · rcases hp with ⟨hteardown, -⟩ | ⟨-, -, himm⟩
    · exact absurd hteardown hne
    · exact himm
  · show s.shuttingDown = true ↔ teardown = .notify ∨ teardown = .join ∨ teardown = .done
    simp [hnot, hteardown]
  · exact absurd hw (not_or.2 hteardown.2)
  · exact absurd (hx.symm.trans hexited) (by simp)
  · exact absurd hd hteardown.2.2

/-- The first section of the destructor. -/
theorem Sound.flushImm (h : s.Sound) (hflushing : s.teardown = .flushing)
    (hself : s.threads.place s.self ≠ .building) (hfree : s.self ∉ s.threads.blocked) : s.flushImm.Sound := by
  have hbg : ∀ p : Place, s.self = .background → Threads.Place.inWork p = true := fun _ heq => by cases heq
  unfold Shutdown.flushImm
  split
  · rename_i hfl
    refine hflushing ▸ h.goSelf (p := .range) rfl hflushing (h.attended.wait hfree ?_)
      (h.flushes.move rfl rfl hself (by simp) (hbg _)) (Or.inl ⟨rfl, Or.inl rfl⟩)
    unfold Threads.Reason Threads.go
    simpa [self] using hfl
  · rename_i hfl
    split
    · rename_i m n db hbegin
      exact hflushing ▸ h.goSelf (p := .building) rfl hflushing (h.attended.flushBegin hfree hbegin)
        (h.flushes.begin_ rfl (Threads.flushBegin_idle hbegin) (Threads.flushBegin_frame hbegin).2.1)
        (Or.inl ⟨rfl, Or.inr rfl⟩)
    · rename_i hnone
      have himm : s.threads.db.imm = none := by
        unfold DB.flushBegin at hnone
        split at hnone
        · simp [hfl] at hnone
        · assumption
      exact h.goSelf (p := .idle) rfl hflushing (h.attended.go hfree .idle)
        (h.flushes.move rfl rfl hself (by simp) (hbg _)) (Or.inr ⟨rfl, rfl, himm⟩)

/-- **A section of the destructor.** -/
theorem Sound.stepDestructor (h : s.Sound) {table : Option SSTable} {pick : Option Thread}
    (hstep : s.stepDestructor table pick = some s') : s'.Sound := by
  have hselfFree : s.threads.place s.self ≠ .range → s.self ∉ s.threads.blocked := fun hne => by
    refine h.attended.free ?_
    rcases h.own with hown | ⟨-, hown | hown⟩
    · simp [Threads.Reason, self, show s.threads.place (.caller s.id) = .idle from hown]
    · exact absurd hown hne
    · simp [Threads.Reason, self, show s.threads.place (.caller s.id) = .building from hown]
  unfold Shutdown.stepDestructor at hstep
  split at hstep
  · rename_i hflushing
    split at hstep
    · rename_i hown
      obtain rfl := Option.some.inj hstep
      exact h.flushImm hflushing (by simp [hown]) (hselfFree (by simp [hown]))
    · rename_i hown
      split at hstep
      · cases hstep
      · rename_i hfree
        obtain rfl := Option.some.inj hstep
        exact h.flushImm hflushing (by simp [hown]) hfree
    · rename_i hown
      obtain ⟨db, hdb, rfl⟩ := Option.map_eq_some_iff.1 hstep
      obtain ⟨hfl, himm⟩ := Threads.flushed_frame hdb
      -- the background thread is not blocked while there is an `imm_`
      have hnil : s.threads.blocked = [] := by
        refine List.eq_nil_iff_forall_not_mem.2 fun t ht => ?_
        have hr := h.attended.justified.reasons t ht
        have himm' := h.attended.flushing (h.flushes.flag _ hown)
        cases t with
        | background =>
          unfold Threads.Reason at hr
          split at hr
          · exact himm' hr.1
          · rename_i heq _; cases heq
          · rename_i heq _; cases heq
          · exact hr
        | caller i =>
          rcases eq_or_ne i s.id with rfl | hne
          · exact hselfFree (by simp [hown]) ht
          · simp [Threads.Reason, h.others i hne] at hr
      refine h.goSelf (p := .idle) rfl hflushing (.of_nil hnil fun hf => absurd (hf.symm.trans hfl) (by simp))
        (h.flushes.end_ rfl hown hfl (by simp) fun heq => by cases heq)
        (Or.inr ⟨rfl, rfl, himm (by simp [self])⟩)
    · cases hstep
  · rename_i hsignal
    obtain rfl := Option.some.inj hstep
    have hown := h.own.resolve_right fun hr => by simp [hsignal] at hr
    exact ⟨h.attended, h.flushes, h.others, Or.inl hown, fun _ => h.imm (by simp [hsignal]), by simp, by simp,
      fun hx => ⟨rfl, (h.exited hx).2⟩, by simp⟩
  · rename_i hnotify
    obtain ⟨blocked, hone, rfl⟩ := Option.map_eq_some_iff.1 hstep
    have hown := h.own.resolve_right fun hr => by simp [hnotify] at hr
    -- the destructor itself runs, so `notify_one` can only wake the background thread
    have hnil : blocked = [] := by
      refine Monitor.notifyOne_sole (u := .background) h.attended.justified.once (fun t ht => ?_) hone
      cases t with
      | background => rfl
      | caller i =>
        rcases eq_or_ne i s.id with rfl | hne
        · exact absurd ht (hselfFree (by simp [hown]))
        · have hr := h.attended.justified.reasons _ ht
          simp [Threads.Reason, h.others i hne] at hr
    subst hnil
    have hs := h.flag.2 (Or.inl hnotify)
    exact ⟨.of_nil rfl h.attended.flushing, ⟨h.flushes.builder, h.flushes.flag, h.flushes.sole, h.flushes.background⟩,
      h.others, Or.inl hown, fun _ => h.imm (by simp [hnotify]), by simp [hs], fun _ => rfl,
      fun hx => ⟨hs, (h.exited hx).2.1, by simp⟩, by simp⟩
  · rename_i hjoin
    split at hstep
    · rename_i hexited
      obtain rfl := Option.some.inj hstep
      have hown := h.own.resolve_right fun hr => by simp [hjoin] at hr
      exact ⟨h.attended, h.flushes, h.others, Or.inl hown, fun _ => h.imm (by simp [hjoin]),
        by simp [h.flag.2 (Or.inr (Or.inl hjoin))], fun _ => h.woken (Or.inl hjoin), h.exited, fun _ => hexited⟩
    · cases hstep
  · cases hstep

theorem Sound.step (h : s.Sound) {l : ShutdownLabel} (hstep : s.step l = some s') : s'.Sound := by
  cases l with
  | thread l => exact h.stepThread hstep
  | destructor table pick => exact h.stepDestructor hstep

/-! ## The end -/

/-- The background thread can take a step of its own. -/
theorem Sound.background_steps (h : s.Sound) (hexited : s.exited = false)
    (htrigger : 0 < s.threads.db.options.l0CompactionTrigger) (hfree : .background ∉ s.threads.blocked) :
    ∃ l, (∀ t, l ≠ .thread (.wake t)) ∧ (s.step l).isSome = true := by
  have hbg := h.flushes.background
  cases hplace : s.threads.place .background with
  | idle | room | range => rw [hplace] at hbg; cases hbg
  | top =>
    refine ⟨.thread .work, by simp, ?_⟩
    cases hs : s.shuttingDown with
    | true => simp [Shutdown.step, Shutdown.stepThread, ThreadLabel.ofBackground, leaves, hs, hplace, hexited]
    | false =>
      simp only [Shutdown.step, Shutdown.stepThread, ThreadLabel.ofBackground, leaves, hs, Threads.step, hplace, Bool.not_true,
        Bool.false_and, Bool.false_eq_true, if_false]
      split <;> rfl
  | work =>
    refine ⟨.thread .workOn, by simp, ?_⟩
    cases hs : s.shuttingDown with
    | true => simp [Shutdown.step, Shutdown.stepThread, ThreadLabel.ofBackground, leaves, hs, hplace, hexited, hfree]
    | false => simp [Shutdown.step, Shutdown.stepThread, ThreadLabel.ofBackground, leaves, hs, Threads.step, hplace, hfree]
  | flush =>
    refine ⟨.thread .backgroundFlush, by simp, ?_⟩
    simp only [Shutdown.step, Shutdown.stepThread, ThreadLabel.ofBackground, leaves, Threads.step, hplace, Bool.not_true,
      Bool.false_eq_true, if_false]
    split <;> rfl
  | building =>
    refine ⟨.thread (.flushEnd .background none), by simp, ?_⟩
    simp [Shutdown.step, Shutdown.stepThread, ThreadLabel.ofBackground, leaves, Threads.step, hplace, Threads.endFlush, Threads.flushed]
  | compact =>
    refine ⟨.thread (.compactBegin .background), by simp, ?_⟩
    simp only [Shutdown.step, Shutdown.stepThread, ThreadLabel.ofBackground, leaves, Threads.step, hplace, Bool.not_true,
      Bool.false_eq_true, if_false, Threads.beginCompaction]
    split
    · rfl
    · rename_i hneed
      have hl0 : s.threads.db.levels.l0 ≠ [] := fun hnil => by
        simp only [DB.needCompaction, hnil, List.length_nil, Nat.cast_zero, Bool.not_eq_true', decide_eq_false_iff_not,
          not_not] at hneed
        omega
      rw [if_neg hl0]
      rfl
  | merging l0Snapshot l1Indices =>
    refine ⟨.thread (.compactEnd .background none), by simp, ?_⟩
    simp [Shutdown.step, Shutdown.stepThread, ThreadLabel.ofBackground, leaves, Threads.step, hplace]

/-- While the destructor waits, the background thread builds a table. -/
theorem Sound.building_of_blocked (h : s.Sound) (hb : s.self ∈ s.threads.blocked) :
    s.threads.place .background = .building := by
  have hr := h.attended.justified.reasons _ hb
  rcases h.own with hown | ⟨-, hown | hown⟩
  · simp [Threads.Reason, self, show s.threads.place (.caller s.id) = .idle from hown] at hr
  · have hfl : s.threads.db.immFlushing = true := by
      simpa [Threads.Reason, self, show s.threads.place (.caller s.id) = .range from hown] using hr
    obtain ⟨t, ht⟩ := h.flushes.builder hfl
    cases t with
    | background => exact ht
    | caller i =>
      rcases eq_or_ne i s.id with rfl | hne
      · exact absurd (hown.symm.trans ht) (by simp)
      · exact absurd ((h.others i hne).symm.trans ht) (by simp)
  · simp [Threads.Reason, self, show s.threads.place (.caller s.id) = .building from hown] at hr

/-- **No state but the last is without a step.** -/
theorem Sound.goes_on (h : s.Sound) (hdone : s.teardown ≠ .done)
    (htrigger : 0 < s.threads.db.options.l0CompactionTrigger) :
    ∃ l, (∀ t, l ≠ .thread (.wake t)) ∧ (s.step l).isSome = true := by
  cases hteardown : s.teardown with
  | flushing =>
    rcases h.own with hown | ⟨-, hown | hown⟩
    · exact ⟨.destructor none none, by simp, by simp [Shutdown.step, Shutdown.stepDestructor, hteardown, hown]⟩
    · by_cases hb : s.self ∈ s.threads.blocked
      · have hbuilding := h.building_of_blocked hb
        refine h.background_steps ?_ htrigger (h.attended.free (by simp [Threads.Reason, hbuilding]))
        by_contra hx
        have hat := (h.exited (by simpa using hx)).2.1
        simp [hbuilding] at hat
      · exact ⟨.destructor none none, by simp, by simp [Shutdown.step, Shutdown.stepDestructor, hteardown, hown, hb]⟩
    · refine ⟨.destructor none none, by simp, ?_⟩
      obtain ⟨m, hm⟩ := Option.ne_none_iff_exists'.1 (h.attended.flushing (h.flushes.flag _ hown))
      simp only [Shutdown.step, Shutdown.stepDestructor, hteardown, hown, Option.isSome_map]
      simp [Threads.flushed, self, DB.flushDrop, hm]
  | signal => exact ⟨.destructor none none, by simp, by simp [Shutdown.step, Shutdown.stepDestructor, hteardown]⟩
  | notify =>
    cases hb : s.threads.blocked with
    | nil =>
      exact ⟨.destructor none none, by simp, by simp [Shutdown.step, Shutdown.stepDestructor, hteardown, hb, Monitor.notifyOne]⟩
    | cons t ts =>
      exact ⟨.destructor none (some t), by simp, by simp [Shutdown.step, Shutdown.stepDestructor, hteardown, hb, Monitor.notifyOne]⟩
  | join =>
    cases hx : s.exited with
    | true => exact ⟨.destructor none none, by simp, by simp [Shutdown.step, Shutdown.stepDestructor, hteardown, hx]⟩
    | false => exact h.background_steps hx htrigger (by simp [h.woken (Or.inl hteardown)])
  | done => exact absurd hteardown hdone

/-- How many steps are left behind `notify_one`, at most. -/
def left (s : Shutdown) : ℕ :=
  if s.teardown = .done then 0
  else if s.exited then 1
  else
    match s.threads.place .background with
    | .flush | .building => 5
    | .compact => 4
    | .merging _ _ => 3
    | _ => 2

theorem left_le (s : Shutdown) : s.left ≤ 5 := by
  unfold left
  split
  · omega
  · split
    · omega
    · split <;> omega

/-- **Every step behind `notify_one` comes closer to the end.** -/
theorem Sound.left_lt (h : s.Sound) (hjoin : s.teardown = .join ∨ s.teardown = .done) {l : ShutdownLabel}
    (hstep : s.step l = some s') : (s'.teardown = .join ∨ s'.teardown = .done) ∧ s'.left < s.left := by
  have hflag := h.flag.2 (Or.inr hjoin)
  have hnil := h.woken hjoin
  cases l with
  | destructor table pick =>
    rcases hjoin with hjoin | hdone
    · simp only [Shutdown.step, Shutdown.stepDestructor, hjoin] at hstep
      split at hstep
      · rename_i hx
        obtain rfl := Option.some.inj hstep
        exact ⟨Or.inr rfl, by simp [left, hjoin, hx]⟩
      · cases hstep
    · simp [Shutdown.step, Shutdown.stepDestructor, hdone] at hstep
  | thread l =>
    obtain ⟨hl, ⟨hleaves, hx, rfl⟩ | ⟨hleaves, threads, hs, rfl⟩⟩ := stepThread_cases hstep
    · obtain ⟨-, hat, -⟩ := leaves_spec h.attended hleaves
      have hne : s.teardown ≠ .done := fun hdone => absurd ((h.done hdone).symm.trans hx) (by simp)
      refine ⟨hjoin, ?_⟩
      rcases hat with hat | hat <;> simp [left, hne, hx, hat]
    · refine ⟨hjoin, ?_⟩
      rcases place_of_section hflag hl hleaves hs with ⟨t, rfl, -⟩ | ⟨hwork, hat⟩
      · simp [Threads.step, hnil] at hs
      have hx : s.exited = false := by
        by_contra hx
        exact absurd (h.exited (by simpa using hx)).2.1 (not_or.2 hat)
      have hne : s.teardown ≠ .done := fun hdone => absurd ((h.done hdone).symm.trans hx) (by simp)
      have himm := h.imm (by rcases hjoin with heq | heq <;> simp [heq])
      simp only [left, if_neg hne, hx, Bool.false_eq_true, if_false]
      cases Threads.step_event hs with
      | rested htop => exact absurd htop hat.1
      | worked htop => exact absurd htop hat.1
      | workedOn hwork' => exact absurd hwork' hat.2
      | flushBegun _ hbegin => exact absurd himm (Threads.flushBegin_frame hbegin).2.2.2
      | nothingToFlush hflush => simp [hflush, Threads.go]
      | @flushEnded t table _ hbuilding =>
        cases t with
        | caller => cases hl
        | background => exact absurd himm (h.attended.flushing (h.flushes.flag _ hbuilding))
      | @nothingToCompact t hcompact =>
        cases t with
        | caller => cases hl
        | background => simp [hcompact, Threads.go, Threads.afterCompaction]
      | @compactionBegun t hcompact =>
        cases t with
        | caller => cases hl
        | background => simp [hcompact, Threads.go]
      | @compactionEnded t l0Snapshot l1Indices outputs hmerging =>
        cases t with
        | caller => cases hl
        | background => cases outputs <;>
            simp [hmerging, Threads.go, Threads.notifyAll, Threads.endCompaction, Threads.afterCompaction]
      | woken => simp [Threads.step, hnil] at hs
      | _ => cases hl

/-- **A run behind `notify_one`** has at most `left` steps. -/
theorem Sound.length_le_left (h : s.Sound) (hjoin : s.teardown = .join ∨ s.teardown = .done)
    {ls : List ShutdownLabel} (hrun : run Shutdown.step (fun _ _ => True) s ls = some s') : ls.length ≤ s.left := by
  induction ls generalizing s with
  | nil => exact Nat.zero_le _
  | cons l ls ih =>
    obtain ⟨s₁, -, hstep, hrest⟩ := run_cons.1 hrun
    obtain ⟨hjoin', hlt⟩ := h.left_lt hjoin hstep
    have hle := ih (h.step hstep) hjoin' hrest
    rw [List.length_cons]
    omega

theorem flushes_of_reach {ok : Threads → ThreadLabel → Prop} {options : Options} {disk : Disk}
    {heights : ℕ → ℕ} {db : DB} {ops : List FsOp} {t : Threads}
    (hopen : DB.recover options disk heights = .ok (db, ops))
    (h : Reach Threads.step ok (Threads.opened db) t) : t.Attended ∧ t.Flushes :=
  Reach.invariant (I := fun t => t.Attended ∧ t.Flushes)
    ⟨.opened (recover_idle hopen).2, .opened (recover_idle hopen).2⟩
    (fun _ _ _ hi _ hs => ⟨hi.1.step hs, hi.2.step hs⟩) h

/-- **The destructor ends.** It starts when no other call is under way. It waits only while the
background thread builds a table, and no state but the last is without a step; behind its
`notify_one` nobody is blocked, `imm_` is gone and at most five steps are left, of which the
return of `BackgroundWork` is one and the end of `join` the last. -/
theorem destructor_ends {ok : Threads → ThreadLabel → Prop} {options : Options} {disk : Disk}
    {heights : ℕ → ℕ} {db : DB} {ops : List FsOp} {t : Threads} {id : ℕ}
    (hopen : DB.recover options disk heights = .ok (db, ops))
    (ht : Reach Threads.step ok (Threads.opened db) t) (hidle : ∀ i, t.place (.caller i) = .idle)
    (h : Reach Shutdown.step (fun _ _ => True) { threads := t, id := id } s) :
    (s.self ∈ s.threads.blocked → s.threads.place .background = .building) ∧
    (s.teardown ≠ .done → 0 < s.threads.db.options.l0CompactionTrigger →
      ∃ l, (∀ t, l ≠ .thread (.wake t)) ∧ (s.step l).isSome = true) ∧
    (s.teardown = .join ∨ s.teardown = .done → s.threads.blocked = [] ∧ s.threads.db.imm = none ∧
      ∀ ls s', run Shutdown.step (fun _ _ => True) s ls = some s' → ls.length ≤ 5) ∧
    (s.teardown = .done → s.exited = true) := by
  obtain ⟨ha, hf⟩ := flushes_of_reach hopen ht
  have hs : s.Sound := Reach.invariant (start_sound ha hf hidle id) (fun _ _ _ hi _ hstep => hi.step hstep) h
  refine ⟨hs.building_of_blocked, hs.goes_on, fun hjoin => ⟨hs.woken hjoin, hs.imm ?_, fun ls s' hrun => ?_⟩, hs.done⟩
  · rcases hjoin with heq | heq <;> simp [heq]
  · exact (hs.length_le_left hjoin hrun).trans (left_le s)

/-- The destructor blocks behind a flush of the background thread that fails, and flushes itself while the
background thread looks for work. -/
def teardownRun : List ShutdownLabel :=
  [.thread .workOn, .thread .backgroundFlush, .destructor none none, .thread (.flushEnd .background none),
    .destructor none none, .thread (.compactBegin .background), .thread .work, .destructor none none,
    .destructor none none, .destructor none none]

theorem destructor_ends_teardownRun : ∃ t s,
    Reach Threads.step (fun _ _ => True)
      (Threads.opened { options := { writeBufferSize := 1 }, wal := some 1 }) t ∧
    Reach Shutdown.step (fun _ _ => True) { threads := t, id := 0 } s ∧ s.teardown = .join ∧
    s.threads.place .background = .flush ∧ s.threads.blocked = [] ∧ s.threads.db.imm = none := by
  have hrun : ((run Threads.step (fun _ _ => True)
      (Threads.opened { options := { writeBufferSize := 1 }, wal := some 1 })
      [.work, .write 0 (.put [107] [118]) 1 true (some .background)]).bind fun t =>
        (run Shutdown.step (fun _ _ => True) { threads := t, id := 0 } teardownRun).map fun s =>
          (s.teardown, s.threads.place .background)) = some (.join, .flush) := by decide +kernel
  have hopen : DB.recover { writeBufferSize := 1 } {} (fun _ => 1) =
      .ok ({ options := { writeBufferSize := 1 }, wal := some 1 }, [.openLog 1]) := rfl
  obtain ⟨t, ht, hs⟩ := Option.bind_eq_some_iff.1 hrun
  obtain ⟨s, hs, heq⟩ := Option.map_eq_some_iff.1 hs
  simp only [Prod.mk.injEq] at heq
  have hidle : ∀ i, t.place (.caller i) = .idle := by
    intro i
    have hplace : (some t).map (fun t => t.place (.caller i)) = some .idle := by
      rw [← ht]
      cases i <;> rfl
    exact Option.some.inj hplace
  obtain ⟨-, -, hjoin, -⟩ := destructor_ends hopen (reach_of_run ht) hidle (reach_of_run hs)
  obtain ⟨hblocked, himm, -⟩ := hjoin (Or.inl heq.1)
  exact ⟨t, s, reach_of_run ht, reach_of_run hs, heq.1, heq.2, hblocked, himm⟩

end Shutdown

end MiniLSM
