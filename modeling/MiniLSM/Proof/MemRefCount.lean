import MiniLSM.Proof.Files
import MiniLSM.Spec.MemRefCount

/-!
# The counts of the memtables are exact

Three paths give the reference of `imm_` back, all of them through `imm_` itself. While a flush is
under way `imm_` is not moved, so this is the memtable that the flush has captured.

* `Sound`: the counts, and the one flush that can be under way.
* `refs_of_reach`: in every reachable state a count is the number of holders, and a memtable is
  deleted if and only if it has none.
-/

namespace MiniLSM

open Transition RefCount

/-- A database just opened has no `imm_`. -/
theorem recover_idle {options : Options} {disk : Disk} {heights : ℕ → ℕ} {db : DB} {ops : List FsOp}
    (h : DB.recover options disk heights = .ok (db, ops)) : db.imm = none ∧ db.immFlushing = false := by
  obtain ⟨m, mem, seq, -, rfl⟩ := World.recover_ok h
  exact ⟨rfl, rfl⟩

namespace MemRefWorld

variable {s s' : MemRefWorld}

/-- **The counts are exact.** A flush under way is the only one and has captured `imm_`; when its
table is built or has failed, its iterator is gone. -/
structure Sound (s : MemRefWorld) : Prop where
  exact : Exact s.refs s.holders
  made : ∀ n, n ∈ s.refs.made ↔ n < s.made
  distinct : s.pointed.Nodup
  imm : s.imm.isSome = s.world.db.imm.isSome
  idle : s.world.db.immFlushing = false → s.world.flushes = [] ∧ s.flushes = []
  busy : s.world.db.immFlushing = true → ∃ job f, s.world.flushes = [job] ∧ s.flushes = [f] ∧
    s.imm = some f.immPtr ∧ (job.result = .building ∨ f.iter = .deleted)

theorem fresh_sound (options : Options) : Sound { world := World.fresh options } where
  exact := Exact.empty.make (by simp)
  made n := by simp [Counts.run, Op.apply]
  distinct := by simp [pointed]
  imm := rfl
  idle _ := ⟨rfl, rfl⟩
  busy h := absurd h (by simp [World.fresh])

namespace Sound

/-- Flushes are under way only while the flag is set. -/
theorem flushing (h : s.Sound) (hne : s.world.flushes ≠ [] ∨ s.flushes ≠ []) :
    s.world.db.immFlushing = true := by
  cases hf : s.world.db.immFlushing with
  | true => rfl
  | false =>
    obtain ⟨hjobs, hflushes⟩ := h.idle hf
    exact absurd hne (by simp [hjobs, hflushes])

/-- A flush under way, in the database and beside it. -/
theorem job (h : s.Sound) {i : ℕ} {job : FlushJob} (hi : s.world.flushes[i]? = some job) :
    ∃ f, i = 0 ∧ s.world.flushes = [job] ∧ s.flushes = [f] ∧ s.world.db.immFlushing = true ∧
      s.imm = some f.immPtr ∧ (job.result = .building ∨ f.iter = .deleted) := by
  have hfl := h.flushing (.inl (List.ne_nil_of_mem (List.mem_of_getElem? hi)))
  obtain ⟨job', f, hjobs, hflushes, himm, hres⟩ := h.busy hfl
  obtain ⟨rfl, rfl⟩ := World.eq_of_sole hjobs hi
  exact ⟨f, rfl, hjobs, hflushes, hfl, himm, hres⟩

theorem flush (h : s.Sound) {i : ℕ} {f : FlushPointers} (hi : s.flushes[i]? = some f) :
    ∃ job, i = 0 ∧ s.world.flushes = [job] ∧ s.flushes = [f] ∧ s.world.db.immFlushing = true ∧
      s.imm = some f.immPtr ∧ (job.result = .building ∨ f.iter = .deleted) := by
  have hfl := h.flushing (.inr (List.ne_nil_of_mem (List.mem_of_getElem? hi)))
  obtain ⟨job, f', hjobs, hflushes, himm, hres⟩ := h.busy hfl
  obtain ⟨rfl, rfl⟩ := World.eq_of_sole hflushes hi
  exact ⟨job, rfl, hjobs, hflushes, hfl, himm, hres⟩

/-- Without `imm_` no flush is under way. -/
theorem idle_of_none (h : s.Sound) (himm : s.world.db.imm = none) :
    s.imm = none ∧ s.world.db.immFlushing = false ∧ s.flushes = [] := by
  have hnone : s.imm = none := by
    have := h.imm
    rw [himm] at this
    simpa using this
  cases hf : s.world.db.immFlushing with
  | false => exact ⟨hnone, rfl, (h.idle hf).2⟩
  | true =>
    obtain ⟨job, f, -, -, hsome, -⟩ := h.busy hf
    rw [hnone] at hsome
    cases hsome

/-- Sections that move no pointer. -/
theorem keep (h : s.Sound) {w : World} (himm : w.db.imm.isSome = s.world.db.imm.isSome)
    (hfl : w.db.immFlushing = s.world.db.immFlushing) (hf : w.flushes = s.world.flushes) :
    Sound { s with world := w } :=
  { exact := h.exact
    made := h.made
    distinct := h.distinct
    imm := h.imm.trans himm.symm
    idle := by simpa only [hfl, hf] using h.idle
    busy := by simpa only [hfl, hf] using h.busy }

/-- The switch of memtables: the old one changes hands, the new one is made with a reference. -/
theorem rotate (h : s.Sound) (himm : s.world.db.imm = none) {w : World}
    (hw : w.db.imm.isSome = true) (hfl : w.db.immFlushing = s.world.db.immFlushing)
    (hf : w.flushes = s.world.flushes) : Sound { s.rotate true with world := w } := by
  obtain ⟨hnone, hidle, hflushes⟩ := h.idle_of_none himm
  have hnew : s.made ∉ s.refs.made := fun hn => absurd ((h.made _).1 hn) (lt_irrefl _)
  have hmem : s.mem < s.made := (h.made _).1 (h.exact.made _ (by simp [holders, pointed]))
  refine ⟨?_, fun n => ?_, ?_, hw.symm, fun _ => ⟨hf ▸ (h.idle hidle).1, hflushes⟩, fun hb => ?_⟩
  · have hexact := h.exact.make hnew
    simpa [holders, pointed, hnone, MemRefWorld.rotate, liveIterators, flushIterators] using hexact
  · show n ∈ s.made :: s.refs.made ↔ n < s.made + 1
    rw [List.mem_cons, h.made]
    omega
  · show (s.made :: [s.mem]).Nodup
    simpa using hmem.ne'
  · rw [hfl, hidle] at hb
    cases hb

/-- The way back: the new memtable is deleted at once, and the old one is `mem_` again. -/
theorem rotate_failed (h : s.Sound) (himm : s.world.db.imm = none) {w : World}
    (hw : w.db.imm = none) (hfl : w.db.immFlushing = s.world.db.immFlushing)
    (hf : w.flushes = s.world.flushes) : Sound { s.rotate false with world := w } := by
  obtain ⟨hnone, hidle, hflushes⟩ := h.idle_of_none himm
  have hnew : s.made ∉ s.refs.made := fun hn => absurd ((h.made _).1 hn) (lt_irrefl _)
  -- made with one reference, which is given back at once
  refine ⟨?_, fun n => ?_, by simp [pointed, MemRefWorld.rotate], by rw [hw]; rfl,
    fun _ => ⟨hf ▸ (h.idle hidle).1, hflushes⟩, fun hb => ?_⟩
  · have hexact := (h.exact.make hnew).unref
    simpa [holders, pointed, hnone, MemRefWorld.rotate, MemRefWorld.unref, Counts.run, liveIterators,
      flushIterators] using hexact
  · show n ∈ s.made :: s.refs.made ↔ n < s.made + 1
    rw [List.mem_cons, h.made]
    omega
  · rw [hfl, hidle] at hb
    cases hb

theorem flushBegun (h : s.Sound) {n : ℕ} (himm : s.imm = some n)
    (hidle : s.world.db.immFlushing = false) (path : FlushPath) (m : MemTable) :
    Sound { s with world := s.world.flushBegun path m, flushes := s.flushes ++ [{ immPtr := n }] } := by
  obtain ⟨hjobs, hflushes⟩ := h.idle hidle
  refine ⟨?_, h.made, h.distinct, h.imm, fun hb => absurd hb (by simp [World.flushBegun]), fun _ => ?_⟩
  · have hexact := h.exact
    simpa [holders, pointed, liveIterators, flushIterators, hflushes] using hexact
  · exact ⟨_, _, by rw [World.flushBegun, hjobs]; rfl, by rw [hflushes]; rfl, himm, .inl rfl⟩

/-- A flush has its table, or has failed: by then its iterator is deleted. -/
theorem flushBuilt (h : s.Sound) {i : ℕ} {job : FlushJob} (hi : s.world.flushes[i]? = some job)
    {f : FlushPointers} (hfi : s.flushes[i]? = some f) (hdel : f.iter = .deleted)
    (result : FlushResult) (ops : List FsOp) :
    Sound { s with world := s.world.flushBuilt i job result ops } := by
  obtain ⟨f', rfl, hjobs, hflushes, hfl, himm, -⟩ := h.job hi
  obtain rfl : f' = f := by simpa [hflushes] using hfi
  refine ⟨h.exact, h.made, h.distinct, h.imm, fun hb => absurd (hb.symm.trans hfl) Bool.false_ne_true,
    fun _ => ⟨{ job with result := result }, f', ?_, hflushes, himm, .inr hdel⟩⟩
  simp [World.flushBuilt, hjobs]

/-- The end of a flush that keeps `imm_`. -/
theorem flushKept (h : s.Sound) {i : ℕ} {job : FlushJob} (hi : s.world.flushes[i]? = some job)
    (hres : job.result ≠ .building) {w : World} (hw : w.db.imm = s.world.db.imm)
    (hfl : w.db.immFlushing = false) (hf : w.flushes = s.world.flushes.eraseIdx i) :
    Sound { s with world := w, flushes := s.flushes.eraseIdx i } := by
  obtain ⟨f, rfl, hjobs, hflushes, -, himm, hdel⟩ := h.job hi
  have hiter : f.iter = .deleted := hdel.resolve_left hres
  refine ⟨?_, h.made, h.distinct, by rw [hw]; exact h.imm,
    fun _ => ⟨by rw [hf, hjobs]; rfl, by rw [hflushes]; rfl⟩, fun hb => absurd (hb.symm.trans hfl) (by simp)⟩
  have hexact := h.exact
  simpa [holders, pointed, liveIterators, flushIterators, hflushes, hiter] using hexact

/-- **The end of a flush that drops `imm_`**: the reference given back is that of the memtable it
has captured, since `imm_` still points to it. -/
theorem flushDropped (h : s.Sound) {i : ℕ} {job : FlushJob} (hi : s.world.flushes[i]? = some job)
    (hres : job.result ≠ .building) {w : World} (hw : w.db.imm = none)
    (hfl : w.db.immFlushing = false) (hf : w.flushes = s.world.flushes.eraseIdx i) :
    Sound { s with
      world := w, flushes := s.flushes.eraseIdx i, imm := none
      refs := s.refs.run (s.imm.toList.map .unref) } := by
  obtain ⟨f, rfl, hjobs, hflushes, -, himm, hdel⟩ := h.job hi
  have hiter : f.iter = .deleted := hdel.resolve_left hres
  refine ⟨?_, fun n => ?_, by simp [pointed], by rw [hw]; rfl,
    fun _ => ⟨by rw [hf, hjobs]; rfl, by rw [hflushes]; rfl⟩, fun hb => absurd (hb.symm.trans hfl) (by simp)⟩
  · have hlive : [f].filter (·.iter = .live) = [] := by simp [hiter]
    refine Exact.unrefs (h.exact.perm ?_)
    simp only [holders, pointed, himm, hflushes, liveIterators, flushIterators, hlive]
    exact List.Perm.swap _ _ _
  · rw [made_run _ _ (by simp)]
    exact h.made n

/-- Another opening: the memtable of the old one is given back, and a new one is made. -/
theorem reopened (h : s.Sound) (himm : s.world.db.imm = none) {w : World} (hw : w.db.imm = none)
    (hfl : w.db.immFlushing = false) (hf : w.flushes = s.world.flushes) :
    Sound { s.reopen with world := w } := by
  obtain ⟨hnone, hidle, hflushes⟩ := h.idle_of_none himm
  have hnew : s.made ∉ s.refs.made := fun hn => absurd ((h.made _).1 hn) (lt_irrefl _)
  refine ⟨?_, fun n => ?_, by simp [pointed, MemRefWorld.reopen], by rw [hw]; rfl,
    fun _ => ⟨hf ▸ (h.idle hidle).1, hflushes⟩, fun hb => absurd (hb.symm.trans hfl) (by simp)⟩
  · have hexact : Exact s.refs (s.mem :: (s.gets ++ s.liveIterators)) := by
      simpa [holders, pointed, hnone] using h.exact
    exact hexact.unref.make hnew
  · show n ∈ s.made :: s.refs.made ↔ n < s.made + 1
    rw [List.mem_cons, h.made]
    omega

/-- **A section of the database.** -/
theorem db (h : s.Sound) {l : Label} {w : World} (hstep : s.world.step l = some w)
    {s₁ : MemRefWorld} (heffect : s.effect l = some s₁) : Sound { s₁ with world := w } := by
  cases World.step_event hstep with
  | wrote hroom =>
    simp only [effect, hroom, Bool.true_or, if_true, Option.some.injEq] at heffect
    exact heffect ▸ h.keep rfl rfl rfl
  | waits hroom himm =>
    have hsome : s.world.db.imm.isSome = true := Option.isSome_iff_ne_none.2 himm
    simp only [effect, hroom, hsome, Bool.or_true, if_true, Option.some.injEq] at heffect
    exact heffect ▸ h.keep rfl rfl rfl
  | rotated hl himm =>
    obtain rfl : s.rotate true = s₁ := by
      rcases hl with ⟨rfl, hroom, -⟩ | ⟨i, rfl, -, -⟩
      · simpa [effect, hroom, himm] using heffect
      · simpa [effect] using heffect
    exact h.rotate himm rfl rfl rfl
  | rotateFailed hl himm =>
    obtain rfl : s.rotate false = s₁ := by
      rcases hl with ⟨rfl, hroom, -⟩ | ⟨i, rfl, -, -⟩
      · simpa [effect, hroom, himm] using heffect
      · simpa [effect] using heffect
    exact h.rotate_failed himm himm rfl rfl
  | flushBegun himm hidle =>
    obtain ⟨n, hn, rfl⟩ := Option.map_eq_some_iff.1 heffect
    exact h.flushBegun hn hidle _ _
  | flushBuilt hi =>
    obtain ⟨f, hf, hdel⟩ := Option.bind_eq_some_iff.1 heffect
    split at hdel
    · rename_i hiter
      obtain rfl := Option.some.inj hdel
      exact h.flushBuilt hi hf hiter _ _
    · cases hdel
  | flushNotBuilt hi =>
    obtain ⟨f, hf, hdel⟩ := Option.bind_eq_some_iff.1 heffect
    split at hdel
    · rename_i hiter
      obtain rfl := Option.some.inj hdel
      exact h.flushBuilt hi hf hiter _ _
    · cases hdel
  | flushCommitted hi hres =>
    simp only [effect, hi, Option.map_some, Option.some.injEq, MemRefWorld.flushEnd, hres] at heffect
    exact heffect ▸ h.flushDropped hi (by simp [hres]) rfl rfl rfl
  | flushFailed hi hres hpath =>
    simp only [effect, hi, Option.map_some, Option.some.injEq, MemRefWorld.flushEnd, hres, hpath] at heffect
    exact heffect ▸ h.flushKept hi (by simp [hres]) rfl rfl rfl
  | @flushDropped i job m hi hres hpath =>
    have hend : s.flushEnd i job = { s with
        flushes := s.flushes.eraseIdx i, imm := none, refs := s.refs.run (s.imm.toList.map .unref) } := by
      unfold MemRefWorld.flushEnd
      rw [hres]
      cases hp : job.path with
      | background => exact absurd hp hpath
      | _ => rfl
    simp only [effect, hi, Option.map_some, Option.some.injEq, hend] at heffect
    exact heffect ▸ h.flushDropped hi (by simp [hres]) rfl rfl rfl
  | compactionBegun => exact Option.some.inj heffect ▸ h.keep rfl rfl rfl
  | outputWritten => exact Option.some.inj heffect ▸ h.keep rfl rfl rfl
  | outputFailed => exact Option.some.inj heffect ▸ h.keep rfl rfl rfl
  | compactionCommitted => exact Option.some.inj heffect ▸ h.keep rfl rfl rfl
  | compactionFailed => exact Option.some.inj heffect ▸ h.keep rfl rfl rfl
  | reopened himm _ _ _ hrec =>
    obtain ⟨hnone, hidle⟩ := recover_idle hrec
    obtain rfl := Option.some.inj heffect
    exact h.reopened himm hnone hidle rfl

/-- References taken or given back by readers, with the pointers left alone. -/
theorem readers (h : s.Sound) {s' : MemRefWorld} (hexact : Exact s'.refs s'.holders)
    (hmade : s'.refs.made = s.refs.made) (hw : s'.world = s.world)
    (hp : s'.mem = s.mem ∧ s'.imm = s.imm ∧ s'.made = s.made) (hf : s'.flushes = s.flushes) : s'.Sound := by
  obtain ⟨hmem, himm, hnext⟩ := hp
  refine ⟨hexact, by rw [hmade, hnext]; exact h.made, ?_, by rw [himm, hw]; exact h.imm,
    by rw [hw, hf]; exact h.idle, by rw [hw, hf, himm]; exact h.busy⟩
  simpa only [pointed, hmem, himm] using h.distinct

theorem perm_cons_eraseIdx {ns : List ℕ} {i n : ℕ} (hi : ns[i]? = some n) :
    ns.Perm (n :: ns.eraseIdx i) := by
  obtain ⟨hlt, rfl⟩ := List.getElem?_eq_some_iff.1 hi
  exact (List.getElem_cons_eraseIdx_perm hlt).symm

/-- **Every step keeps the counts exact.** -/
theorem step (h : s.Sound) {l : MemRefLabel} (hstep : s.step l = some s') : s'.Sound := by
  have hpointed : ∀ n ∈ s.pointed, n ∈ s.holders := fun n hn => List.mem_append_left _ hn
  cases l with
  | db l =>
    obtain ⟨w, hw, hstep⟩ := Option.bind_eq_some_iff.1 hstep
    obtain ⟨s₁, hs₁, hstep⟩ := Option.bind_eq_some_iff.1 hstep
    exact Option.some.inj hstep ▸ h.db hw hs₁
  | acquire =>
    obtain rfl := Option.some.inj hstep
    refine h.readers ((h.exact.refs hpointed).perm ?_) (made_run _ _ (by simp)) rfl ⟨rfl, rfl, rfl⟩ rfl
    simp only [holders, pointed, liveIterators, flushIterators, List.append_assoc]
    exact List.Perm.refl _
  | newIterator =>
    obtain rfl := Option.some.inj hstep
    refine h.readers ((h.exact.refs hpointed).perm ?_) (made_run _ _ (by simp)) rfl ⟨rfl, rfl, rfl⟩ rfl
    simp only [holders, liveIterators, List.append_assoc]
    exact (List.perm_append_comm_assoc _ _ _).append_left _
  | release i =>
    obtain ⟨n, hn, hstep⟩ := Option.bind_eq_some_iff.1 hstep
    obtain rfl := Option.some.inj hstep
    refine h.readers (Exact.unref (h.exact.perm ?_)) rfl rfl ⟨rfl, rfl, rfl⟩ rfl
    refine (((perm_cons_eraseIdx hn).append_right _).append_left _).trans ?_
    exact List.perm_middle
  | deleteIterator i =>
    obtain ⟨n, hn, hstep⟩ := Option.bind_eq_some_iff.1 hstep
    obtain rfl := Option.some.inj hstep
    refine h.readers (Exact.unref (h.exact.perm ?_)) rfl rfl ⟨rfl, rfl, rfl⟩ rfl
    refine ((((perm_cons_eraseIdx hn).append_right _).append_left _).append_left _).trans ?_
    exact (List.perm_middle.append_left _).trans List.perm_middle
  | flushIterator i =>
    obtain ⟨f, hf, hstep⟩ := Option.bind_eq_some_iff.1 hstep
    split at hstep
    case isFalse => cases hstep
    rename_i hnone
    obtain rfl := Option.some.inj hstep
    obtain ⟨job, rfl, hjobs, hflushes, hfl, himm, hres⟩ := h.flush hf
    have hbuilding : job.result = .building := hres.resolve_right (by simp [hnone])
    have hexact := h.exact.ref (hpointed f.immPtr (by simp [pointed, himm]))
    refine ⟨hexact.perm ?_, h.made, h.distinct, h.imm, fun hb => absurd (hb.symm.trans hfl) Bool.false_ne_true,
      fun _ => ⟨job, { f with iter := .live }, hjobs, by simp [hflushes], himm, .inl hbuilding⟩⟩
    -- the iterator is one more holder behind all others
    have hone : [f].filter (·.iter = .live) = [] := by simp [hnone]
    simp only [holders, liveIterators, flushIterators, hflushes, hone, List.map_nil, List.append_nil]
    simpa [pointed, MemRefWorld.ref] using (List.perm_append_singleton f.immPtr
      (s.mem :: (s.imm.toList ++ (s.gets ++ s.iterators)))).symm
  | flushDelete i =>
    obtain ⟨f, hf, hstep⟩ := Option.bind_eq_some_iff.1 hstep
    split at hstep
    case isFalse => cases hstep
    rename_i hlive
    obtain rfl := Option.some.inj hstep
    obtain ⟨job, rfl, hjobs, hflushes, hfl, himm, hres⟩ := h.flush hf
    refine ⟨Exact.unref (h.exact.perm ?_), h.made, h.distinct, h.imm,
      fun hb => absurd (hb.symm.trans hfl) Bool.false_ne_true,
      fun _ => ⟨job, { f with iter := .deleted }, hjobs, by simp [hflushes], himm, .inr rfl⟩⟩
    have hone : [f].filter (·.iter = .live) = [f] := by simp [hlive]
    simp only [holders, liveIterators, flushIterators, hflushes, hone]
    simpa [pointed, MemRefWorld.unref] using List.perm_append_singleton f.immPtr
      (s.mem :: (s.imm.toList ++ (s.gets ++ s.iterators)))

end Sound

theorem sound_of_reach {ok : MemRefWorld → MemRefLabel → Prop} {options : Options}
    (h : Reach step ok { world := World.fresh options } s) : s.Sound :=
  Reach.invariant (fresh_sound options) (fun _ _ _ hs _ hstep => hs.step hstep) h

/-- **Every count is the number of holders**: one if `mem_` or `imm_` points to the memtable, one
for each reference of a `Get` and one for each live iterator. A memtable is deleted once, and it
is deleted if and only if nothing holds it any more. -/
theorem refs_of_reach {ok : MemRefWorld → MemRefLabel → Prop} {options : Options}
    (h : Reach step ok { world := World.fresh options } s) :
    (∀ n, s.refs.count n = (if s.mem = n ∨ s.imm = some n then 1 else 0) + s.gets.count n +
      s.liveIterators.count n) ∧
    (∀ n, n ∈ s.refs.freed ↔ n < s.made ∧ ¬(s.mem = n ∨ s.imm = some n) ∧ n ∉ s.gets ∧
      n ∉ s.liveIterators) ∧
    s.refs.freed.Nodup := by
  have hs := sound_of_reach h
  have hpointed : ∀ n, n ∈ s.pointed ↔ s.mem = n ∨ s.imm = some n := by
    intro n
    rw [pointed, List.mem_cons, Option.mem_toList, @eq_comm _ n]
  refine ⟨fun n => ?_, fun n => ?_, hs.exact.once⟩
  · have hone : s.pointed.count n = if s.mem = n ∨ s.imm = some n then 1 else 0 := by
      rw [hs.distinct.count, if_congr (hpointed n) rfl rfl]
    rw [hs.exact.count, holders, List.count_append, List.count_append, hone]
    push_cast
    ring
  · rw [hs.exact.freed, hs.made, holders, List.mem_append, List.mem_append, hpointed]
    tauto

/-- A switch, a flush of the old memtable, and a switch whose log does not open, under a `Get` and
an iterator. -/
def switchRun : List MemRefLabel :=
  [.db (.write (.put [107] [118]) 1 true), .acquire, .db (.flushBegin .background), .flushIterator 0,
    .newIterator, .flushDelete 0, .db (.flushBuild 0 (fun _ => none) true), .db (.flushEnd 0),
    .db (.write (.put [108] [118]) 1 false), .release 1, .deleteIterator 1]

/-- Behind this run the first memtable, held by nothing, and the one of the failed switch are
deleted; the memtable of `mem_` has one more reader of each kind. -/
theorem refs_of_reach_switchRun : ∃ s,
    Reach step (fun _ _ => True) { world := World.fresh { writeBufferSize := 1 } } s ∧
      s.mem = 1 ∧ s.made = 3 ∧ s.refs.freed = [0, 2] ∧ s.refs.count 1 = 3 ∧
      s.refs.count 1 = (if s.mem = 1 ∨ s.imm = some 1 then 1 else 0) + s.gets.count 1 +
        s.liveIterators.count 1 := by
  have hrun : (run step (fun _ _ => True) { world := World.fresh { writeBufferSize := 1 } }
      switchRun).map (fun s => (s.mem, s.made, s.refs.freed, s.refs.count 1)) =
        some (1, 3, [0, 2], 3) := by
    decide +kernel
  obtain ⟨s, hs, heq⟩ := Option.map_eq_some_iff.1 hrun
  simp only [Prod.mk.injEq] at heq
  obtain ⟨hmem, hmade, hfreed, hcount⟩ := heq
  exact ⟨s, reach_of_run hs, hmem, hmade, hfreed, hcount, (refs_of_reach (reach_of_run hs)).1 1⟩

end MemRefWorld

end MiniLSM
