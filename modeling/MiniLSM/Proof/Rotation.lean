import MiniLSM.Proof.Files
import MiniLSM.Proof.Flush
import MiniLSM.Proof.Iterator

/-!
# From `imm_` to a table

The memtables that became `imm_` are kept in a list beside the state. As long as the tables of
flushes can be built, all but the last of them are the tables of `levels_[0]`, in order.

* `Counted.add`: an add brings in its entry and drops none.
* `Flushing.step`: what each step does to memtables, flushes and tables.
* `rotated_to_tables`: every memtable that became `imm_` and left it again is one table of
  L0, and every acknowledged entry is in `mem_`, in `imm_` or in one of these tables.
-/

namespace MiniLSM

open Transition

/-! ## The memory of a memtable -/

namespace Arena

/-- At least `n` bytes of the arena have been handed out or skipped. -/
def Used (a : Arena) (n : ℕ) : Prop := n + a.allocBytesRemaining ≤ a.memoryUsage

variable {a : Arena} {n : ℕ}

theorem Used.fallback (h : a.Used n) (k : ℕ) : (a.allocateFallback k).2.Used (n + k) := by
  rw [Used] at h
  rw [allocateFallback]
  split
  · simp only [allocateNewBlock, Used]
    omega
  · simp only [kBlockSize, Used] at *
    omega

theorem Used.allocate (h : a.Used n) (k : ℕ) : (a.allocate k).2.Used (n + k) := by
  rw [Arena.allocate]
  split
  · subst k; exact h
  split
  · simp only [advance, Used] at *
    omega
  · exact h.fallback k

theorem Used.allocateAligned (h : a.Used n) (k : ℕ) : (a.allocateAligned k).2.Used (n + k) := by
  simp only [Arena.allocateAligned]
  generalize (if _ = 0 then 0 else _) = padding
  split
  · refine Used.allocate ?_ k
    simp only [advance, Used] at *
    omega
  · exact h.fallback k

/-- A node takes at least 48 bytes. -/
theorem Used.newNode (h : a.Used n) (key value : Bytes) (height : ℕ) :
    (SkipList.newNode a key value height).Used (n + 48) := by
  have hnode := ((h.allocateAligned (SkipList.nodeSize height)).allocate key.length).allocate value.length
  rw [Used, SkipList.nodeSize] at hnode
  rw [Used, SkipList.newNode, SkipList.nodeSize]
  omega

end Arena

namespace MemTable

/-- The entries of a memtable carry sequence numbers up to its counter, and each of them takes
memory. -/
structure Counted (m : MemTable) : Prop where
  seqs : ∀ e ∈ m.entries, ∃ u s, e.1 = makeInternalKey u s (typeOf e.2) ∧ s.toNat ≤ m.lastSeq.toNat
  used : m.table.arena.Used (48 * m.lastSeq.toNat)

theorem new_counted : Counted new := by
  refine ⟨by simp [entries, new, SkipList.new], ?_⟩
  rw [Arena.Used]
  decide

/-- A memtable within the buffer size has numbers left. -/
theorem Counted.lt {m : MemTable} (h : m.Counted) (hsize : m.approximateMemoryUsage < 2 ^ 61) :
    m.lastSeq.toNat + 1 < 2 ^ 56 := by
  have hle := h.used
  rw [Arena.Used] at hle
  rw [approximateMemoryUsage] at hsize
  omega

theorem insertChain_perm {key value : Bytes} {height : ℕ} {nodes : List Node}
    (h : ∀ e ∈ chainEntries nodes, e.1 ≠ key) :
    (chainEntries (SkipList.insertChain key value height nodes)).Perm
      ((key, value) :: chainEntries nodes) := by
  induction nodes with
  | nil => exact List.Perm.refl _
  | cons x xs ih =>
    rw [SkipList.insertChain]
    split
    · exact ((ih fun e he => h e (List.mem_cons_of_mem _ he)).cons _).trans (List.Perm.swap _ _ _)
    · rename_i heq
      exact absurd (Slice.compare_eq_eq.1 heq) (h (x.key, x.value) List.mem_cons_self)
    · exact List.Perm.refl _

/-- A fresh number makes a fresh key. -/
theorem Counted.fresh {m : MemTable} (h : m.Counted) (hlt : m.lastSeq.toNat + 1 < 2 ^ 56) (u : Bytes)
    (type : ValueType) : ∀ e ∈ m.entries, e.1 ≠ makeInternalKey u (m.lastSeq + 1) type := by
  intro e he heq
  obtain ⟨u', s, hkey, hs⟩ := h.seqs e he
  have hnext : (m.lastSeq + 1).toNat = m.lastSeq.toNat + 1 := by
    rw [UInt64.toNat_add]
    exact Nat.mod_eq_of_lt (by simp; omega)
  have hseq := extractSequence_makeInternalKey (hnext ▸ hlt) u type
  rw [← heq, hkey, extractSequence_makeInternalKey (by omega)] at hseq
  rw [hseq, hnext] at hs
  omega

/-- Under a fresh key an add takes a node from the arena. -/
theorem arena_add {m : MemTable} {u v : Bytes} {height : ℕ}
    (h : ∀ e ∈ m.entries, e.1 ≠ makeInternalKey u (m.lastSeq + 1) (typeOf v)) :
    (m.add u v height).table.arena =
      SkipList.newNode m.table.arena (makeInternalKey u (m.lastSeq + 1) (typeOf v)) v height := by
  simp only [MemTable.add, SkipList.insert]
  split
  · rename_i x hx
    rw [SkipList.findGreaterOrEqual] at hx
    rw [if_neg]
    intro heq
    exact h (x.key, x.value) (List.mem_map_of_mem (List.mem_of_find?_eq_some hx))
      (Slice.compare_eq_eq.1 heq)
  · rfl

/-- **An add brings in its entry and drops none**, as long as sequence numbers are left. -/
theorem Counted.add {m : MemTable} (h : m.Counted) (hlt : m.lastSeq.toNat + 1 < 2 ^ 56) (u v : Bytes)
    (height : ℕ) :
    (m.add u v height).Counted ∧ (m.add u v height).pairs.Perm ((u, v) :: m.pairs) := by
  have hnext : (m.lastSeq + 1).toNat = m.lastSeq.toNat + 1 := by
    rw [UInt64.toNat_add]
    exact Nat.mod_eq_of_lt (by simp; omega)
  have hfresh := h.fresh hlt u (typeOf v)
  refine ⟨⟨fun e he => ?_, ?_⟩, ?_⟩
  · rw [lastSeq_add, hnext]
    rcases mem_insertChain he with rfl | he
    · exact ⟨u, _, rfl, hnext.le⟩
    · obtain ⟨u', s, hkey, hs⟩ := h.seqs e he
      exact ⟨u', s, hkey, hs.trans (Nat.le_succ _)⟩
  · rw [lastSeq_add, hnext, arena_add hfresh, Nat.mul_add]
    exact h.used.newNode _ _ _
  · have hperm := @insertChain_perm _ v height _ hfresh
    have := hperm.map fun e => (extractUserKey e.1, e.2)
    simpa [pairs, userPairs, entries_eq m] using this

end MemTable

/-- A table that a flush of the memtable builds. -/
def TableOf (m : MemTable) (t : SSTable) : Prop :=
  ∃ number, SSTable.openFile number (DB.buildTable m fun _ => none).2 = .ok t

/-- Such a table has the entries of the memtable. -/
theorem TableOf.pairs {m : MemTable} {t : SSTable} (h : TableOf m t) (hfits : Fits m.pairs) :
    t.pairs = m.pairs := by
  obtain ⟨number, hopen⟩ := h
  obtain ⟨t', blocks, hopen', -, hholds⟩ := openFile_build hfits number
  rw [buildTable_sound] at hopen
  obtain rfl : t' = t := Except.ok.inj (hopen'.symm.trans hopen)
  exact hholds.pairs_eq

/-! ## Runs with the memtables that became `imm_` -/

/-- A state beside the memtables that have become `imm_` so far, in order. -/
structure Traced where
  world : World
  rotated : List MemTable := []

namespace Traced

/-- A step, and the memtable that it puts into an empty `imm_`. -/
def step (s : Traced) (l : Label) : Option Traced :=
  (s.world.step l).map fun w =>
    ⟨w, s.rotated ++ if s.world.db.imm.isNone then w.db.imm.toList else []⟩

/-- The tables of flushes can be built, and neither a compaction nor a second opening comes in
between. -/
def FlushesOnly (s : Traced) : Label → Prop
  | .flushBuild i faults opens => opens = true ∧ ∀ job ∈ s.world.flushes[i]?,
      DB.buildTable job.imm faults = DB.buildTable job.imm (fun _ => none) ∧
        (SSTable.openFile job.number (DB.buildTable job.imm fun _ => none).2).toOption.isSome = true
  | .compactBegin => False
  | .reopen _ _ => False
  | _ => True

instance (s : Traced) (l : Label) : Decidable (FlushesOnly s l) := by
  rcases l with _ | _ <;> unfold FlushesOnly <;> infer_instance

/-- **Memtables, flushes and tables.** A flush under way is that of `imm_`, and all other
memtables that were `imm_` are the tables of L0. -/
structure Flushing (s : Traced) : Prop where
  small : s.world.db.options.writeBufferSize ≤ 2 ^ 61
  counted : s.world.db.mem.Counted
  compactions : s.world.compactions = []
  upper : s.world.db.levels.l1 = [] ∧ s.world.db.levels.deeper = [[], []]
  tables : ∃ done, s.rotated = done ++ s.world.db.imm.toList ∧
    List.Forall₂ TableOf done s.world.db.levels.l0
  acked : s.world.acked.Perm (s.world.db.mem.pairs ++ s.rotated.flatMap MemTable.pairs)
  idle : s.world.db.immFlushing = false → s.world.flushes = []
  busy : s.world.db.immFlushing = true → ∃ job, s.world.flushes = [job] ∧
    s.world.db.imm = some job.imm ∧ job.result ≠ .failed ∧ ∀ t ∈ job.table, TableOf job.imm t

theorem fresh_flushing {options : Options} (h : options.writeBufferSize ≤ 2 ^ 61) :
    Flushing { world := World.fresh options } where
  small := h
  counted := MemTable.new_counted
  compactions := rfl
  upper := ⟨rfl, rfl⟩
  tables := ⟨[], rfl, .nil⟩
  acked := List.Perm.refl _
  idle := fun _ => rfl
  busy := fun h => absurd h Bool.false_ne_true

variable {s s' : Traced}

/-- A flush that is under way is the only one. -/
theorem Flushing.job (h : s.Flushing) {i : ℕ} {job : FlushJob} (hi : s.world.flushes[i]? = some job) :
    s.world.flushes = [job] ∧ i = 0 ∧ s.world.db.immFlushing = true ∧
      s.world.db.imm = some job.imm ∧ job.result ≠ .failed ∧ ∀ t ∈ job.table, TableOf job.imm t :=
  World.sole_flush h.idle h.busy hi

/-- Steps that leave the tables, `imm_`, the flushes and the acknowledged writes alone. -/
theorem Flushing.keep (h : s.Flushing) {w : World}
    (hdb : w.db.options = s.world.db.options ∧ w.db.mem = s.world.db.mem ∧
      w.db.imm = s.world.db.imm ∧ w.db.levels = s.world.db.levels ∧
      w.db.immFlushing = s.world.db.immFlushing)
    (hc : w.compactions = s.world.compactions) (hf : w.flushes = s.world.flushes)
    (ha : w.acked = s.world.acked) : Flushing ⟨w, s.rotated⟩ := by
  obtain ⟨hopt, hmem, himm, hlevels, hfl⟩ := hdb
  exact
    { small := by simpa only [hopt] using h.small
      counted := by simpa only [hmem] using h.counted
      compactions := hc.trans h.compactions
      upper := by simpa only [hlevels] using h.upper
      tables := by simpa only [himm, hlevels] using h.tables
      acked := by simpa only [ha, hmem] using h.acked
      idle := by simpa only [hfl, hf] using h.idle
      busy := by simpa only [hfl, hf, himm] using h.busy }

/-- A write to `mem_`, which has a sequence number left. -/
theorem Flushing.wrote (h : s.Flushing) (hlt : s.world.db.mem.lastSeq.toNat + 1 < 2 ^ 56)
    (op : DB.WriteOp) (height n : ℕ) : Flushing ⟨s.world.wrote op height n, s.rotated⟩ := by
  obtain ⟨hcounted, hperm⟩ := h.counted.add hlt op.key op.value height
  exact
    { small := h.small
      counted := hcounted
      compactions := h.compactions
      upper := h.upper
      tables := h.tables
      acked := (h.acked.cons _).trans (hperm.symm.append_right _)
      idle := h.idle
      busy := h.busy }

/-- A switch of memtables: `mem_` becomes `imm_`. -/
theorem Flushing.rotated (h : s.Flushing) (himm : s.world.db.imm = none) :
    Flushing ⟨s.world.rotated, s.rotated ++ [s.world.db.mem]⟩ := by
  obtain ⟨done, hdone, htables⟩ := h.tables
  rw [himm, Option.toList_none, List.append_nil] at hdone
  have hidle := World.idle_of_none h.busy (fun job hjob => by rw [hjob.1]; exact Option.some_ne_none _) himm
  exact
    { small := h.small
      counted := MemTable.new_counted
      compactions := h.compactions
      upper := h.upper
      tables := ⟨done, by rw [hdone]; rfl, htables⟩
      acked := by
        refine h.acked.trans (List.perm_append_comm.trans ?_)
        rw [List.flatMap_append, List.flatMap_singleton]
        exact List.Perm.refl _
      idle := h.idle
      busy := fun hf => absurd (hidle.symm.trans hf) Bool.false_ne_true }

theorem Flushing.flushBegun (h : s.Flushing) (path : FlushPath) {m : MemTable}
    (himm : s.world.db.imm = some m) (hidle : s.world.db.immFlushing = false) :
    Flushing ⟨s.world.flushBegun path m, s.rotated⟩ :=
  { small := h.small
    counted := h.counted
    compactions := h.compactions
    upper := h.upper
    tables := h.tables
    acked := h.acked
    idle := fun hf => absurd hf.symm Bool.false_ne_true
    busy := fun _ => ⟨{ path := path, imm := m, number := s.world.db.nextFileNumber },
      by rw [World.flushBegun, h.idle hidle]; rfl, himm, nofun, fun t ht => nomatch ht⟩ }

theorem Flushing.flushBuilt (h : s.Flushing) {i : ℕ} {job : FlushJob}
    (hi : s.world.flushes[i]? = some job) {t : SSTable} (ht : TableOf job.imm t) (ops : List FsOp) :
    Flushing ⟨s.world.flushBuilt i job (.opened t) ops, s.rotated⟩ := by
  obtain ⟨hflushes, rfl, hfl, himm, -, -⟩ := h.job hi
  exact
    { small := h.small
      counted := h.counted
      compactions := h.compactions
      upper := h.upper
      tables := h.tables
      acked := h.acked
      idle := fun hf => absurd (hf.symm.trans hfl) Bool.false_ne_true
      busy := fun _ => by
        refine ⟨{ job with result := .opened t }, by simp [World.flushBuilt, hflushes], himm, nofun, ?_⟩
        intro t' ht'
        obtain rfl : t = t' := Option.some.inj ht'
        exact ht }

/-- The commit of a flush: `imm_` becomes the next table of L0. -/
theorem Flushing.flushCommitted (h : s.Flushing) {i : ℕ} {job : FlushJob} {t : SSTable}
    (hi : s.world.flushes[i]? = some job) (hres : job.result = .opened t) :
    Flushing ⟨s.world.flushCommitted i t, s.rotated⟩ := by
  obtain ⟨hflushes, rfl, hfl, himm, -, ht⟩ := h.job hi
  obtain ⟨done, hdone, htables⟩ := h.tables
  exact
    { small := h.small
      counted := h.counted
      compactions := h.compactions
      upper := h.upper
      tables := ⟨done ++ [job.imm], by rw [hdone, himm]; simp [World.flushCommitted],
        List.rel_append htables (.cons (ht t (by rw [FlushJob.table, hres]; rfl)) .nil)⟩
      acked := h.acked
      idle := fun _ => by simp [World.flushCommitted, hflushes]
      busy := fun hf => absurd hf Bool.false_ne_true }

/-- **What each step does to memtables, flushes and tables.** -/
theorem Flushing.step (h : s.Flushing) {l : Label} (hok : FlushesOnly s l)
    (hstep : s.step l = some s') : s'.Flushing := by
  obtain ⟨w, hw, rfl⟩ := Option.map_eq_some_iff.1 hstep
  have hsame : w.db.imm = s.world.db.imm →
      (s.rotated ++ if s.world.db.imm.isNone then w.db.imm.toList else []) = s.rotated := by
    intro heq
    rw [heq]
    cases s.world.db.imm <;> simp
  cases World.step_event hw with
  | wrote hroom hwal =>
    rw [hsame rfl]
    refine h.wrote (h.counted.lt ?_) _ _ _
    have hlt : s.world.db.mem.approximateMemoryUsage < s.world.db.options.writeBufferSize := by
      simpa [DB.hasRoom] using hroom
    exact hlt.trans_le h.small
  | waits =>
    rw [hsame rfl]
    exact h.keep ⟨rfl, rfl, rfl, rfl, rfl⟩ rfl rfl rfl
  | @rotated op height n ws l _ himm _ =>
    have hrot := (h.keep (w := { s.world with waiting := ws }) ⟨rfl, rfl, rfl, rfl, rfl⟩ rfl rfl
      rfl).rotated himm
    rw [himm]
    exact hrot.wrote (show MemTable.new.lastSeq.toNat + 1 < 2 ^ 56 by decide) op height _
  | rotateFailed =>
    rw [hsame rfl]
    exact h.keep ⟨rfl, rfl, rfl, rfl, rfl⟩ rfl rfl rfl
  | @flushBegun path m himm hidle =>
    rw [hsame rfl]
    exact h.flushBegun path himm hidle
  | @flushBuilt i job faults t hjob hres hstatus hopen =>
    rw [hsame rfl]
    obtain ⟨-, hsound⟩ := hok
    rw [(hsound job hjob).1] at hopen
    exact h.flushBuilt hjob ⟨_, hopen⟩ _
  | @flushNotBuilt i job faults opens ops hjob hres hbad hops =>
    -- excluded: the table is built without a fault, and opens
    obtain ⟨hopens, hsound⟩ := hok
    obtain ⟨heq, hopen⟩ := hsound job hjob
    rw [heq] at hbad
    rcases hbad with hbad | hbad | ⟨st, hbad⟩
    · rw [buildTable_sound] at hbad
      exact absurd hbad.symm Bool.false_ne_true
    · exact absurd (hbad.symm.trans hopens) Bool.false_ne_true
    · rw [hbad] at hopen
      exact absurd hopen Bool.false_ne_true
  | @flushCommitted i job t m hjob hres himm =>
    have hnil : (s.rotated ++ if s.world.db.imm.isNone then
        (s.world.flushCommitted i t).db.imm.toList else []) = s.rotated := by
      rw [himm]
      exact List.append_nil _
    rw [hnil]
    exact h.flushCommitted hjob hres
  | flushFailed hjob hres => exact absurd hres (h.job hjob).2.2.2.2.1
  | flushDropped hjob hres => exact absurd hres (h.job hjob).2.2.2.2.1
  | compactionBegun => exact absurd hok id
  | outputWritten hjob => rw [h.compactions] at hjob; simp at hjob
  | outputFailed hjob => rw [h.compactions] at hjob; simp at hjob
  | compactionCommitted hjob => rw [h.compactions] at hjob; simp at hjob
  | compactionFailed hjob => rw [h.compactions] at hjob; simp at hjob
  | reopened => exact absurd hok id

theorem flushing_of_reach {options : Options} (hsize : options.writeBufferSize ≤ 2 ^ 61)
    (h : Reach Traced.step FlushesOnly { world := World.fresh options } s) : s.Flushing :=
  Reach.invariant (fresh_flushing hsize) (fun _ _ _ hf hok hs => hf.step hok hs) h

/-- **Every memtable that became `imm_` and left it again is one table of L0**, in the order of
the switches, and every acknowledged entry is once in `mem_`, in `imm_` or in the memtable of
such a table. A flush under way is that of `imm_`, and the only one. -/
theorem rotated_to_tables {options : Options} (hsize : options.writeBufferSize ≤ 2 ^ 61)
    (h : Reach Traced.step FlushesOnly { world := World.fresh options } s) :
    ∃ done, s.rotated = done ++ s.world.db.imm.toList ∧
      List.Forall₂ TableOf done s.world.db.levels.l0 ∧
      s.world.db.levels.tables = s.world.db.levels.l0 ∧
      (∀ m t, TableOf m t → Fits m.pairs → t.pairs = m.pairs) ∧
      s.world.acked.Perm (s.world.db.mem.pairs ++
        (s.world.db.imm.toList.flatMap MemTable.pairs ++ done.flatMap MemTable.pairs)) ∧
      s.world.flushes.length ≤ 1 ∧ ∀ job ∈ s.world.flushes, s.world.db.imm = some job.imm := by
  have hf := flushing_of_reach hsize h
  obtain ⟨done, hdone, htables⟩ := hf.tables
  have hacked := hf.acked
  rw [hdone, List.flatMap_append] at hacked
  refine ⟨done, hdone, htables, ?_, fun m t ht hfits => ht.pairs hfits,
    hacked.trans (List.perm_append_comm.append_left _), ?_, fun job hjob => ?_⟩
  · simp [Levels.tables, Levels.toList, hf.upper.1, hf.upper.2]
  · cases hfl : s.world.db.immFlushing with
    | false => simp [hf.idle hfl]
    | true =>
      obtain ⟨job, hflushes, -⟩ := hf.busy hfl
      simp [hflushes]
  · obtain ⟨i, hi⟩ := List.getElem?_of_mem hjob
    exact (hf.job hi).2.2.2.1

/-- A run with two waiting writers, which go on in the other order, and flushes of both kinds. -/
def flushRun : List Label :=
  [.write (.put [97] [1]) 1 true, .flushBegin .background, .write (.put [98] [2]) 1 true,
    .write (.delete [97]) 1 true, .flushBuild 0 (fun _ => none) true, .flushEnd 0, .wake 1 1 true,
    .flushBegin .compactRange, .flushBuild 0 (fun _ => none) true, .flushEnd 0, .wake 0 1 true,
    .flushBegin .background]

theorem rotated_to_tables_flushRun : ∃ s,
    run Traced.step FlushesOnly { world := World.fresh { writeBufferSize := 1 } } flushRun = some s ∧
      s.world.acked = [([98], [2]), ([97], []), ([97], [1])] ∧ s.world.db.levels.l0.length = 2 ∧
      ∃ done, s.rotated = done ++ s.world.db.imm.toList ∧
        List.Forall₂ TableOf done s.world.db.levels.l0 ∧
        s.world.acked.Perm (s.world.db.mem.pairs ++
          (s.world.db.imm.toList.flatMap MemTable.pairs ++ done.flatMap MemTable.pairs)) := by
  have hrun : (run Traced.step FlushesOnly { world := World.fresh { writeBufferSize := 1 } }
      flushRun).map (fun s => (s.world.acked, s.world.db.levels.l0.length)) =
        some ([([98], [2]), ([97], []), ([97], [1])], 2) := by decide +kernel
  obtain ⟨s, hs, heq⟩ := Option.map_eq_some_iff.1 hrun
  obtain ⟨hacked, hlen⟩ := Prod.ext_iff.1 heq
  obtain ⟨done, hdone, htables, -, -, hperm, -⟩ := rotated_to_tables (by decide) (reach_of_run hs)
  exact ⟨s, hs, hacked, hlen, done, hdone, htables, hperm⟩

end Traced

end MiniLSM
