import MiniLSM.Proof.Log
import MiniLSM.Proof.Rotation

/-!
# How much memory the memtables take

The arena gives up a block only when less than a quarter of it is left, so that all but one of its
blocks are three quarters full.

* `Paid a n`: `n` bytes asked for pay for the memory of the arena.
* `usage_of_calls`: over any calls, three quarters of the memory are what was asked for.
* `memtables_bounded`: in every run, a memtable holds at most `write_buffer_size` bytes and one record,
  and takes about a third more.
-/

namespace MiniLSM

open Transition

namespace Arena

variable {a : Arena} {n : ℕ}

/-- **`n` bytes asked for pay for the memory of the arena.** What the current block has left is the
credit for the next one. -/
structure Paid (a : Arena) (n : ℕ) : Prop where
  null : a.allocPtr = none → a.allocBytesRemaining = 0 ∧ 3073 * a.memoryUsage ≤ 4096 * n
  current : a.allocPtr ≠ none → a.allocBytesRemaining ≤ 4096 ∧
    3073 * a.memoryUsage + 4096 * 1023 ≤ 4096 * (n + a.allocBytesRemaining)

theorem paid_empty : ({} : Arena).Paid 0 := ⟨fun _ => ⟨rfl, le_rfl⟩, fun h => absurd rfl h⟩

/-- One block is not paid for yet. -/
theorem Paid.usage_le (h : a.Paid n) : 3073 * a.memoryUsage ≤ 4096 * (n + 3073) := by
  by_cases hp : a.allocPtr = none
  · have := (h.null hp).2
    omega
  · obtain ⟨hleft, hpaid⟩ := h.current hp
    omega

theorem Paid.mono {n' : ℕ} (h : a.Paid n) (hle : n ≤ n') : a.Paid n' := by
  refine ⟨fun hp => ?_, fun hp => ?_⟩
  · obtain ⟨hleft, hpaid⟩ := h.null hp
    exact ⟨hleft, by omega⟩
  · obtain ⟨hleft, hpaid⟩ := h.current hp
    exact ⟨hleft, by omega⟩

theorem Paid.advance (h : a.Paid n) {k : ℕ} (hk : k ≤ a.allocBytesRemaining) : (a.advance k).Paid (n + k) := by
  have hnone : (a.advance k).allocPtr = none ↔ a.allocPtr = none := by simp [Arena.advance]
  refine ⟨fun hp => ?_, fun hp => ?_⟩
  · obtain ⟨hleft, hpaid⟩ := h.null (hnone.1 hp)
    simp only [Arena.advance]
    omega
  · obtain ⟨hleft, hpaid⟩ := h.current (mt hnone.2 hp)
    simp only [Arena.advance]
    omega

/-- The next block: the one before has little left, up to the padding that was asked for with it. -/
theorem Paid.fallback (h : a.Paid n) {k extra : ℕ} (hleft : k ≤ 1024 → a.allocBytesRemaining ≤ 1023 + extra) :
    (a.allocateFallback k).2.Paid (n + k + extra) := by
  unfold allocateFallback
  split
  · -- a block of its own is paid in full
    refine ⟨fun hp => ?_, fun hp => ?_⟩
    · obtain ⟨hzero, hpaid⟩ := h.null hp
      simp only [allocateNewBlock]
      omega
    · obtain ⟨hle, hpaid⟩ := h.current hp
      simp only [allocateNewBlock]
      omega
  · rename_i hsmall
    simp only [kBlockSize] at hsmall ⊢
    have hrest := hleft (by omega)
    refine ⟨fun hp => absurd hp (Option.some_ne_none _), fun _ => ?_⟩
    by_cases hp : a.allocPtr = none
    · have := (h.null hp).2
      simp only
      omega
    · have := (h.current hp).2
      simp only
      omega

theorem Paid.allocate (h : a.Paid n) (k : ℕ) : (a.allocate k).2.Paid (n + k) := by
  unfold Arena.allocate
  split
  · subst k
    exact h
  split
  · exact h.advance ‹_›
  · exact @Paid.fallback _ _ h _ 0 (by omega)

theorem Paid.allocateAligned (h : a.Paid n) {k : ℕ} (hk : k + 7 < UInt64.size) :
    (a.allocateAligned k).2.Paid (n + k + 7) := by
  have hpadding : ∀ m : ℕ, (if m % 8 = 0 then 0 else 8 - m % 8) ≤ 7 := by
    intro m
    split <;> omega
  have hle := hpadding (a.allocPtr.elim 0 ArenaPtr.offset)
  simp only [Arena.allocateAligned]
  generalize (if _ = 0 then 0 else _) = padding at hle ⊢
  have hsum : (padding + k) % UInt64.size = padding + k := Nat.mod_eq_of_lt (by omega)
  rw [hsum]
  split
  · have hadvance := (h.advance (k := padding) (by omega)).allocate k
    exact hadvance.mono (by omega)
  · exact h.fallback (by omega)

/-- What a call asks for, with the padding that it may need. -/
def Call.charge : Call → ℕ
  | .allocate n => n
  | .allocateAligned n => n + 7

theorem Paid.calls {cs : List Call} (h : a.Paid n) (hcs : ∀ c ∈ cs, c.size + 7 < UInt64.size) :
    (a.calls cs).2.Paid (n + (cs.map Call.charge).sum) := by
  induction cs generalizing a n with
  | nil => exact h
  | cons c cs ih =>
    have hcall : (a.call c).2.Paid (n + c.charge) := by
      cases c with
      | allocate k => exact h.allocate k
      | allocateAligned k => exact h.allocateAligned (hcs _ List.mem_cons_self)
    rw [List.map_cons, List.sum_cons, ← Nat.add_assoc]
    exact ih hcall fun c hc => hcs c (List.mem_cons_of_mem _ hc)

theorem Used.calls {cs : List Call} (h : a.Used n) : (a.calls cs).2.Used (n + (cs.map Call.size).sum) := by
  induction cs generalizing a n with
  | nil => exact h
  | cons c cs ih =>
    have hcall : (a.call c).2.Used (n + c.size) := by
      cases c with
      | allocate k => exact h.allocate k
      | allocateAligned k => exact h.allocateAligned k
    rw [List.map_cons, List.sum_cons, ← Nat.add_assoc]
    exact ih hcall

/-- **The arena wastes at most a quarter of its memory**, apart from its last block: over any calls, the
memory is at least what was asked for, and at most 4096/3073 of it, seven bytes for each alignment and one
block more. -/
theorem usage_of_calls {cs : List Call} (hcs : ∀ c ∈ cs, c.size + 7 < UInt64.size) :
    (cs.map Call.size).sum ≤ (({} : Arena).calls cs).2.memoryUsage ∧
      3073 * (({} : Arena).calls cs).2.memoryUsage ≤ 4096 * ((cs.map Call.charge).sum + 3073) := by
  have hused : (({} : Arena).calls cs).2.Used (0 + (cs.map Call.size).sum) :=
    (show ({} : Arena).Used 0 from le_rfl).calls
  rw [Used] at hused
  refine ⟨by omega, ?_⟩
  have hpaid := (paid_empty.calls hcs).usage_le
  rwa [Nat.zero_add] at hpaid

/-- Blocks that a kilobyte cuts into four. -/
theorem usage_of_calls_kilobytes : 8000 ≤ (({} : Arena).calls (List.replicate 8 (.allocate 1000))).2.memoryUsage ∧
    3073 * (({} : Arena).calls (List.replicate 8 (.allocate 1000))).2.memoryUsage ≤ 4096 * 11073 := by
  have h := @usage_of_calls (List.replicate 8 (.allocate 1000)) (by decide)
  simpa [Call.size, Call.charge] using h

theorem Paid.newNode (h : a.Paid n) (key value : Bytes) {height : ℕ} (hle : height ≤ 12) :
    (SkipList.newNode a key value height).Paid (n + (48 + key.length + value.length) + 95) := by
  have hsize : SkipList.nodeSize height ≤ 136 := by
    unfold SkipList.nodeSize
    omega
  have hnode : SkipList.nodeSize height + 7 < UInt64.size := by
    rw [UInt64.size]
    omega
  exact (((h.allocateAligned hnode).allocate key.length).allocate value.length).mono (by omega)

theorem Used.wholeNode (h : a.Used n) (key value : Bytes) (height : ℕ) :
    (SkipList.newNode a key value height).Used (n + (48 + key.length + value.length)) := by
  have hnode := ((h.allocateAligned (SkipList.nodeSize height)).allocate key.length).allocate value.length
  rw [Used, SkipList.nodeSize] at hnode
  rw [Used, SkipList.newNode, SkipList.nodeSize]
  omega

end Arena

/-! ## Memtables -/

namespace MemTable

/-- The bytes of the entries: a node with one next pointer, key and value of each. -/
def footprint (m : MemTable) : ℕ := (m.entries.map fun e => 48 + e.1.length + e.2.length).sum

/-- **What a memtable weighs**: its entries are as many as its numbers, and they pay for its memory. -/
structure Weighed (m : MemTable) : Prop where
  count : m.entries.length = m.lastSeq.toNat
  used : m.table.arena.Used m.footprint
  paid : m.table.arena.Paid (m.footprint + 95 * m.entries.length + 145)

variable {m : MemTable}

/-- The next sequence number. -/
theorem toNat_next {s : SequenceNumber} (h : s.toNat + 1 < 2 ^ 56) : (s + 1).toNat = s.toNat + 1 := by
  rw [UInt64.toNat_add]
  exact Nat.mod_eq_of_lt (by simp; omega)

theorem new_weighed : Weighed new where
  count := rfl
  used := by
    rw [Arena.Used]
    decide
  paid := ((Arena.paid_empty.allocateAligned (by decide)).allocate 1).allocate 1

theorem count_le_footprint (m : MemTable) : 48 * m.entries.length ≤ m.footprint := by
  unfold footprint
  generalize m.entries = es
  induction es with
  | nil => rfl
  | cons e es ih =>
    rw [List.length_cons, List.map_cons, List.sum_cons]
    omega

/-- A memtable whose entries fit has numbers left. -/
theorem Weighed.lt (h : m.Weighed) (hsize : m.footprint ≤ 2 ^ 61) : m.lastSeq.toNat + 1 < 2 ^ 56 := by
  have hle := m.count_le_footprint
  rw [h.count] at hle
  omega

theorem Weighed.usage (h : m.Weighed) : m.footprint ≤ m.approximateMemoryUsage ∧
    3073 * m.approximateMemoryUsage ≤ 4096 * (m.footprint + 95 * m.entries.length + 3218) := by
  have hused := h.used
  rw [Arena.Used] at hused
  have hpaid := h.paid.usage_le
  unfold approximateMemoryUsage
  omega

/-- **An add weighs its entry.** -/
theorem Weighed.add (h : m.Weighed) (hc : m.Counted) (hlt : m.lastSeq.toNat + 1 < 2 ^ 56) (u v : Bytes)
    {height : ℕ} (hheight : height ≤ 12) : (m.add u v height).Weighed ∧
      (m.add u v height).footprint = m.footprint + (56 + u.length + v.length) := by
  have hnext := toNat_next hlt
  have hfresh := hc.fresh hlt u (typeOf v)
  have harena := @arena_add m u v height hfresh
  have hkey : (makeInternalKey u (m.lastSeq + 1) (typeOf v)).length = u.length + 8 := by simp
  have hperm : (m.add u v height).entries.Perm ((makeInternalKey u (m.lastSeq + 1) (typeOf v), v) :: m.entries) := by
    rw [entries_add]
    exact insertChain_perm hfresh
  have hfootprint : (m.add u v height).footprint = m.footprint + (56 + u.length + v.length) := by
    unfold footprint
    rw [(hperm.map _).sum_eq, List.map_cons, List.sum_cons, hkey]
    dsimp only
    omega
  have hused := h.used.wholeNode (makeInternalKey u (m.lastSeq + 1) (typeOf v)) v height
  have hpaid := h.paid.newNode (makeInternalKey u (m.lastSeq + 1) (typeOf v)) v hheight
  rw [hkey] at hused hpaid
  refine ⟨⟨?_, ?_, ?_⟩, hfootprint⟩
  · rw [hperm.length_eq, List.length_cons, h.count, lastSeq_add, hnext]
  · rw [harena, hfootprint]
    convert hused using 1
    omega
  · rw [harena, hfootprint, hperm.length_eq, List.length_cons]
    exact hpaid.mono (by omega)

/-- A memtable with at most `n` bytes of entries. -/
structure Held (n : ℕ) (m : MemTable) : Prop where
  counted : m.Counted
  weighed : m.Weighed
  le : m.footprint ≤ n

theorem new_held (n : ℕ) : Held n new := ⟨new_counted, new_weighed, Nat.zero_le n⟩

theorem Held.add {n k : ℕ} (h : Held n m) (hn : n ≤ 2 ^ 61) {u v : Bytes} {height : ℕ} (hheight : height ≤ 12)
    (hk : m.footprint + (56 + u.length + v.length) ≤ k) : Held k (m.add u v height) := by
  have hlt := h.weighed.lt (h.le.trans hn)
  obtain ⟨hweighed, hfootprint⟩ := h.weighed.add h.counted hlt u v hheight
  exact ⟨(h.counted.add hlt u v height).1, hweighed, hfootprint ▸ hk⟩

end MemTable

/-- **A log replays to a memtable that weighs its records.** -/
theorem replayAll_weighed {db : DB} (hnew : db.mem = MemTable.new) {rs : List Record} {heights : ℕ → ℕ}
    (hheights : ∀ i, heights i ≤ 12) (hlen : rs.length < 2 ^ 56) :
    (db.replayAll rs heights).mem.Counted ∧ (db.replayAll rs heights).mem.Weighed ∧
      (db.replayAll rs heights).mem.lastSeq.toNat = rs.length := by
  have hfold : ∀ (rs : List Record) (n : ℕ) (db : DB), db.mem.Counted → db.mem.Weighed →
      db.mem.lastSeq.toNat + rs.length < 2 ^ 56 →
      let m := ((rs.zipIdx n).foldl (fun db r => db.replay r.1 (heights r.2)) db).mem
      m.Counted ∧ m.Weighed ∧ m.lastSeq.toNat = db.mem.lastSeq.toNat + rs.length := by
    intro rs
    induction rs with
    | nil => exact fun _ _ hc hw _ => ⟨hc, hw, rfl⟩
    | cons r rs ih =>
      intro n db hc hw hlt
      rw [List.length_cons] at hlt
      have hstep : (db.replay r (heights n)).mem = db.mem.add r.entry.1 r.entry.2 (heights n) := by
        rw [DB.replay, Record.entry]
        split <;> rfl
      have hone : db.mem.lastSeq.toNat + 1 < 2 ^ 56 := by omega
      have hnext := MemTable.toNat_next hone
      have hadd := ih (n + 1) (db.replay r (heights n))
      rw [hstep, MemTable.lastSeq_add, hnext] at hadd
      obtain ⟨hc', hw', hlast⟩ := hadd (hc.add hone _ _ _).1 (hw.add hc hone _ _ (hheights n)).1 (by omega)
      rw [List.zipIdx_cons, List.foldl_cons]
      exact ⟨hc', hw', by rw [hlast, List.length_cons]; omega⟩
  have h := hfold rs 0 db (hnew ▸ MemTable.new_counted) (hnew ▸ MemTable.new_weighed)
    (by rw [hnew]; simpa [MemTable.new] using hlen)
  rw [hnew] at h
  simpa [DB.replayAll, MemTable.new] using h

/-! ## Runs -/

namespace World

/-- Records of at most `size` bytes, buffers of at most `buffer` bytes, nodes as `RandomHeight` makes them;
the logs that writes open do open, and their records are short. -/
def Sized (buffer size : ℕ) (w : World) (l : Label) : Prop :=
  LogsOpen w l ∧
    match l with
    | .write op height _ => 56 + op.key.length + op.value.length ≤ size ∧ height ≤ 12
    | .wake _ height _ => height ≤ 12
    | .reopen options heights => options.writeBufferSize ≤ buffer ∧ ∀ i, heights i ≤ 12
    | _ => True

/-- **The memtables are bounded**, and the log of `mem_` has as many records as `mem_` has entries. -/
structure Bounded (buffer size : ℕ) (w : World) : Prop where
  small : w.db.options.writeBufferSize ≤ buffer
  log : ∃ rs, w.disk.logs w.db.walNumber = some (logBytes rs) ∧ (∀ r ∈ rs, r.Short) ∧
    rs.length = w.db.mem.lastSeq.toNat
  mem : w.db.mem.Held (buffer + size)
  imm : ∀ m, w.db.imm = some m → m.Held (buffer + size)
  waiting : ∀ op ∈ w.waiting, 56 + op.key.length + op.value.length ≤ size

variable {buffer size : ℕ} {w w' : World}

theorem fresh_bounded {options : Options} (h : options.writeBufferSize ≤ buffer) :
    Bounded buffer size (fresh options) where
  small := h
  log := ⟨[], rfl, by simp, rfl⟩
  mem := MemTable.new_held _
  imm := fun _ h => nomatch h
  waiting := by simp [fresh]

/-- Steps that leave `mem_` and its log alone. -/
theorem Bounded.keep (h : w.Bounded buffer size) (hopt : w'.db.options = w.db.options)
    (hmem : w'.db.mem = w.db.mem) (hnum : w'.db.walNumber = w.db.walNumber) (hlogs : w'.disk.logs = w.disk.logs)
    (himm : w'.db.imm = w.db.imm ∨ w'.db.imm = none)
    (hwait : ∀ op ∈ w'.waiting, op ∈ w.waiting ∨ 56 + op.key.length + op.value.length ≤ size) :
    w'.Bounded buffer size := by
  refine ⟨hopt ▸ h.small, by rw [hnum, hmem, hlogs]; exact h.log, hmem ▸ h.mem, fun m hm => ?_, fun op hop => ?_⟩
  · rcases himm with himm | himm
    · exact h.imm m (himm ▸ hm)
    · rw [himm] at hm
      cases hm
  · exact (hwait op hop).elim (h.waiting op) id

/-- A write into a memtable that is not full. -/
theorem Bounded.wrote (h : w.Bounded buffer size) (hsum : buffer + size ≤ 2 ^ 61) {op : DB.WriteOp}
    (hop : op.Short) (hsize : 56 + op.key.length + op.value.length ≤ size) {height : ℕ} (hheight : height ≤ 12)
    (hfits : w.db.mem.footprint ≤ buffer) : (w.wrote op height w.db.walNumber).Bounded buffer size := by
  obtain ⟨rs, hlog, hshort, hlen⟩ := h.log
  refine ⟨h.small, ⟨_, wrote_logs hlog op height, fun r hr => ?_, ?_⟩, ?_, h.imm, h.waiting⟩
  · rcases List.mem_append.1 hr with hr | hr
    · exact hshort r hr
    · rw [List.mem_singleton.1 hr]
      exact hop.record _
  · have hlt := h.mem.weighed.lt (h.mem.le.trans hsum)
    have hseq : (w.wrote op height w.db.walNumber).db.mem.lastSeq = w.db.mem.lastSeq + 1 :=
      MemTable.lastSeq_add _ _ _ _
    rw [hseq, MemTable.toNat_next hlt, List.length_append, hlen]
    rfl
  · exact h.mem.add hsum hheight (by omega)

/-- The full memtable becomes `imm_`, and `mem_` starts empty. -/
theorem Bounded.rotated (h : w.Bounded buffer size) (hlogged : w.Logged) : w.rotated.Bounded buffer size where
  small := h.small
  log := ⟨[], rotated_logs (hlogged.above _ (Nat.lt_succ_self _)), by simp, rfl⟩
  mem := MemTable.new_held _
  imm := fun m hm => by
    obtain rfl := Option.some.inj hm
    exact h.mem
  waiting := h.waiting

/-- **Opening again** weighs the same entries. -/
theorem Bounded.reopened (h : w.Bounded buffer size) (hsum : buffer + size ≤ 2 ^ 61) (hlogged : w.Logged)
    (hfiles : w.Files) (himm : w.db.imm = none) (hwait : w.waiting = []) {options : Options}
    (hopt : options.writeBufferSize ≤ buffer) {heights : ℕ → ℕ} (hheights : ∀ i, heights i ≤ 12) {db : DB}
    {ops : List FsOp} (hrec : DB.recover options w.disk heights = .ok (db, ops)) :
    ({ w with db := db, disk := w.disk.run ops } : World).Bounded buffer size := by
  obtain ⟨next, hrecorded⟩ := hlogged.recorded himm
  obtain ⟨rs, hlog, hshort, hlen⟩ := h.log
  obtain ⟨rs', hlog', hshort', hsame⟩ := hlogged.log
  have hrs : rs' = rs := by
    rw [hlog] at hlog'
    have hbytes := congrArg WALReader.recover (Option.some.inj hlog')
    rw [WALReader.recover_addRecords hshort, WALReader.recover_addRecords hshort'] at hbytes
    exact hbytes.symm
  subst hrs
  obtain ⟨mem, seq, ⟨_, rfl, hmem, -⟩, heq⟩ := recover_eq options heights (hfiles.readManifest hrecorded)
  rw [hlog, Option.map_some, Option.getD_some, WALReader.recover_addRecords hshort] at hmem
  obtain ⟨rfl, rfl⟩ : _ = db ∧ _ = ops := by
    rw [heq] at hrec
    exact Prod.ext_iff.1 (Except.ok.inj hrec)
  have hlt := h.mem.weighed.lt (h.mem.le.trans hsum)
  obtain ⟨hcounted, hweighed, hseq⟩ := @replayAll_weighed
    { options := options, levels := w.db.levels, nextFileNumber := next, walNumber := w.db.walNumber } rfl
    rs' heights hheights (by omega)
  have hentries := (@replayAll_same
    { options := options, levels := w.db.levels, nextFileNumber := next, walNumber := w.db.walNumber } rfl
    rs' heights).entries.trans hsame.entries.symm
  refine ⟨hopt, ⟨rs', ?_, hshort, ?_⟩, ⟨?_, ?_, ?_⟩, fun m hm => (nomatch hm), by simp [hwait]⟩
  · refine (Function.update_self _ _ _).trans ?_
    rw [hlog, Option.getD_some]
  · rw [hmem]
    exact hseq.symm
  · rw [hmem]
    exact hcounted
  · rw [hmem]
    exact hweighed
  · rw [hmem]
    refine le_trans (le_of_eq ?_) h.mem.le
    unfold MemTable.footprint
    rw [hentries]

/-- **No step breaks the bounds.** -/
theorem Bounded.step (h : w.Bounded buffer size) (hsum : buffer + size ≤ 2 ^ 61) (hlogged : w.Logged)
    (hfiles : w.Files) {l : Label} (hok : Sized buffer size w l) (hstep : w.step l = some w') :
    w'.Bounded buffer size := by
  obtain ⟨hopen, hsized⟩ := hok
  cases step_event hstep with
  | @wrote op height n walOpens hroom hwal =>
    obtain rfl : w.db.walNumber = n := by
      rw [hlogged.wal] at hwal
      exact Option.some.inj hwal
    have hlt : w.db.mem.approximateMemoryUsage < w.db.options.writeBufferSize := by
      simpa [DB.hasRoom] using hroom
    have hle := h.mem.weighed.usage.1
    have hsmall := h.small
    exact h.wrote hsum hopen.1 hsized.1 hsized.2 (by omega)
  | @waits op height walOpens =>
    refine h.keep rfl rfl rfl rfl (.inl rfl) fun o ho => ?_
    rcases List.mem_append.1 ho with ho | ho
    · exact .inl ho
    · rw [List.mem_singleton.1 ho]
      exact .inr hsized.1
  | @rotated op height n ws l hl himm hwal =>
    have hws : (∀ o ∈ ws, o ∈ w.waiting) ∧ op.Short ∧ 56 + op.key.length + op.value.length ≤ size ∧ height ≤ 12 := by
      rcases hl with ⟨rfl, -, rfl⟩ | ⟨i, rfl, hop, rfl⟩
      · exact ⟨fun o ho => ho, hopen.1, hsized⟩
      · have hmem := List.mem_of_getElem? hop
        exact ⟨fun o ho => List.mem_of_mem_eraseIdx ho, hlogged.waiting op hmem, h.waiting op hmem, hsized⟩
    have herased : ({ w with waiting := ws } : World).Bounded buffer size :=
      h.keep rfl rfl rfl rfl (.inl rfl) fun o ho => .inl (hws.1 o ho)
    exact (herased.rotated (hlogged.waitingErased hws.1)).wrote hsum hws.2.1 hws.2.2.1 hws.2.2.2 (Nat.zero_le _)
  | @rotateFailed op height n ws l hl =>
    rcases hl with ⟨rfl, -, -⟩ | ⟨i, rfl, -, -⟩
    · exact absurd hopen.2 (by decide)
    · exact absurd hopen (by simp [LogsOpen])
  | flushBegun => exact h.keep rfl rfl rfl rfl (.inl rfl) fun _ ho => .inl ho
  | flushBuilt => exact h.keep rfl rfl rfl rfl (.inl rfl) fun _ ho => .inl ho
  | @flushNotBuilt i job faults opens ops hjob hres hbad hops =>
    refine h.keep rfl rfl rfl ?_ (.inl rfl) fun _ ho => .inl ho
    rcases hops with rfl | rfl <;> rfl
  | flushCommitted =>
    exact h.keep rfl rfl rfl (by rw [flushCommitted_disk]) (.inr rfl) fun _ ho => .inl ho
  | flushFailed => exact h.keep rfl rfl rfl rfl (.inl rfl) fun _ ho => .inl ho
  | flushDropped => exact h.keep rfl rfl rfl (by rw [flushDropped_disk]) (.inr rfl) fun _ ho => .inl ho
  | compactionBegun => exact h.keep rfl rfl rfl rfl (.inl rfl) fun _ ho => .inl ho
  | outputWritten => exact h.keep rfl rfl rfl rfl (.inl rfl) fun _ ho => .inl ho
  | outputFailed => exact h.keep rfl rfl rfl rfl (.inl rfl) fun _ ho => .inl ho
  | @compactionCommitted i job hjob =>
    obtain ⟨gone0, gone1, -, -, -, -, -, -, hops⟩ :=
      compactCommit_spec w.db job.l0Snapshot job.l1Indices job.newLevel1
    have hdisk := compactionCommitted_disk w i job hops
    obtain ⟨hlogs, -, -⟩ := Disk.run_unlink w.disk (job.l0Snapshot ++ gone1)
    exact h.keep rfl rfl rfl (by rw [hdisk]; exact hlogs) (.inl rfl) fun _ ho => .inl ho
  | @compactionFailed i job hjob =>
    obtain ⟨hlogs, -, -⟩ := Disk.run_unlink w.disk job.newLevel1
    exact h.keep rfl rfl rfl hlogs (.inl rfl) fun _ ho => .inl ho
  | reopened himm _ _ hwait hrec => exact h.reopened hsum hlogged hfiles himm hwait hsized.1 hsized.2 hrec

/-- **How large memtables get.** In every run with buffers of at most `buffer` bytes and records of at most
`size`, `mem_` and `imm_` hold at most `buffer + size` bytes of entries, and the memory they take is at
least that, and at most 4096/3073 of it, with 95 bytes for each entry and one block more. -/
theorem memtables_bounded {options : Options} (hbuffer : options.writeBufferSize ≤ buffer)
    (hsum : buffer + size ≤ 2 ^ 61) (h : Reach World.step (Sized buffer size) (fresh options) w) (m : MemTable)
    (hm : m = w.db.mem ∨ w.db.imm = some m) :
    m.footprint ≤ buffer + size ∧ m.footprint ≤ m.approximateMemoryUsage ∧
      3073 * m.approximateMemoryUsage ≤ 4096 * (m.footprint + 95 * m.entries.length + 3218) := by
  have hlogged : ∀ {w}, Reach World.step (Sized buffer size) (fresh options) w → w.Logged :=
    fun h => logged_of_reach (h.mono fun _ _ hok => hok.1)
  have hbounded : w.Bounded buffer size :=
    h.invariant_of (J := fun w => w.Logged ∧ w.Files) (fun _ hr => ⟨hlogged hr, files_of_reach hr⟩)
      (fresh_bounded hbuffer) fun _ _ _ hJ hb hok hstep => hb.step hsum hJ.1 hJ.2 hok hstep
  have hheld : m.Held (buffer + size) := by
    rcases hm with rfl | hm
    · exact hbounded.mem
    · exact hbounded.imm m hm
  exact ⟨hheld.le, hheld.weighed.usage⟩

/-- A run within these bounds that opens no database again. -/
def Small (size : ℕ) (w : World) (l : Label) : Prop :=
  LogsOpen w l ∧
    match l with
    | .write op height _ => 56 + op.key.length + op.value.length ≤ size ∧ height ≤ 12
    | .wake _ height _ => height ≤ 12
    | .reopen _ _ => False
    | _ => True

instance (size : ℕ) (w : World) (l : Label) : Decidable (Small size w l) := by
  rcases l with _ | _ <;> unfold Small <;> infer_instance

theorem Small.sized {l : Label} (h : Small size w l) : Sized buffer size w l := by
  obtain ⟨hopen, hsmall⟩ := h
  refine ⟨hopen, ?_⟩
  cases l with
  | reopen => exact hsmall.elim
  | _ => exact hsmall

/-- Two writes of four kilobytes: the second finds the buffer full. -/
theorem memtables_bounded_twoWrites : ∃ w m,
    run World.step (Small 4100) (fresh { writeBufferSize := 5000 })
        [.write (.put [107] (List.replicate 4000 0)) 1 true, .write (.put [108] (List.replicate 4000 0)) 1 true] =
      some w ∧ w.db.imm = some m ∧ m.approximateMemoryUsage = 8096 ∧ m.footprint ≤ 9100 := by
  have hrun : (run World.step (Small 4100) (fresh { writeBufferSize := 5000 })
      [.write (.put [107] (List.replicate 4000 0)) 1 true, .write (.put [108] (List.replicate 4000 0)) 1 true]).bind
      (fun w => w.db.imm.map fun m => decide (m.approximateMemoryUsage = 8096)) = some true := by decide +kernel
  obtain ⟨w, hw, heq⟩ := Option.bind_eq_some_iff.1 hrun
  obtain ⟨m, hm, husage⟩ := Option.map_eq_some_iff.1 heq
  obtain ⟨hle, -⟩ := @memtables_bounded 5000 4100 w _ le_rfl (by decide)
    ((reach_of_run hw).mono fun _ _ h => h.sized) m (.inr hm)
  exact ⟨w, m, hw, hm, of_decide_eq_true husage, hle⟩

end World

end MiniLSM
