import MiniLSM.Proof.MergeIterator
import MiniLSM.Proof.Ordered
import MiniLSM.Spec.LiveScan

/-!
# What an iterator sees of later writes

The memtable child of an iterator follows the links of a list that goes on growing. An entry
linked before its node is never met; one linked behind it is.

* `insertChain_before`, `suffix_add`: an insertion before the current node leaves the nodes behind it alone.
* `Seen.step_db`: a step of the database then leaves the iterator alone.
* `drain_of_reach`: so what is read is what would have been read without the writes.
* `later_put_seen`: a `Put` behind the current node is read.
-/

namespace MiniLSM

open Transition

theorem Checked.eq_ok_of_toOption {α : Type} {x : Checked α} {a : α} (h : x.toOption = some a) :
    x = .ok a := by
  cases x with
  | error e => cases h
  | ok b => exact congrArg Except.ok (Option.some.inj h)

/-! ## Memtables stay in order -/

theorem World.mem_wf_step {w w' : World} (h : w.db.mem.WF) {l : Label} (hstep : w.step l = some w') :
    w'.db.mem.WF := by
  cases World.step_event hstep with
  | wrote => exact MemTable.add_wf h _ _ _
  | rotated => exact MemTable.add_wf MemTable.new_wf _ _ _
  | reopened _ _ _ _ hrec => exact recover_wf hrec
  | _ => exact h

theorem World.mem_wf_of_reach {w : World} {ok : World → Label → Prop} {options : Options}
    (h : Reach World.step ok (World.fresh options) w) : w.db.mem.WF :=
  Reach.invariant (I := fun w => w.db.mem.WF) MemTable.new_wf
    (fun _ _ _ hm _ hs => World.mem_wf_step hm hs) h

/-! ## Nodes behind the current one -/

/-- An insertion before a node of a chain leaves what is behind it. -/
theorem insertChain_before {key value : Bytes} {height : ℕ} {ns ms : List Node} {n : Node}
    (h : key < n.key) : ∃ ns', SkipList.insertChain key value height (ns ++ n :: ms) = ns' ++ n :: ms := by
  induction ns with
  | nil =>
    refine ⟨[⟨key, value, height⟩], ?_⟩
    rw [List.nil_append, SkipList.insertChain, Slice.compare_eq_gt.2 h]
    rfl
  | cons x ns ih =>
    obtain ⟨ns', ih⟩ := ih
    rw [List.cons_append, SkipList.insertChain]
    split
    · exact ⟨x :: ns', by rw [ih, List.cons_append]⟩
    · exact ⟨{ x with value := value } :: ns, rfl⟩
    · exact ⟨⟨key, value, height⟩ :: x :: ns, rfl⟩

/-- **A child finds its nodes again** in a chain that ends with them. -/
theorem refresh_of_suffix {m : MemTable} (hm : m.WF) {it : MemTableIterator}
    (h : it.rest <:+ m.table.nodes) : it.refresh m = it := by
  obtain ⟨rest⟩ := it
  cases rest with
  | nil => rfl
  | cons n rest =>
    obtain ⟨ns, hns⟩ := h
    have hns : ns ++ n :: rest = m.table.nodes := hns
    have hsorted : (ns ++ n :: rest).Pairwise fun x y => x.key < y.key := by
      have hs := hm.sorted
      rw [MemTable.entries, ← hns, List.pairwise_map] at hs
      exact hs
    have hne : ∀ x ∈ ns, x.key ≠ n.key := by
      intro x hx
      exact ((List.pairwise_append.1 hsorted).2.2 x hx n List.mem_cons_self).ne
    have hdrop : m.table.nodes.dropWhile (fun x => x.key ≠ n.key) = n :: rest := by
      rw [← hns, List.dropWhile_append_of_pos fun x hx => by simpa using hne x hx]
      simp
    simp only [MemTableIterator.refresh, hdrop]

theorem suffix_add {m : MemTable} {rest : List Node} (h : rest <:+ m.table.nodes) {u v : Bytes}
    {height : ℕ} (hbefore : ∀ n ∈ rest.head?, makeInternalKey u (m.lastSeq + 1) (typeOf v) < n.key) :
    rest <:+ (m.add u v height).table.nodes := by
  cases rest with
  | nil => exact List.nil_suffix
  | cons n rest =>
    obtain ⟨ns, hns⟩ := h
    obtain ⟨ns', hns'⟩ := @insertChain_before _ v height ns rest n (hbefore n rfl)
    refine ⟨ns', ?_⟩
    rw [← hns', hns]
    rfl

namespace LiveScan

variable {s s' : LiveScan}

/-! ## The invariant -/

/-- While the first child walks `mem_`, what it has before it is the end of that memtable. -/
structure Seen (s : LiveScan) : Prop where
  mem : s.world.db.mem.WF
  walks : s.walksMem = true →
    ∃ it, s.it.children[0]? = some (ChildIterator.mem it) ∧ it.rest <:+ s.world.db.mem.table.nodes

theorem step_db_eq_some {l : MiniLSM.Label} (h : s.step (.db l) = some s') :
    (∀ options heights, l ≠ .reopen options heights) ∧ ∃ w', s.world.step l = some w' ∧ s' =
      if s.walksMem && !rotates s.world w' then
        { s with
          world := w'
          it := { s.it with children := s.it.children.modify 0 (ChildIterator.refresh w'.db.mem) } }
      else { s with world := w', walksMem := false } := by
  cases l with
  | reopen options heights => cases h
  | _ =>
    refine ⟨by simp, ?_⟩
    obtain ⟨w', hw, hs⟩ := Option.bind_eq_some_iff.1 h
    refine ⟨w', hw, ?_⟩
    split at hs
    · rename_i hc
      rw [if_pos hc]
      exact (Option.some.inj hs).symm
    · rename_i hc
      rw [if_neg hc]
      exact (Option.some.inj hs).symm

/-- What a step without a rotation does to `mem_`. -/
theorem mem_of_step {w w' : World} {l : MiniLSM.Label} (hstep : w.step l = some w')
    (hl : ∀ options heights, l ≠ .reopen options heights) (hrot : rotates w w' = false) :
    w'.db.mem = w.db.mem ∨ ∃ op height walOpens, l = .write op height walOpens ∧ w.db.hasRoom = true ∧
      w'.db.mem = w.db.mem.add op.key op.value height := by
  cases World.step_event hstep with
  | @wrote op height n walOpens hroom => exact Or.inr ⟨op, height, walOpens, rfl, hroom, rfl⟩
  | @rotated op height n ws l hl himm =>
    exact absurd hrot (by simp [rotates, himm, World.rotated, World.wrote])
  | reopened => exact absurd rfl (hl _ _)
  | _ => exact Or.inl rfl

/-- **A step of the database leaves the iterator alone**, when its entry goes before the node
of the first child. -/
theorem Seen.step_db (h : s.Seen) {l : MiniLSM.Label} (hok : s.Before (.db l))
    (hstep : s.step (.db l) = some s') : s'.Seen ∧ s'.it = s.it ∧ s'.output = s.output := by
  obtain ⟨hl, w', hw, rfl⟩ := step_db_eq_some hstep
  have hmem' : w'.db.mem.WF := World.mem_wf_step h.mem hw
  split
  case isFalse => exact ⟨⟨hmem', fun hwalks => absurd hwalks Bool.false_ne_true⟩, rfl, rfl⟩
  case isTrue hc =>
    rw [Bool.and_eq_true, Bool.not_eq_true'] at hc
    obtain ⟨hwalks, hrot⟩ := hc
    obtain ⟨it, hit, hsuffix⟩ := h.walks hwalks
    have hcursor : s.cursor = it.rest := by rw [cursor, hit]
    have hsuffix' : it.rest <:+ w'.db.mem.table.nodes := by
      rcases mem_of_step hw hl hrot with heq | ⟨op, height, walOpens, rfl, hroom, heq⟩
      · rw [heq]
        exact hsuffix
      · rw [heq]
        refine suffix_add hsuffix fun n hn => ?_
        have hadded : s.added (.write op height walOpens) =
            some (makeInternalKey op.key (s.world.db.mem.lastSeq + 1) (typeOf op.value)) := by
          simp [added, hwalks, hroom]
        exact Slice.compare_eq_lt.1 (hok _ hadded n (hcursor ▸ hn))
    have hchildren : s.it.children.modify 0 (ChildIterator.refresh w'.db.mem) = s.it.children := by
      cases hcs : s.it.children with
      | nil => rfl
      | cons c cs =>
        obtain rfl : c = ChildIterator.mem it := by
          rw [hcs] at hit
          exact Option.some.inj hit
        rw [List.modify_zero_cons, ChildIterator.refresh, refresh_of_suffix hmem' hsuffix']
    refine ⟨⟨hmem', fun _ => ⟨it, ?_, hsuffix'⟩⟩, ?_, rfl⟩
    · rw [hchildren]
      exact hit
    · rw [hchildren]

/-- A turn of the reader's loop. -/
theorem Seen.step_next (h : s.Seen) (hstep : s.step .next = some s') :
    s'.Seen ∧ s.it.valid = true ∧ s.it.next = .ok s'.it ∧
      s'.output = s.output ++ [(s.it.currentKeyBuf, s.it.currentValueBuf)] := by
  unfold LiveScan.step at hstep
  simp only at hstep
  split at hstep
  case isFalse => cases hstep
  case isTrue hv =>
    split at hstep
    case h_2 => cases hstep
    case h_1 it' hnext =>
      obtain rfl := Option.some.inj hstep
      refine ⟨⟨h.mem, fun hwalks => ?_⟩, hv, hnext, rfl⟩
      obtain ⟨it, hit, hsuffix⟩ := h.walks hwalks
      rcases MergeIterator.next_children hnext with heq | ⟨i, c, c', hc, hc', heq⟩
      · exact ⟨it, by rw [heq]; exact hit, hsuffix⟩
      · rcases eq_or_ne i 0 with rfl | hi
        · -- the first child itself moves on by one node
          obtain rfl : ChildIterator.mem it = c := Option.some.inj (hit.symm.trans hc)
          obtain ⟨m', hm', rfl⟩ : ∃ m', MemTableIterator.next it = .ok m' ∧ c' = ChildIterator.mem m' := by
            have hmap : ChildIterator.mem <$> MemTableIterator.next it = .ok c' := hc'
            cases hm : MemTableIterator.next it with
            | error e => rw [hm] at hmap; cases hmap
            | ok m' =>
              rw [hm] at hmap
              exact ⟨m', rfl, (Except.ok.inj hmap).symm⟩
          refine ⟨m', ?_, ?_⟩
          · rw [heq]
            exact List.getElem?_set_self (List.getElem?_eq_some_iff.1 hit).1
          · obtain ⟨rest⟩ := it
            cases rest with
            | nil => cases hm'
            | cons n rest =>
              obtain rfl := Except.ok.inj hm'
              exact (List.suffix_cons n rest).trans hsuffix
        · exact ⟨it, by rw [heq, List.getElem?_set_ne hi]; exact hit, hsuffix⟩

/-- The first child of a new iterator stands on the first node of `mem_`. -/
theorem newIterator_first {db : DB} {it : MergeIterator ChildIterator} (h : db.newIterator = .ok it) :
    it.children[0]? = some (ChildIterator.mem (.new db.mem)) := by
  obtain ⟨its, hits, hnew⟩ := Checked.bind_eq_ok h
  obtain ⟨tables, -, hits⟩ := Checked.bind_eq_ok hits
  obtain rfl := Except.ok.inj hits
  obtain ⟨⟨children, heap⟩, hfill, hadv⟩ := Checked.bind_eq_ok hnew
  rw [MergeIterator.advance_children hadv]
  obtain ⟨children', hmap, hfill⟩ := Checked.bind_eq_ok hfill
  obtain ⟨rfl, -⟩ := Prod.ext_iff.1 (Except.ok.inj hfill)
  rw [List.mapM_cons] at hmap
  obtain ⟨c, hc, hmap⟩ := Checked.bind_eq_ok hmap
  obtain ⟨cs, -, hmap⟩ := Checked.bind_eq_ok hmap
  obtain rfl := Except.ok.inj hmap
  obtain rfl : ChildIterator.mem (.new db.mem) = c := Except.ok.inj hc
  rfl

/-! ## Runs -/

/-- The iterator of a database in some state, before its first entry is read. -/
def opened (w : World) (it : MergeIterator ChildIterator) : LiveScan := { world := w, it := it }

theorem drain_of_not_valid {it : MergeIterator ChildIterator} (h : it.valid = false) (n : ℕ) :
    drain n it = .ok [] := by
  cases n with
  | zero => rfl
  | succ n =>
    unfold drain
    rw [if_neg (by rw [show Iterator.valid it = it.valid from rfl, h]; decide)]
    rfl

theorem drain_of_next {it it' : MergeIterator ChildIterator} (hv : it.valid = true)
    (hn : it.next = .ok it') (n : ℕ) :
    drain (n + 1) it = ((it.currentKeyBuf, it.currentValueBuf) :: ·) <$> drain n it' := by
  rw [drain, if_pos (show Iterator.valid it = true from hv), show Iterator.next it = .ok it' from hn]
  rfl

/-- **Later writes are not seen**, as long as each goes before the node on which the memtable
child stands: what has been read, and what is left to read, is what the iterator would have
yielded without them. -/
theorem drain_of_reach {options : Options} {ok : World → MiniLSM.Label → Prop} {w : World}
    {it : MergeIterator ChildIterator} (hw : Reach World.step ok (World.fresh options) w)
    (hit : w.db.newIterator = .ok it) (h : Reach step Before (opened w it) s) :
    (∀ n, drain (s.output.length + n) it = (s.output ++ ·) <$> drain n s.it) ∧
      (s.it.valid = false → ∀ n, drain (s.output.length + n) it = .ok s.output) := by
  have hinv : s.Seen ∧ ∀ n, drain (s.output.length + n) it = (s.output ++ ·) <$> drain n s.it := by
    refine Reach.invariant (I := fun s : LiveScan => s.Seen ∧
      ∀ n, drain (s.output.length + n) it = (s.output ++ ·) <$> drain n s.it) ?_ ?_ h
    · refine ⟨⟨World.mem_wf_of_reach hw, fun _ => ?_⟩, fun n => ?_⟩
      · exact ⟨.new w.db.mem, newIterator_first hit, List.suffix_refl _⟩
      · show drain (0 + n) it = ([] ++ ·) <$> drain n it
        simp only [Nat.zero_add, List.nil_append, id_map']
    · intro s l s' ⟨hseen, hdrain⟩ hok hstep
      cases l with
      | db l =>
        obtain ⟨hseen', hit', hout⟩ := hseen.step_db hok hstep
        refine ⟨hseen', fun n => ?_⟩
        rw [hit', hout]
        exact hdrain n
      | next =>
        obtain ⟨hseen', hv, hnext, hout⟩ := hseen.step_next hstep
        refine ⟨hseen', fun n => ?_⟩
        have hd := hdrain (n + 1)
        rw [drain_of_next hv hnext] at hd
        rw [hout, List.length_append, List.length_singleton, Nat.add_assoc, Nat.add_comm 1 n, hd]
        simp only [Functor.map_map, List.append_assoc, List.singleton_append]
  refine ⟨hinv.2, fun hv n => ?_⟩
  rw [hinv.2 n, drain_of_not_valid hv]
  exact congrArg Except.ok (List.append_nil _)

/-- A `Put` before the one entry of the memtable, and that entry is read. -/
theorem drain_of_reach_before : ∃ w it s,
    run World.step (fun _ _ => True) (World.fresh {}) [.write (.put [98] [1]) 1 true] = some w ∧
      w.db.newIterator = .ok it ∧
      run step Before (opened w it) [.db (.write (.put [97] [2]) 1 true), .next] = some s ∧
      s.output = [(makeInternalKey [98] 1 .value, [1])] ∧ drain (s.output.length + 1) it = .ok s.output := by
  have hrun : (run World.step (fun _ _ => True) (World.fresh {}) [.write (.put [98] [1]) 1 true]).bind
      (fun w => w.db.newIterator.toOption.bind fun it =>
        (run step Before (opened w it) [.db (.write (.put [97] [2]) 1 true), .next]).map
          fun s => (s.output, s.it.valid)) = some ([(makeInternalKey [98] 1 .value, [1])], false) := by
    decide +kernel
  obtain ⟨w, hw, hrun⟩ := Option.bind_eq_some_iff.1 hrun
  obtain ⟨it, hit, hrun⟩ := Option.bind_eq_some_iff.1 hrun
  have hit := Checked.eq_ok_of_toOption hit
  obtain ⟨s, hs, heq⟩ := Option.map_eq_some_iff.1 hrun
  obtain ⟨hout, hv⟩ := Prod.ext_iff.1 heq
  exact ⟨w, it, s, hw, hit, hs, hout, (drain_of_reach (reach_of_run hw) hit (reach_of_run hs)).2 hv 1⟩

set_option synthInstance.maxSize 1000 in
/-- **A `Put` behind the current node is read**, although it came after `NewIterator`. -/
theorem later_put_seen : ∃ w it s, Reach World.step (fun _ _ => True) (World.fresh {}) w ∧
    w.db.newIterator = .ok it ∧ Reach step (fun _ _ => True) (opened w it) s ∧ s.it.valid = false ∧
      s.output = [(makeInternalKey [97] 1 .value, [1]), (makeInternalKey [98] 2 .value, [2])] ∧
      drain 2 it = .ok [(makeInternalKey [97] 1 .value, [1])] := by
  have hrun : (run World.step (fun _ _ => True) (World.fresh {}) [.write (.put [97] [1]) 1 true]).bind
      (fun w => w.db.newIterator.toOption.bind fun it =>
        (run step (fun _ _ => True) (opened w it)
          [.db (.write (.put [98] [2]) 1 true), .next, .next]).map
            fun s => (s.output, s.it.valid, (drain 2 it).toOption)) =
      some ([(makeInternalKey [97] 1 .value, [1]), (makeInternalKey [98] 2 .value, [2])], false,
        some [(makeInternalKey [97] 1 .value, [1])]) := by
    decide +kernel
  obtain ⟨w, hw, hrun⟩ := Option.bind_eq_some_iff.1 hrun
  obtain ⟨it, hit, hrun⟩ := Option.bind_eq_some_iff.1 hrun
  obtain ⟨s, hs, heq⟩ := Option.map_eq_some_iff.1 hrun
  simp only [Prod.mk.injEq] at heq
  obtain ⟨hout, hv, hdrain⟩ := heq
  exact ⟨w, it, s, reach_of_run hw, Checked.eq_ok_of_toOption hit, reach_of_run hs, hv, hout,
    Checked.eq_ok_of_toOption hdrain⟩

end LiveScan

end MiniLSM
