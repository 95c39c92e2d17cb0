import MiniLSM.Proof.LiveScan
import MiniLSM.Proof.Ordered
import MiniLSM.Proof.Latest
import MiniLSM.Proof.Versions
import MiniLSM.Spec.LiveGet

/-!
# `Get` is linearizable

* `get_add_isSome`: a key that is found stays found behind an `Add` of a key that stays apart.
* `search_linearizable`: what `Get` finds without the lock is what it would have found in one
  section somewhere between its snapshot and its search.
* `search_latest`: that is the last write acknowledged by then, where a `Get` in one section finds it.
-/

namespace MiniLSM

open Transition

/-- **A key that is found stays found**, when keys added meanwhile do not come between the key and its
trailer. -/
theorem MemTable.get_add_isSome {m : MemTable} (h : m.WF) {k u v : Bytes} {height : ℕ}
    (hu : u = k ∨ Apart u k ∧ Apart k u) (hk : (m.get k).isSome = true) :
    ((m.add u v height).get k).isSome = true := by
  obtain ⟨value, hvalue⟩ := Option.isSome_iff_exists.1 hk
  obtain ⟨e, he, hek, -, hmin⟩ := (get_eq_some_iff h).1 hvalue
  set ik := makeInternalKey u (m.lastSeq + 1) (typeOf v) with hik
  have hnew : (ik, v) ∈ (m.add u v height).entries := mem_insertChain_self _ _ _ _
  have hold : ∀ f ∈ (m.add u v height).entries, f = (ik, v) ∨ f ∈ m.entries := fun f hf => mem_insertChain hf
  have hiku : extractUserKey ik = u := extractUserKey_makeInternalKey _ _ _
  have hfound : ∀ f ∈ (m.add u v height).entries, extractUserKey f.1 = k →
      (∀ g ∈ (m.add u v height).entries, makeLookupKey k ≤ g.1 → f.1 ≤ g.1) →
      ((m.add u v height).get k).isSome = true := fun f hf hfk hle =>
    Option.isSome_iff_exists.2 ⟨f.2, (get_eq_some_iff (add_wf h u v height)).2 ⟨f, hf, hfk, rfl, hle⟩⟩
  have hstays : e.1 ≠ ik → (makeLookupKey k ≤ ik → e.1 ≤ ik) → ((m.add u v height).get k).isSome = true := by
    intro hne hle
    refine hfound e (mem_insertChain_of_ne he hne) hek fun g hg hkg => ?_
    rcases hold g hg with rfl | hg
    · exact hle hkg
    · exact hmin g hg hkg
  by_cases heq : u = k
  · subst heq
    rcases le_or_gt ik e.1 with hle | hlt
    · -- the new version comes first
      refine hfound (ik, v) hnew hiku fun g hg hkg => ?_
      rcases hold g hg with rfl | hg
      · exact le_rfl
      · exact hle.trans (hmin g hg hkg)
    · exact hstays hlt.ne fun _ => hlt.le
  obtain ⟨huk, hku⟩ := hu.resolve_left heq
  have hne : e.1 ≠ ik := fun h => heq (by rw [← hiku, ← h, hek])
  rcases lt_or_gt_of_ne heq with hlt | hgt
  · have hbelow : ik < makeLookupKey k := internalKey_lt_of_apart hlt huk _ _ _
    exact hstays hne fun hle => absurd hbelow (not_lt.2 hle)
  · obtain ⟨w, t, hstored⟩ := h.stored e he
    obtain rfl : w = k := by rw [← hek, hstored, extractUserKey_makeInternalKey]
    have habove : e.1 < ik := by
      rw [hstored, hik, makeInternalKey_eq u]
      exact internalKey_lt_of_apart hgt hku _ _ _
    exact hstays hne fun _ => habove.le

namespace LiveGet

variable {s s' : LiveGet} {w w₁ : World} {key : Bytes} {ok : World → Label → Prop}

/-- A write into the memtable of the snapshot is of the key itself, or of one that stays apart from it. -/
def Keeps (s : LiveGet) : Label → Prop
  | .write op _ _ => s.isMem = true → s.world.db.hasRoom = true →
      op.key = s.key ∨ Apart op.key s.key ∧ Apart s.key op.key
  | _ => True

instance (s : LiveGet) (l : Label) : Decidable (s.Keeps l) := by
  rcases l with _ | _ <;> unfold Keeps <;> infer_instance

/-- The states of the database while `Get` searches: `w` is that of its snapshot, and `w₁` the last one
whose `mem_` is the memtable of the snapshot. -/
structure Between (ok : World → Label → Prop) (w : World) (key : Bytes) (s : LiveGet) (w₁ : World) : Prop where
  before : Reach World.step ok w w₁
  after : Reach World.step ok w₁ s.world
  mem : w₁.db.mem = s.mem
  now : s.isMem = true → w₁ = s.world
  wf : s.mem.WF
  sameKey : s.key = key
  imm : s.imm = w.db.imm
  levels : s.levels = w.db.levels
  found : (w.db.mem.get key).isSome = true → (s.mem.get key).isSome = true

theorem acquire_between (hmem : w.db.mem.WF) : Between ok w key (acquire w key) w :=
  ⟨.start, .start, rfl, fun _ => rfl, hmem, rfl, rfl, rfl, id⟩

theorem step_eq_some {l : Label} (h : s.step l = some s') :
    (∀ options heights, l ≠ .reopen options heights) ∧ ∃ w', s.world.step l = some w' ∧ s' =
      if s.isMem && !LiveScan.rotates s.world w' then { s with world := w', mem := w'.db.mem }
      else { s with world := w', isMem := false } := by
  cases l with
  | reopen options heights => cases h
  | _ =>
    refine ⟨by simp, ?_⟩
    obtain ⟨w', hw, hs⟩ := Option.bind_eq_some_iff.1 h
    refine ⟨w', hw, ?_⟩
    split at hs
    · rename_i hc
      rw [if_pos hc]
      exact (Option.some.inj hs).symm
    · rename_i hc
      rw [if_neg hc]
      exact (Option.some.inj hs).symm

/-- **A step of the database** while `Get` searches. -/
theorem Between.step (h : Between ok w key s w₁) {l : Label} (hl' : ok s.world l) (hok : s.Keeps l)
    (hstep : s.step l = some s') : ∃ w₂, Between ok w key s' w₂ := by
  obtain ⟨hl, w', hw, rfl⟩ := step_eq_some hstep
  split
  case isFalse =>
    exact ⟨w₁, { h with after := .next h.after hl' hw, now := fun hmem => absurd hmem Bool.false_ne_true }⟩
  case isTrue hc =>
    rw [Bool.and_eq_true, Bool.not_eq_true'] at hc
    obtain ⟨hmem, hrot⟩ := hc
    obtain rfl := h.now hmem
    refine ⟨w', ⟨.next h.before hl' hw, .start, rfl, fun _ => rfl, ?_, h.sameKey, h.imm, h.levels, fun hk => ?_⟩⟩
    · exact World.mem_wf_step (h.mem ▸ h.wf) hw
    · have hfound := h.found hk
      rw [← h.mem] at hfound
      rcases LiveScan.mem_of_step hw hl hrot with heq | ⟨op, height, walOpens, rfl, hroom, heq⟩
      · rw [heq]
        exact hfound
      · rw [heq]
        exact MemTable.get_add_isSome (h.mem ▸ h.wf) (h.sameKey ▸ hok hmem hroom) hfound

/-- What `Get` finds is what it would have found in one section at one of the states between. -/
theorem Between.search_eq (h : Between ok w key s w₁) :
    ∃ w₂, Reach World.step ok w w₂ ∧ Reach World.step ok w₂ s.world ∧ s.search = w₂.db.get key := by
  rw [search, h.sameKey, DB.get, h.imm, h.levels]
  cases hmem : s.mem.get key with
  | some value => exact ⟨w₁, h.before, h.after, by rw [DB.get, h.mem, hmem]⟩
  | none =>
    -- the key is not in the memtable at the snapshot either
    have hnone : w.db.mem.get key = none := by
      cases hv : w.db.mem.get key with
      | none => rfl
      | some value => simpa [hmem] using h.found (by rw [hv]; rfl)
    exact ⟨w, .start, h.before.trans h.after, by rw [DB.get, hnone]⟩

/-- **`Get` is linearizable.** Whatever is written, flushed and compacted behind its snapshot, it returns
what a `Get` in one section would have returned at some moment between its snapshot and its
search. -/
theorem search_linearizable {ok : World → Label → Prop} {options : Options}
    (hw : Reach World.step ok (World.fresh options) w) (h : Reach step Keeps (acquire w key) s) :
    ∃ w₁, Reach World.step (fun _ _ => True) w w₁ ∧ Reach World.step (fun _ _ => True) w₁ s.world ∧
      s.search = w₁.db.get key := by
  obtain ⟨w₁, hb⟩ : ∃ w₁, Between (fun _ _ => True) w key s w₁ :=
    h.invariant (I := fun s => ∃ w₁, Between (fun _ _ => True) w key s w₁)
      ⟨w, acquire_between (World.mem_wf_of_reach hw)⟩ fun _ _ _ ⟨_, hb⟩ hok hs => hb.step trivial hok hs
  exact hb.search_eq

/-- `Get` returns a value that has been overwritten and flushed by the time it comes to search. -/
theorem search_linearizable_overtaken : ∃ w s w₁,
    run World.step (fun _ _ => True) (World.fresh World.smallest) (World.thenFlush (.put [97] [2])) = some w ∧
    run step Keeps (acquire w [97]) (World.thenFlush (.put [97] [4])) = some s ∧
    s.search.toOption = some (.OK, some [2]) ∧ (s.world.db.get [97]).toOption = some (.OK, some [4]) ∧
    Reach World.step (fun _ _ => True) w₁ s.world ∧ s.search = w₁.db.get [97] := by
  have hrun : ((run World.step (fun _ _ => True) (World.fresh World.smallest)
      (World.thenFlush (.put [97] [2]))).bind fun w =>
        run step Keeps (acquire w [97]) (World.thenFlush (.put [97] [4]))).map
      (fun s => (s.search.toOption, (s.world.db.get [97]).toOption)) =
        some (some (.OK, some [2]), some (.OK, some [4])) := by decide +kernel
  obtain ⟨s, hs, heq⟩ := Option.map_eq_some_iff.1 hrun
  obtain ⟨w, hw, hs⟩ := Option.bind_eq_some_iff.1 hs
  simp only [Prod.mk.injEq] at heq
  obtain ⟨w₁, -, hafter, hsearch⟩ := search_linearizable (reach_of_run hw) (reach_of_run hs)
  exact ⟨w, s, w₁, hw, hs, heq.1, heq.2, hafter, hsearch⟩

/-- The acknowledged writes only grow. -/
theorem acked_suffix {w w' : World} (h : Reach World.step ok w w') : w.acked <:+ w'.acked := by
  refine h.invariant (I := fun w' => w.acked <:+ w'.acked) List.suffix_rfl fun w₁ l w₂ hle _ hs => ?_
  cases World.step_event hs with
  | wrote => exact hle.trans (List.suffix_cons _ _)
  | rotated => exact hle.trans (List.suffix_cons _ _)
  | _ => exact hle

/-- **A search without the lock finds the last write** that had been acknowledged at some moment between its
snapshot and its end, and nothing if there was none or it was a `Delete`; as long as every write goes above
the versions of its user key and every compaction puts the newest versions first. -/
theorem search_latest {options : Options} (hw : Reach World.step World.Current (World.fresh options) w)
    (h : Reach step (fun s l => s.world.Current l ∧ s.Keeps l) (acquire w key) s) :
    ∃ acked, w.acked <:+ acked ∧ acked <:+ s.world.acked ∧ ∃ r, s.search = .ok r ∧
      (∀ v, present (acked.lookup key) = some v → r = (.OK, some v)) ∧
      (present (acked.lookup key) = none → r.1.isNotFound = true) := by
  obtain ⟨w₁, hb⟩ : ∃ w₁, Between World.Current w key s w₁ :=
    h.invariant (I := fun s => ∃ w₁, Between World.Current w key s w₁)
      ⟨w, acquire_between (World.mem_wf_of_reach hw)⟩ fun _ _ _ ⟨_, hb⟩ hok hs => hb.step hok.1 hok.2 hs
  obtain ⟨w₂, hbefore, hafter, heq⟩ := hb.search_eq
  have hranged : ∀ {w}, Reach World.step World.Current (World.fresh options) w → w.Ranged :=
    fun h => World.ranged_of_reach (h.mono fun _ _ => World.Current.orderly)
  have hreach := hw.trans hbefore
  have hlatest : w₂.Latest := hreach.invariant_of (fun _ hr => hranged hr) (World.fresh_latest options)
    fun _ _ _ hr hl hok hs => hl.step hr hok hs
  refine ⟨w₂.acked, acked_suffix hbefore, acked_suffix hafter, _,
    heq.trans ((hranged hreach).get_eq (World.files_of_reach hreach) hlatest.apart key), ?_⟩
  rw [← hlatest.latest key]
  rcases answer_spec (w₂.db.versions.lookup key) with ⟨value, hvalue, hanswer⟩ | ⟨hnone, hcode⟩
  · refine ⟨fun v hv => ?_, fun hv => ?_⟩
    · rw [hanswer, Option.some.inj (hvalue.symm.trans hv)]
    · rw [hvalue] at hv
      cases hv
  · refine ⟨fun v hv => ?_, fun _ => by simp [Status.isNotFound, hcode]⟩
    rw [hnone] at hv
    cases hv

/-- The value found is that of the write before the last one. -/
theorem search_latest_overtaken : ∃ w s acked,
    run World.step World.Current (World.fresh World.smallest) (World.thenFlush (.put [97] [2])) = some w ∧
    run step (fun s l => s.world.Current l ∧ s.Keeps l) (acquire w [97])
      (World.thenFlush (.put [97] [4])) = some s ∧
    s.world.acked = [([97], [4]), ([97], [2])] ∧ s.search.toOption = some (.OK, some [2]) ∧
    w.acked <:+ acked ∧ acked <:+ s.world.acked ∧ present (acked.lookup [97]) ≠ some [4] := by
  have hrun : ((run World.step World.Current (World.fresh World.smallest)
      (World.thenFlush (.put [97] [2]))).bind fun w =>
        run step (fun s l => s.world.Current l ∧ s.Keeps l) (acquire w [97])
          (World.thenFlush (.put [97] [4]))).map
      (fun s => (s.world.acked, s.search.toOption)) =
        some ([([97], [4]), ([97], [2])], some (.OK, some [2])) := by decide +kernel
  obtain ⟨s, hs, heq⟩ := Option.map_eq_some_iff.1 hrun
  obtain ⟨w, hw, hs⟩ := Option.bind_eq_some_iff.1 hs
  simp only [Prod.mk.injEq] at heq
  obtain ⟨acked, hbefore, hafter, r, hr, hfound, -⟩ := search_latest (reach_of_run hw) (reach_of_run hs)
  refine ⟨w, s, acked, hw, hs, heq.1, heq.2, hbefore, hafter, fun hlast => ?_⟩
  have hsearch := heq.2
  rw [hr, hfound _ hlast] at hsearch
  exact absurd hsearch (by decide)

end LiveGet

end MiniLSM
